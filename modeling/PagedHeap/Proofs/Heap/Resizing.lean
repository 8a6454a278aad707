import PagedHeap.Proofs.Heap.Requests

/-!
# Resizing

An allocation may stay where it is, change in place, or move.  On every route it keeps its
content as far as old and new size go together, and what is zero behind that is zero because it
was never in other hands.  An allocation that moved leaves nothing behind; one that cannot move
is as it was.
-/

namespace PagedHeap
namespace Heap

open SizeTable

variable {h h' h'' : Heap} {spans spans' : Place → Category → List Span} {live foreign : Set Nat}
  {c : Category} {t x moved n old size : Nat} {opts : AllocOptions}

/-- The allocation at `x` of `old` bytes has become one of `n` bytes at `moved`. -/
structure Moves (h : Heap) (spans : Place → Category → List Span) (live foreign : Set Nat)
    (x old size : Nat) (opts : AllocOptions) (moved n : Nat) (h' : Heap)
    (spans' : Place → Category → List Span) : Prop where
  sound : h'.Sound spans' (insert moved (live \ {x})) foreign
  rules : h.SameRules h'
  frames : h.Frames (live \ {x}) foreign h'
  fresh : moved ≠ x → moved ∉ live
  free : moved ≠ x → x ∈ cachedIn spans' ∨ pageOffset x = 0 ∧ h'.table.get? x = none
  occupies : h'.Occupies moved n
  sized : opts.Yields size n
  admits : opts.Admits moved
  front : ∀ i < min old size,
    h'.kernel.memory.byteAt (moved + i) = h.kernel.memory.byteAt (x + i)
  tail : opts.zero = true → ∀ i, old ≤ i → i < size →
    h'.kernel.memory.byteAt (moved + i) = 0
  recycles : Recycles h.kernel.memory (usedBlocks spans live)
    h'.kernel.memory (usedBlocks spans' (insert moved (live \ {x})))

theorem Moves.size_le (hmoves : h.Moves spans live foreign x old size opts moved n h' spans') :
    size ≤ n :=
  hmoves.sized.size_le

/-- What resizing an allocation comes to. -/
def Resizes (h : Heap) (spans : Place → Category → List Span) (live foreign : Set Nat)
    (x old size : Nat) (opts : AllocOptions) : Option Nat → Heap → Prop
  | none, h' => h.Rests spans live foreign h'
  | some moved, h' => ∃ n spans', h.Moves spans live foreign x old size opts moved n h' spans'

theorem ensures_copy {source target len : Nat} {post : Unit → Heap → Prop}
    {ends : Ending → Heap → Prop} :
    Action.Ensures (copy source target len) h post ends ↔
      post () (h.withMemory (h.kernel.memory.copy source target len)) :=
  Action.ensures_iff

/-- A block has one size. -/
theorem Occupies.eq_blockSize (hn : h.Occupies x n) (hblock : IsBlock h.kernel.memory c x) :
    n = c.blockSize :=
  hn.unique (.inr ⟨c, hblock, rfl⟩)

theorem Occupies.isBlock (hn : h.Occupies x c.blockSize) (hoffset : pageOffset x ≠ 0) :
    IsBlock h.kernel.memory c x := by
  rcases hn with ⟨hzero, -⟩ | ⟨d, hblock, hsize⟩
  · exact absurd hzero hoffset
  · rwa [Category.blockSize_injective hsize]

/-! ## Staying -/

/-- The allocation is as large and as aligned as one that is asked for. -/
theorem Sound.moves_self (hsound : h.Sound spans live foreign) (hx : x ∈ live)
    (hn : h.Occupies x n) (hsized : opts.Yields size n) (hadmits : opts.Admits x) :
    h.Moves spans live foreign x n size opts x n h spans := by
  have hlive := insert_diff_self hx
  refine ⟨by rwa [hlive], SameRules.refl h, Frames.refl h _ foreign, fun hne => absurd rfl hne,
    fun hne => absurd rfl hne, hn, hsized, hadmits, fun _ _ => rfl,
    fun _ i hge hlt => absurd (Nat.le_trans hsized.size_le hge) (Nat.not_le.2 hlt), ?_⟩
  rw [hlive]
  exact hsound.steady_self.recycles

/-! ## Moving to a new allocation -/

/-- A new allocation can be filled with what is elsewhere. -/
theorem Grants.filled {len : Nat} (hgrants : h.Grants spans live foreign moved n h' spans')
    (hle : len ≤ n) (source : Nat) :
    h.Grants spans live foreign moved n
      (h'.withMemory (h'.kernel.memory.copy source moved len)) spans' :=
  hgrants.withMemory fun _ hy => Memory.byteAt_copy_outside fun hin =>
    hy (bytesAt_subset (Nat.le_refl moved) (Nat.add_le_add_left hle moved) hin)

/-- The new allocation is filled, and the old one goes. -/
theorem Grants.moves (hgrants : h.Grants spans live foreign moved n h' spans')
    (hx : x ∈ live) (hold : h.Occupies x old) (hmeets : h'.Meets size opts moved n)
    (hother : ∀ c, IsBlock h.kernel.memory c x → ¬IsBlock h'.kernel.memory c moved)
    {spans'' : Place → Category → List Span}
    (hreleases : (h'.withMemory (h'.kernel.memory.copy x moved (min old size))).Releases spans'
      (insert moved live) foreign x h'' spans'') :
    h.Moves spans live foreign x old size opts moved n h'' spans'' := by
  have hsize := hmeets.size_le
  have hfilled := hgrants.filled (Nat.le_trans (Nat.min_le_right old size) hsize) x
  have hne : moved ≠ x := fun heq => hgrants.fresh (heq ▸ hx)
  have hlive : insert moved live \ {x} = insert moved (live \ {x}) :=
    Set.insert_sdiff_of_notMem live hne
  have hkept : moved ∈ insert moved live \ {x} := ⟨Set.mem_insert _ _, hne⟩
  obtain ⟨hoccupies, hcontent⟩ := hreleases.preserves moved hkept n hfilled.occupies
  have hbyte : ∀ i < n, h''.kernel.memory.byteAt (moved + i) =
      (h'.kernel.memory.copy x moved (min old size)).byteAt (moved + i) :=
    fun i hi => hcontent _ (mem_bytesAt.2 ⟨Nat.le_add_right _ _, Nat.add_lt_add_left hi _⟩)
  have hsound := hreleases.sound
  have hafter := hreleases.frames
  have hrecycles := hfilled.recycles.shrink hreleases.shrinks hreleases.alike
  rw [hlive] at hsound hafter hrecycles
  refine
    { sound := hsound
      rules := hfilled.rules.trans hreleases.rules
      frames := (hfilled.frames.mono Set.sdiff_subset).trans
        (hafter.mono (Set.subset_insert _ _))
      fresh := fun _ => hgrants.fresh
      free := fun _ => hreleases.free
      occupies := hoccupies
      sized := hmeets.sized
      admits := hmeets.admits
      front := fun i hi => ?front
      tail := fun hzero i hge hlt => ?tail
      recycles := hrecycles fun y hy hgone z hz hnew hpage => ?recycles }
  case front =>
    have hsource := (hgrants.preserves x hx old hold).2 (x + i)
      (mem_bytesAt.2 ⟨Nat.le_add_right _ _, by omega⟩)
    rw [hbyte i (by omega), Memory.byteAt_copy, if_pos ⟨Nat.le_add_right _ _,
      Nat.add_lt_add_left hi _⟩, Nat.add_sub_cancel_left]
    exact hsource
  case tail =>
    rw [hbyte i (by omega), Memory.byteAt_copy_outside]
    · exact hmeets.zero hzero _ (mem_bytesAt.2 ⟨Nat.le_add_right _ _, by omega⟩)
    · rw [mem_bytesAt]
      omega
  case recycles =>
    -- What came home is of the category of the old block, and what is new of another.
    rw [← hlive] at hgone
    obtain ⟨c, hblock, hlost⟩ := hreleases.lost y hy hgone
    obtain ⟨d, hblock', hopened⟩ := hfilled.opened z hz hnew
    obtain rfl := hlost.category_eq hopened hpage
    have hold' := (hfilled.preserves x hx old hold).1.eq_blockSize hblock
    have hnew' := hfilled.occupies.eq_blockSize hblock'
    rw [hold'] at hold
    have hgranted := hgrants.occupies
    rw [hnew'] at hgranted
    exact hother c (hold.isBlock hblock.offset_ne) (hgranted.isBlock hblock'.offset_ne)

/-- A move to an allocation of another kind. -/
theorem Sound.ensures_moveTo (hsound : h.Sound spans live foreign) (t : Nat) (hx : x ∈ live)
    (hold : h.Occupies x old)
    (hother : ∀ c, IsBlock h.kernel.memory c x → route size opts ≠ .ok (some (.small c))) :
    Action.Ensures (moveTo t x old size opts) h
      (h.Resizes spans live foreign x old size opts) (fun e _ => h.Ends e) := by
  rw [moveTo, Action.ensures_bind]
  apply (hsound.ensures_allocate t size opts).imp
  intro moved? h₁ hallocates
  cases moved? with
  | none => exact .answer hallocates
  | some moved =>
      obtain ⟨n, spans', hgrants, hmeets, hroute⟩ := hallocates
      have hfilled := hgrants.filled (Nat.le_trans (Nat.min_le_right old size) hmeets.size_le) x
      rw [Action.ensures_bind, ensures_copy, Action.ensures_bind]
      apply (hfilled.sound.ensures_reclaim t (Set.mem_insert_of_mem moved hx)).mono
      · intro _ h₂ hpost
        obtain ⟨spans'', hreleases⟩ := hpost
        refine .answer ⟨n, spans'', hgrants.moves hx hold hmeets (fun c hblock hblock' => ?_)
          hreleases⟩
        exact hother c hblock (hroute c hblock')
      · intro e _ hends
        exact Ends.of_rules hfilled.rules (.inl hends)

/-! ## Blocks -/

theorem Sound.ensures_resizeBlock {target : Route} (hsound : h.Sound spans live foreign) (t : Nat)
    (hx : x ∈ live) (hblock : IsBlock h.kernel.memory c x)
    (hroute : route size opts = .ok (some target)) :
    Action.Ensures (resizeBlock t x size opts target) h
      (h.Resizes spans live foreign x c.blockSize size opts) (fun e _ => h.Ends e) := by
  have hold : h.Occupies x c.blockSize := .inr ⟨c, hblock, rfl⟩
  simp only [resizeBlock, onKernel, Action.ensures_bind, Action.ensures_within]
  apply BlockHeap.ensures_blockCategory hblock
  rw [Action.ensures_ite]
  split
  · rename_i hsame
    rw [hsame] at hroute
    obtain ⟨hsized, hadmits⟩ := route_small hroute
    exact .answer ⟨_, spans, hsound.moves_self hx hold hsized (hadmits _ x hblock)⟩
  · rename_i hother
    apply hsound.ensures_moveTo t hx hold
    intro d hblock' hsmall
    rw [hblock'.category_eq hblock rfl, hroute] at hsmall
    exact hother (Option.some.inj (Except.ok.inj hsmall))

/-! ## Large allocations -/

section LargeMoves

variable {l : LargeHeap} {rest : Set Nat} {lent : Nat}
  (hplaces : h.largeHeap.Places rest lent (Function.update h.table.get? x none) moved n l)
include hplaces

/-- A large allocation that moves is where the client had nothing. -/
theorem Sound.notMem_of_places (hsound : h.Sound spans live foreign) (hne : moved ≠ x) :
    moved ∉ live := by
  intro hin
  have hmoved : pageOffset moved = 0 := hplaces.sound.spread.page_mod moved n hplaces.get?_eq
  obtain ⟨size, hsize⟩ := (hsound.sizes moved hmoved).1 hin
  have hnone : Function.update h.table.get? x none moved = none := hplaces.fresh
  rw [Function.update_of_ne hne, hsize] at hnone
  exact absurd hnone (by simp)

/-- The large allocations of the client are those with an entry still. -/
theorem Sound.sizes_of_places (hsound : h.Sound spans live foreign) {y : Nat}
    (hy : pageOffset y = 0) :
    y ∈ insert moved (live \ {x}) ↔ ∃ size, l.table.get? y = some size := by
  rw [hplaces.sizes_eq, Set.mem_insert_iff]
  by_cases hself : y = moved
  · rw [hself, Function.update_self]
    exact ⟨fun _ => ⟨n, rfl⟩, fun _ => .inl rfl⟩
  · rw [Function.update_of_ne hself]
    by_cases hgone : y = x
    · rw [hgone, Function.update_self]
      refine ⟨fun hin => ?_, fun hsome => absurd hsome (by simp)⟩
      exact absurd rfl (hin.resolve_left fun heq => hself (hgone.trans heq)).2
    · rw [Function.update_of_ne hgone]
      refine ⟨fun hin => (hsound.sizes y hy).1 (hin.resolve_left hself).1, fun hsome => ?_⟩
      exact .inr ⟨(hsound.sizes y hy).2 hsome, hgone⟩

end LargeMoves

/-- A large allocation was resized, in place or by a move. -/
theorem Sound.moves_large {l : LargeHeap} {rounded : Nat} (hsound : h.Sound spans live foreign)
    (hoffset : pageOffset x = 0) (hadmits : opts.Admits x)
    (hroute : route size opts = .ok (some (.large rounded opts.alignment)))
    (hresizes : h.largeHeap.Resizes (runBytes (usedBlocks spans live) ∪ foreign)
      ((pagesOf (usedBlocks spans live)).ncard * pageSize) x old rounded opts.alignment
      (some moved) l) :
    ∃ n, h.Moves spans live foreign x old size opts moved n (largePart.write l h) spans := by
  obtain ⟨n, hceil, hplaces, halign, hfront, htail⟩ := hresizes
  obtain ⟨-, hrounded, -, -, hyields⟩ := route_large hroute
  obtain ⟨-, -, hle, -⟩ := pageCeil?_eq_some_iff.1 hceil
  have hmoved : pageOffset moved = 0 := hplaces.sound.spread.page_mod moved n hplaces.get?_eq
  have hfresh : moved ≠ x → moved ∉ live := hsound.notMem_of_places hplaces
  have hheld : heldBlocks (insert moved (live \ {x})) = heldBlocks live := by
    rw [heldBlocks_insert hmoved, heldBlocks_diff hoffset]
  have hcached : ∀ y ∈ cachedIn spans, y ∉ insert moved (live \ {x}) := by
    intro y hy hin
    rcases Set.mem_insert_iff.1 hin with rfl | hin
    · exact hsound.offset_cached hy hmoved
    · exact hsound.cached_notMem y hy hin.1
  have hruns := hplaces.keeps.mono (Set.subset_union_left.trans (Set.subset_union_right
    (s := extent (Function.update h.table.get? x none))))
  refine
    ⟨n, { sound := hsound.of_large hplaces.sound hruns hheld
            (fun _ hy => hsound.sizes_of_places hplaces hy) hcached
          rules := ⟨rfl, rfl⟩
          frames := Frames.of_large Set.sdiff_subset hplaces.keeps fun y hy => ?frames
          fresh := hfresh
          free := fun hne => .inr ⟨hoffset, ?free⟩
          occupies := .inl ⟨hmoved, hplaces.get?_eq⟩
          sized := hyields n hceil
          admits := ?admits
          front := fun i hi => hfront i (by omega)
          tail := fun _ i hge hlt => htail i hge (by omega)
          recycles := ?recycles }⟩
  case frames =>
    have hne : y ≠ moved := by
      intro heq
      by_cases hstays : moved = x
      · exact hy.2 (heq.trans hstays)
      · exact hfresh hstays (heq ▸ hy.1)
    rw [hplaces.sizes_eq, Function.update_of_ne hne]
    exact ⟨Function.update_of_ne hy.2 _ _, Function.update_of_ne hy.2 _ _⟩
  case free =>
    show l.table.get? x = none
    rw [hplaces.sizes_eq, Function.update_of_ne hne.symm, Function.update_self]
  case admits =>
    rcases halign with rfl | halign
    · exact hadmits
    · exact AllocOptions.admits_of_dvd (Nat.dvd_of_mod_eq_zero halign)
  case recycles =>
    rw [usedBlocks_congr spans hheld]
    exact recycles_of_subset (Set.Subset.refl _) (alike_largePart hplaces.keeps)

theorem Sound.ensures_resizeInPlace {rounded : Nat} (hsound : h.Sound spans live foreign)
    (hoffset : pageOffset x = 0) (hsize : h.table.get? x = some old) (hadmits : opts.Admits x)
    (hroute : route size opts = .ok (some (.large rounded opts.alignment))) :
    Action.Ensures (do
        match ← onLarge (LargeHeap.resize x rounded opts.alignment) with
        | some got => return some got
        | none => fail (.outOfMemory rounded)) h
      (h.Resizes spans live foreign x old size opts) (fun e _ => h.Ends e) := by
  obtain ⟨hpos, hrounded, -, halign, -⟩ := route_large hroute
  rw [Action.ensures_bind, onLarge, Action.ensures_within]
  show Action.Ensures _ h.largeHeap _ _
  apply (hsound.large.ensures_resize hsize (Nat.lt_of_lt_of_le hpos hrounded) halign).weaken
  intro moved? l hresizes
  cases moved? with
  | none =>
      have hrests : h.Rests spans live foreign (largePart.write l h) := rests_large hresizes
      apply (ensures_fail _ _).mono
      · intro x? h' hpost
        obtain ⟨rfl, hnotes⟩ := hpost
        exact hrests.notes hnotes
      · intro e _ hends
        exact Ends.of_rules hrests.rules (.inr hends)
  | some moved =>
      obtain ⟨n, hmoves⟩ := hsound.moves_large hoffset hadmits hroute hresizes
      exact .answer ⟨n, spans, hmoves⟩

theorem Sound.ensures_resizeLarge {target : Route} (hsound : h.Sound spans live foreign) (t : Nat)
    (hx : x ∈ live) (hoffset : pageOffset x = 0) (hsize : h.table.get? x = some old)
    (hroute : route size opts = .ok (some target)) :
    Action.Ensures (resizeLarge t x size opts target) h
      (h.Resizes spans live foreign x old size opts) (fun e _ => h.Ends e) := by
  have hmove : Action.Ensures (do
      let old ← onLarge (LargeHeap.sizeOf x)
      moveTo t x old size opts) h (h.Resizes spans live foreign x old size opts)
      (fun e _ => h.Ends e) := by
    rw [Action.ensures_bind, onLarge, Action.ensures_within]
    apply LargeHeap.ensures_sizeOf hsize
    exact hsound.ensures_moveTo t hx (.inl ⟨hoffset, hsize⟩) fun c hblock =>
      absurd hoffset hblock.offset_ne
  cases target with
  | small c => exact hmove
  | large rounded align =>
      obtain ⟨-, -, rfl, -, -⟩ := route_large hroute
      simp only [resizeLarge]
      rw [Action.ensures_ite]
      split
      · rename_i halign
        exact hsound.ensures_resizeInPlace hoffset hsize
          (AllocOptions.admits_of_dvd (Nat.dvd_of_mod_eq_zero halign)) hroute
      · exact hmove

/-! ## Resizing -/

theorem Sound.ensures_reallocate (hsound : h.Sound spans live foreign) (t : Nat) (hx : x ∈ live)
    (hold : h.Occupies x old) (hpos : 0 < size) (opts : AllocOptions) :
    Action.Ensures (reallocate t (some x) size opts) h
      (h.Resizes spans live foreign x old size opts) (fun e _ => h.Ends e) := by
  have hsize : size ≠ 0 := by omega
  simp only [reallocate, if_neg hsize]
  cases hroute : route size opts with
  | error error =>
      apply (ensures_fail h error).mono
      · intro x? h' hpost
        obtain ⟨rfl, hnotes⟩ := hpost
        exact hsound.rests_self.notes hnotes
      · exact fun _ _ hends => .inr hends
  | ok target? =>
      cases target? with
      | none => exact .answer hsound.rests_self
      | some target =>
          rcases hold with ⟨hoffset, hentry⟩ | ⟨c, hblock, rfl⟩
          · have hlarge := isBlock_eq_false hoffset
            simp only [hlarge, Bool.false_eq_true, if_false]
            exact hsound.ensures_resizeLarge t hx hoffset hentry hroute
          · have hsmall := isBlock_eq_true hblock.offset_ne
            simp only [hsmall, if_true]
            exact hsound.ensures_resizeBlock t hx hblock hroute

/-- A size of zero frees. -/
theorem Sound.ensures_reallocate_zero (hsound : h.Sound spans live foreign) (t : Nat)
    (hx : x ∈ live) (opts : AllocOptions) :
    Action.Ensures (reallocate t (some x) 0 opts) h
      (fun x? h' => x? = none ∧ ∃ spans', h.Releases spans live foreign x h' spans')
      (fun e _ => h.LockEnds e) := by
  simp only [reallocate, if_true, Action.ensures_bind]
  exact (hsound.ensures_reclaim t hx).imp fun _ _ hpost => .answer ⟨rfl, hpost⟩

end Heap
end PagedHeap
