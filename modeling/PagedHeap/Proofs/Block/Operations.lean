import PagedHeap.Proofs.Block.Lists

/-!
# What a cache of blocks does

An allocation takes a used block or opens a run, and a free puts a block on its list or, after a
flush, on the empty one.  A block that has come home is not used again until its page has gone
back and has become a run anew.
-/

namespace PagedHeap

/-- Blocks that are used before and after are in runs of the category that they were in. -/
def Alike (m : Memory) (used : Set Nat) (m' : Memory) (used' : Set Nat) : Prop :=
  ∀ x ∈ used, x ∈ used' → m'.runCategory (pageOf x) = m.runCategory (pageOf x)

/-- More blocks are used, whole runs of a category at a time. -/
structure Opens (m : Memory) (c : Category) (used : Set Nat) (m' : Memory) (used' : Set Nat) :
    Prop where
  grows : used ⊆ used'
  fresh : ∀ x ∈ used', x ∈ used ∨ pageOf x ∉ pagesOf used
  shaped : ∀ x ∈ used', x ∉ used → IsBlock m' c x
  whole : ∀ x ∈ used', x ∉ used → ∀ y, IsBlock m' c y → pageOf y = pageOf x → y ∈ used'
  alike : Alike m used m' used'

/-- Fewer blocks are used; those that came home are of a category. -/
structure Closes (m : Memory) (c : Category) (used : Set Nat) (m' : Memory) (used' : Set Nat) :
    Prop where
  shrinks : used' ⊆ used
  lost : ∀ x ∈ used, x ∉ used' → IsBlock m c x
  alike : Alike m used m' used'

theorem IsBlock.of_runCategory {m m' : Memory} {c : Category} {x : Nat} (h : IsBlock m c x)
    (hsame : m'.runCategory (pageOf x) = m.runCategory (pageOf x)) : IsBlock m' c x :=
  ⟨hsame.trans h.category, h.offset_ne, h.offset_mod⟩

theorem opens_self {m m' : Memory} {c : Category} {used : Set Nat} (halike : Alike m used m' used) :
    Opens m c used m' used :=
  ⟨fun _ hx => hx, fun _ hx => .inl hx, fun _ hx hnot => absurd hx hnot,
    fun _ hx hnot => absurd hx hnot, halike⟩

namespace BlockHeap

variable {b b' : BlockHeap} {c : Category} {spans : List Span} {elsewhere rest : Set Nat}
  {lent x page : Nat}

/-- The supplier alone has changed, and nothing that is out of its hands. -/
structure Rests (b : BlockHeap) (used rest : Set Nat) (lent : Nat) (b' : BlockHeap) : Prop where
  paging : b'.paging.Sound (runBytes used ∪ rest) ((pagesOf used).ncard * pageSize + lent)
  spares : b.paging.Keeps (runBytes used ∪ rest) b'.paging
  cache_eq : b'.cache = b.cache

/-- The block `x` was the first of the rows; or there were none, and it is the first of a page
whose other blocks are in the rows now. -/
inductive Draws (c : Category) (spans : List Span) (x : Nat) (spans' : List Span) : Prop where
  | pop (hblocks : blocksOf c spans = x :: blocksOf c spans')
  | carve {page : Nat} (hempty : spans = []) (hmod : page % pageSize = 0)
      (hblocks : (wholeRun c page).blocks c = x :: blocksOf c spans')

/-- What an allocation comes to. -/
def Allocates (b : BlockHeap) (c : Category) (spans : List Span) (elsewhere rest : Set Nat)
    (lent : Nat) : Option Nat → BlockHeap → Prop
  | none, b' => b.Rests ({y | y ∈ blocksOf c spans} ∪ elsewhere) rest lent b' ∧ spans = []
  | some x, b' => ∃ spans', b'.Stocks c spans' (insert x elsewhere) rest lent ∧
      b.Spares c elsewhere rest b' ∧ x ∉ elsewhere ∧ IsBlock b'.paging.kernel.memory c x ∧
      Opens b.paging.kernel.memory c ({y | y ∈ blocksOf c spans} ∪ elsewhere)
        b'.paging.kernel.memory ({y | y ∈ blocksOf c spans'} ∪ insert x elsewhere) ∧
      Draws c spans x spans'

/-- Blocks elsewhere keep their headers, and the others are of the category of the list. -/
theorem Spares.alike {used used' : Set Nat} (h : b.Spares c elsewhere rest b')
    (hbefore : ∀ x ∈ used, x ∉ elsewhere → IsBlock b.paging.kernel.memory c x)
    (hafter : ∀ x ∈ used', x ∉ elsewhere → IsBlock b'.paging.kernel.memory c x) :
    Alike b.paging.kernel.memory used b'.paging.kernel.memory used' := by
  intro x hx hx'
  by_cases hin : x ∈ elsewhere
  · exact Memory.runCategory_congr fun y hy =>
      h.keeps.byteAt y (.inl (header_subset_reserved hin hy))
  · rw [(hafter x hx' hin).category, (hbefore x hx hin).category]

theorem Stocks.shaped (h : b.Stocks c spans elsewhere rest lent) (hx : x ∈ blocksOf c spans) :
    IsBlock b.paging.kernel.memory c x :=
  h.holds.linked.shaped hx

/-- The blocks of a run behind the first one. -/
theorem mem_wholeRun_iff (hmod : page % pageSize = 0) :
    x ∈ (wholeRun c page).blocks c ↔
      x = (wholeRun c page).first ∨ x ∈ ((wholeRun c page).rest c).blocks c := by
  have hpos := (row_wholeRun (m := .blank) (c := c) hmod).positive
  rw [Span.blocks_eq_cons hpos, List.mem_cons]

/-- The first block of a fresh run is handed out, and the blocks behind it are used beside that. -/
theorem wholeRun_split (hmod : page % pageSize = 0) (hfresh : page ∉ pagesOf elsewhere) :
    elsewhere ∪ {x | x ∈ (wholeRun c page).blocks c} =
        insert (wholeRun c page).first elsewhere ∪
          {x | x ∈ ((wholeRun c page).rest c).blocks c} ∧
      (wholeRun c page).first ∉ elsewhere ∧
      ∀ x ∈ ((wholeRun c page).rest c).blocks c,
        x ∉ insert (wholeRun c page).first elsewhere := by
  have hrow := row_wholeRun (m := .blank) (c := c) hmod
  have hnew : ∀ x ∈ (wholeRun c page).blocks c, x ∉ elsewhere := by
    intro x hx hin
    have hpage := mem_pagesOf hin
    rw [(mem_wholeRun hmod hx).1] at hpage
    exact hfresh hpage
  have hnodup := (wholeRun c page).nodup_blocks c
  rw [Span.blocks_eq_cons hrow.positive, List.nodup_cons] at hnodup
  refine ⟨?_, hnew _ hrow.first_mem, fun x hx hin => ?_⟩
  · ext x
    simp only [Set.mem_union, Set.mem_ofPred_eq, mem_wholeRun_iff hmod, Set.mem_insert_iff]
    tauto
  · rcases Set.mem_insert_iff.1 hin with rfl | hin
    · exact hnodup.1 hx
    · exact hnew x ((mem_wholeRun_iff hmod).2 (.inr hx)) hin

/-- Opening a run uses all of its blocks, and no other block of the page. -/
theorem opens_wholeRun {m m' : Memory} (hmod : page % pageSize = 0)
    (hfresh : page ∉ pagesOf elsewhere) (hfirst : IsBlock m' c (wholeRun c page).first)
    (halike : Alike m elsewhere m' (elsewhere ∪ {x | x ∈ (wholeRun c page).blocks c})) :
    Opens m c elsewhere m' (elsewhere ∪ {x | x ∈ (wholeRun c page).blocks c}) := by
  refine ⟨Set.subset_union_left, fun x hx => ?_, fun x hx hnot => ?_,
    fun x hx hnot y hblock hpage => .inr ?_, halike⟩
  · rcases hx with hx | hx
    · exact .inl hx
    · refine .inr ?_
      rwa [(mem_wholeRun hmod hx).1]
  · have hrow := row_wholeRun (m := .blank) (c := c) hmod
    obtain ⟨hpage, hne, hoffset⟩ := mem_wholeRun hmod (hx.resolve_left hnot)
    have hcategory := hfirst.category
    rw [(mem_wholeRun hmod hrow.first_mem).1, ← hpage] at hcategory
    exact ⟨hcategory, hne, hoffset⟩
  · have hmem := hblock.mem_wholeRun
    rwa [hpage, (mem_wholeRun hmod (hx.resolve_left hnot)).1] at hmem

/-- A page that was handed out and marked as a run, with all its blocks out. -/
theorem Stocks.markRun {p : Paging} (h : b.Stocks c [] elsewhere rest lent)
    (hkeeps : b.paging.Keeps (runBytes elsewhere ∪ rest) p)
    (hsupplies : p.Supplies (runBytes elsewhere ∪ rest)
      ((pagesOf elsewhere).ncard * pageSize + lent + pageSize) page pageSize)
    (hmarked : b' = { b with paging := { p with kernel := { p.kernel with
      memory := p.kernel.memory.markRun c page } } }) :
    b'.Stocks c [] (elsewhere ∪ {x | x ∈ (wholeRun c page).blocks c}) rest lent ∧
      b.Spares c elsewhere rest b' ∧ page ∉ pagesOf elsewhere := by
  subst hmarked
  have hnothing : {x | x ∈ blocksOf c []} ∪ elsewhere = elsewhere := by simp
  have hold := h.pool
  rw [hnothing] at hold
  have hmarked := hold.marked.of_keeps (hkeeps.mono Set.subset_union_left)
  obtain ⟨hpool, hkeeps', hfresh⟩ := Pool.of_supplies (c := c) hmarked hold.apart
    hold.finite_pages hsupplies
  refine ⟨⟨?_, ?_, fun x hx => absurd hx List.not_mem_nil⟩, ⟨?_, fun d _ => rfl⟩, hfresh⟩
  · have hnothing' : {x | x ∈ blocksOf c []} ∪
        (elsewhere ∪ {x | x ∈ (wholeRun c page).blocks c}) =
          elsewhere ∪ {x | x ∈ (wholeRun c page).blocks c} := by simp
    rwa [hnothing']
  · exact h.holds.of_nil
  · have hreserved := reserved_subset_runBytes (m := b.paging.kernel.memory) elsewhere
    exact (hkeeps.trans hkeeps').mono (Set.union_subset_union_left rest hreserved)

theorem Stocks.ensures_openRun {p : Paging} (h : b.Stocks c [] elsewhere rest lent)
    (hkeeps : b.paging.Keeps (runBytes elsewhere ∪ rest) p)
    (hsupplies : p.Supplies (runBytes elsewhere ∪ rest)
      ((pagesOf elsewhere).ncard * pageSize + lent + pageSize) page pageSize) :
    Action.Ensures (openRun c page) { b with paging := p }
      (fun x b' => b.Allocates c [] elsewhere rest lent (some x) b') Action.never := by
  have hmod := hsupplies.aligned
  obtain ⟨b₂, hb₂⟩ : ∃ b₂ : BlockHeap, b₂ = { b with paging := { p with kernel :=
      { p.kernel with memory := p.kernel.memory.markRun c page } } } := ⟨_, rfl⟩
  have hrow : Row b₂.paging.kernel.memory c (wholeRun c page) := by
    rw [hb₂]
    dsimp only
    exact row_wholeRun hmod
  have hmany : 1 < (wholeRun c page).count :=
    Nat.lt_of_lt_of_le (by decide) c.three_le_blocksPerPage
  have hfirst := hrow.shaped _ hrow.first_mem
  obtain ⟨hstocks, hspares, hfresh⟩ := h.markRun hkeeps hsupplies hb₂
  obtain ⟨hused, hnew, hapart⟩ := wholeRun_split (c := c) hmod hfresh
  rw [hused] at hstocks
  have hroom : (b₂.cache.list c).count + ((wholeRun c page).rest c).count ≤ cacheCeiling := by
    have hlt := c.blocksPerPage_lt_cacheCeiling
    rw [hstocks.holds.count_eq, blocksOf_nil, List.length_nil]
    simp only [Span.rest, wholeRun]
    omega
  subst hb₂
  simp only [openRun, Action.ensures_bind, ensures_updateMemory, Action.ensures_pure]
  apply (Stocks.ensures_push (s := (wholeRun c page).rest c) hstocks (hrow.rest hmany) hapart
    hroom).weaken
  intro _ b₃ hpost
  obtain ⟨hstocks₃, hspares₃⟩ := hpost
  have hblock : IsBlock b₃.paging.kernel.memory c (wholeRun c page).first :=
    hfirst.of_reserved (Set.mem_insert _ elsewhere) fun y hy => hspares₃.keeps.byteAt y (.inl hy)
  have hspares' := hspares.trans (hspares₃.mono (Set.subset_insert _ _))
  have hopens := opens_wholeRun hmod hfresh hblock fun x hx _ =>
    Memory.runCategory_congr fun y hy =>
      hspares'.keeps.byteAt y (.inl (header_subset_reserved hx hy))
  have hdraws : Draws c [] (wholeRun c page).first [(wholeRun c page).rest c] := by
    refine .carve rfl hmod ?_
    rw [Span.blocks_eq_cons hrow.positive, blocksOf_cons, blocksOf_nil, List.append_nil]
  refine ⟨[(wholeRun c page).rest c], hstocks₃, hspares', hnew, hblock, ?_, hdraws⟩
  rw [hused, Set.union_comm] at hopens
  show Opens _ c ({y | y ∈ blocksOf c []} ∪ elsewhere) _
    ({y | y ∈ blocksOf c [(wholeRun c page).rest c]} ∪ insert (wholeRun c page).first elsewhere)
  simpa using hopens

theorem Stocks.ensures_allocate (h : b.Stocks c spans elsewhere rest lent) :
    Action.Ensures (allocate c) b (b.Allocates c spans elsewhere rest lent) Action.never := by
  rw [allocate, Action.ensures_bind]
  apply h.ensures_pop.weaken
  intro block? b' hpops
  cases block? with
  | some block =>
      obtain ⟨spans', hblocks, hstocks, hspares, hblock⟩ := hpops
      have hmem : block ∈ blocksOf c spans := by
        rw [hblocks]
        exact List.mem_cons_self
      refine .answer ⟨spans', hstocks, hspares, h.apart block hmem, hblock, ?_, .pop hblocks⟩
      rw [setOf_mem_cons hblocks]
      apply opens_self
      rw [← setOf_mem_cons hblocks]
      apply hspares.alike
      · exact fun x hx hnot => h.shaped (hx.resolve_right hnot)
      · intro x hx hnot
        have hin := hx.resolve_right hnot
        rw [Set.mem_ofPred_eq, hblocks, List.mem_cons] at hin
        rcases hin with rfl | hin
        · exact hblock
        · exact hstocks.shaped hin
  | none =>
      obtain ⟨rfl, rfl⟩ := hpops
      have hnothing : {x | x ∈ blocksOf c []} ∪ elsewhere = elsewhere := by simp
      have hpaging := h.pool.paging
      rw [hnothing] at hpaging
      rw [Action.ensures_bind, ensures_onPages]
      apply (hpaging.ensures_allocate pageSize_pos (Nat.mod_self _)).weaken
      intro page? p hobtains
      cases page? with
      | none =>
          obtain ⟨hkeeps, hsound⟩ := hobtains
          rw [← hnothing] at hkeeps hsound
          exact .answer ⟨⟨hsound, hkeeps, rfl⟩, rfl⟩
      | some page =>
          obtain ⟨hkeeps, hsupplies⟩ := hobtains
          rw [Action.ensures_map]
          exact h.ensures_openRun hkeeps hsupplies

/-! ## Freeing -/

theorem ensures_blockCategory {k : Kernel} {post : Category → Kernel → Prop}
    {ends : Ending → Kernel → Prop} (hblock : IsBlock k.memory c x) (h : post c k) :
    Action.Ensures (Kernel.blockCategory x) k post ends := by
  have hnumber : Category.ofNat? (k.memory.runCategory (pageOf x)) = some c := by
    rw [hblock.category, Category.ofNat?_val]
  simp only [Kernel.blockCategory, Action.ensures_bind, Action.ensures_get, hnumber]
  rw [if_neg (by simp [hblock.offset_ne, hblock.offset_mod])]
  exact .answer h

/-- The blocks of a list after `x` was freed onto it, while it had `count` blocks: if it is full,
it is emptied before. -/
def pile (x count : Nat) (blocks : List Nat) : List Nat :=
  x :: if count < cacheCeiling then blocks else []

theorem mem_pile {y count : Nat} {blocks : List Nat} (hy : y ∈ pile x count blocks) :
    y = x ∨ y ∈ blocks := by
  rcases List.mem_cons.1 hy with heq | hmem
  · exact .inl heq
  · split at hmem
    · exact .inr hmem
    · cases hmem

/-- What a free comes to.  Only blocks of the list may have come home. -/
structure Frees (b : BlockHeap) (c : Category) (elsewhere rest : Set Nat) (lent x : Nat)
    (spans spans' : List Span) (b' : BlockHeap) : Prop where
  stocks : b'.Stocks c spans' elsewhere rest lent
  spares : b.Spares c elsewhere rest b'
  piles : blocksOf c spans' = pile x (b.cache.list c).count (blocksOf c spans)

theorem Frees.sub {spans' : List Span} (h : b.Frees c elsewhere rest lent x spans spans' b') :
    ∀ y ∈ blocksOf c spans', y = x ∨ y ∈ blocksOf c spans := by
  rw [h.piles]
  exact fun y hy => mem_pile hy

theorem Frees.closes {spans' : List Span} (h : b.Stocks c spans (insert x elsewhere) rest lent)
    (hblock : IsBlock b.paging.kernel.memory c x)
    (hfrees : b.Frees c elsewhere rest lent x spans spans' b') :
    Closes b.paging.kernel.memory c ({y | y ∈ blocksOf c spans} ∪ insert x elsewhere)
      b'.paging.kernel.memory ({y | y ∈ blocksOf c spans'} ∪ elsewhere) := by
  have hbefore : ∀ y ∈ {y | y ∈ blocksOf c spans} ∪ insert x elsewhere, y ∉ elsewhere →
      IsBlock b.paging.kernel.memory c y := by
    intro y hy hnot
    rcases hy with hy | hy
    · exact h.shaped hy
    · rcases Set.mem_insert_iff.1 hy with rfl | hy
      · exact hblock
      · exact absurd hy hnot
  refine ⟨fun y hy => ?_, fun y hy hnot => hbefore y hy fun hin => hnot (.inr hin),
    hfrees.spares.alike hbefore fun y hy hnot => hfrees.stocks.shaped (hy.resolve_right hnot)⟩
  rcases hy with hy | hy
  · rcases hfrees.sub y hy with rfl | hy
    · exact .inr (Set.mem_insert _ _)
    · exact .inl hy
  · exact .inr (Set.mem_insert_of_mem x hy)

/-- A block on top of a list that has room. -/
theorem Stocks.ensures_putBack (h : b.Stocks c spans (insert x elsewhere) rest lent)
    (hblock : IsBlock b.paging.kernel.memory c x) (hnew : x ∉ elsewhere)
    (hroom : (b.cache.list c).count < cacheCeiling) :
    Action.Ensures (push c x 1) b
      (fun _ b' => b.Frees c elsewhere rest lent x spans (⟨x, 1⟩ :: spans) b') Action.never := by
  have hblocks : (⟨x, 1⟩ : Span).blocks c = [x] := by simp [Span.blocks]
  have hused : insert x elsewhere = elsewhere ∪ {y | y ∈ (⟨x, 1⟩ : Span).blocks c} := by
    rw [hblocks, Set.insert_eq, Set.union_comm]
    simp
  rw [hused] at h
  have hrow : Row b.paging.kernel.memory c ⟨x, 1⟩ := by
    refine ⟨Nat.one_pos, fun y hy => ?_, fun y hy => ?_⟩
    · rw [hblocks, List.mem_singleton] at hy
      exact hy ▸ hblock
    · rw [hblocks, List.mem_singleton] at hy
      rw [hy]
  have hapart : ∀ y ∈ (⟨x, 1⟩ : Span).blocks c, y ∉ elsewhere := by
    intro y hy
    rw [hblocks, List.mem_singleton] at hy
    exact hy ▸ hnew
  apply (h.ensures_push hrow hapart hroom).weaken
  intro _ b' hpost
  refine ⟨hpost.1, hpost.2, ?_⟩
  rw [blocksOf_cons, hblocks, pile, if_pos hroom]
  rfl

theorem Stocks.ensures_free (h : b.Stocks c spans (insert x elsewhere) rest lent)
    (hblock : IsBlock b.paging.kernel.memory c x) (hnew : x ∉ elsewhere) :
    Action.Ensures (free x) b
      (fun _ b' => ∃ spans', b.Frees c elsewhere rest lent x spans spans' b') Action.never := by
  simp only [free, Action.ensures_bind, Action.ensures_within, ensures_list]
  apply ensures_blockCategory hblock
  rw [Action.ensures_onlyIf]
  split
  · rename_i hceiling
    have hfull : cacheCeiling ≤ (b.cache.list c).count := of_decide_eq_true hceiling
    apply h.ensures_flush.weaken
    intro _ b' hpost
    obtain ⟨hstocks, hspares⟩ := hpost
    have hblock' := hblock.of_reserved (Set.mem_insert x elsewhere) fun y hy =>
      hspares.keeps.byteAt y (.inl hy)
    have hroom : (b'.cache.list c).count < cacheCeiling := by
      rw [hstocks.holds.count_eq, blocksOf_nil, List.length_nil]
      decide
    apply (hstocks.ensures_putBack hblock' hnew hroom).weaken
    intro _ b'' hfrees
    refine ⟨_, hfrees.stocks, (hspares.mono (Set.subset_insert x elsewhere)).trans hfrees.spares,
      ?_⟩
    rw [hfrees.piles, pile, pile, if_neg (Nat.not_lt.2 hfull), blocksOf_nil, ite_self]
  · rename_i hroom
    have hlt : (b.cache.list c).count < cacheCeiling :=
      Nat.not_le.1 fun hle => hroom (decide_eq_true hle)
    apply (h.ensures_putBack hblock hnew hlt).weaken
    exact fun _ b' hfrees => ⟨_, hfrees⟩

end BlockHeap
end PagedHeap
