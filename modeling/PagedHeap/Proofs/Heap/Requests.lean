import PagedHeap.Proofs.Heap.Blocks
import PagedHeap.Proofs.Heap.Large
import PagedHeap.Proofs.Heap.Routing

/-!
# Allocating and freeing

A request goes along its route, to the blocks or to the large allocations, and what comes back
has the size and the alignment asked for.  Where there is no memory the client is told so, or the
process ends if it was built to.
-/

namespace PagedHeap
namespace Heap

open SizeTable

variable {h h' h'' : Heap} {spans spans' : Place → Category → List Span} {live foreign : Set Nat}
  {c : Category} {t x n size : Nat} {opts : AllocOptions} {ends : Ending → Heap → Prop}

/-! ## Running out of memory -/

/-- Running out of memory ends the process if it was built to. -/
def OutEnds (h : Heap) (e : Ending) : Prop :=
  h.build.neverFails = true ∧ ∃ size, e = .outOfMemory size

/-- A request ends the process because a lock is held or memory has run out. -/
def Ends (h : Heap) (e : Ending) : Prop := h.LockEnds e ∨ h.OutEnds e

theorem Ends.of_rules {e : Ending} (hrules : h.SameRules h') (hends : h'.Ends e) : h.Ends e := by
  rwa [Ends, LockEnds, OutEnds, hrules.build, hrules.held] at hends

theorem notes_log (h : Heap) (r : LogRecord) : h.Notes { h with log := r :: h.log } := by
  refine ⟨⟨rfl, rfl, rfl, fun place => ?_⟩, fun _ hready => hready, ⟨rfl, rfl⟩⟩
  cases place with
  | fallback => rfl
  | thread u => rfl

theorem notes_errorNumber (h : Heap) (number : ErrorNumber) :
    h.Notes { h with errorNumber? := some number } := by
  refine ⟨⟨rfl, rfl, rfl, fun place => ?_⟩, fun _ hready => hready, ⟨rfl, rfl⟩⟩
  cases place with
  | fallback => rfl
  | thread u => rfl

@[simp] theorem ensures_logRecord {r : LogRecord} {post : Unit → Heap → Prop} :
    Action.Ensures (logRecord r) h post ends ↔ post () { h with log := r :: h.log } :=
  Action.ensures_iff

@[simp] theorem ensures_setErrorNumber {number : ErrorNumber} {post : Unit → Heap → Prop} :
    Action.Ensures (setErrorNumber number) h post ends ↔
      post () { h with errorNumber? := some number } :=
  Action.ensures_iff

theorem ensures_reportFailure (h : Heap) (error : AllocError) (number : ErrorNumber) :
    Action.Ensures (reportFailure error number) h (fun a h' => a = none ∧ h.Notes h') ends := by
  simp only [reportFailure, Action.ensures_bind, ensures_logRecord, ensures_setErrorNumber]
  exact .answer ⟨rfl, (notes_log h _).trans (notes_errorNumber _ number)⟩

theorem ensures_fail (h : Heap) (error : AllocError) :
    Action.Ensures (fail error) h (fun a h' => a = none ∧ h.Notes h') (fun e _ => h.OutEnds e) := by
  cases error with
  | outOfMemory size =>
      simp only [fail, Action.ensures_bind, Action.ensures_get, Action.ensures_ite]
      split
      · simp only [onKernel, Action.ensures_within, Kernel.ensures_abort]
        exact ⟨‹h.build.neverFails = true›, size, rfl⟩
      · exact ensures_reportFailure h _ _
  | invalidAlignment align => exact ensures_reportFailure h _ _

/-! ## Allocating -/

/-- An allocation of `n` bytes at `x` is what was asked for. -/
structure Meets (h : Heap) (size : Nat) (opts : AllocOptions) (x n : Nat) : Prop where
  sized : opts.Yields size n
  admits : opts.Admits x
  zero : opts.zero = true → ∀ y ∈ bytesAt x n, h.kernel.memory.byteAt y = 0

theorem Meets.size_le (hmeets : h.Meets size opts x n) : size ≤ n := hmeets.sized.size_le

/-- What an allocation comes to. -/
def Allocates (h : Heap) (spans : Place → Category → List Span) (live foreign : Set Nat)
    (size : Nat) (opts : AllocOptions) : Option Nat → Heap → Prop
  | none, h' => h.Rests spans live foreign h'
  | some x, h' => ∃ n spans', h.Grants spans live foreign x n h' spans' ∧ h'.Meets size opts x n ∧
      ∀ c, IsBlock h'.kernel.memory c x → route size opts = .ok (some (.small c))

theorem Sound.ensures_small (hsound : h.Sound spans live foreign) (t : Nat)
    (hroute : route size opts = .ok (some (.small c))) :
    Action.Ensures (allocateBlock t c opts.zero) h (h.Allocates spans live foreign size opts)
      (fun e _ => h.LockEnds e) := by
  obtain ⟨hsized, hadmits⟩ := route_small hroute
  apply (hsound.ensures_allocateBlock t c opts.zero).imp
  intro x? h' hpost
  obtain ⟨hgives, hzeroed⟩ := hpost
  cases x? with
  | none => exact hgives
  | some x =>
      obtain ⟨spans', hgrants, hblock⟩ := hgives
      refine ⟨c.blockSize, spans', hgrants, ⟨hsized, hadmits _ x hblock, hzeroed⟩,
        fun d hblock' => ?_⟩
      rw [hblock'.category_eq hblock rfl]
      exact hroute

theorem Sound.ensures_large {rounded align : Nat} (hsound : h.Sound spans live foreign)
    (hroute : route size opts = .ok (some (.large rounded align))) :
    Action.Ensures (onLarge (LargeHeap.allocate rounded align)) h
      (h.Allocates spans live foreign size opts) Action.never := by
  obtain ⟨hpos, hle, rfl, halign, hyields⟩ := route_large hroute
  rw [onLarge, Action.ensures_within]
  show Action.Ensures _ h.largeHeap _ _
  apply (hsound.large.ensures_allocate (Nat.lt_of_lt_of_le hpos hle) halign).weaken
  intro x? l hallocates
  cases x? with
  | none => exact rests_large hallocates
  | some x =>
      obtain ⟨n, hceil, hplaces, hmod, hzero⟩ := hallocates
      have hgrants := hsound.grants_large hplaces
      refine ⟨n, spans, hgrants, ⟨hyields n hceil,
        AllocOptions.admits_of_dvd (Nat.dvd_of_mod_eq_zero hmod), fun _ => hzero⟩,
        fun c hblock => absurd ?_ hblock.offset_ne⟩
      exact hplaces.sound.spread.page_mod x n hplaces.get?_eq

theorem Sound.ensures_follow {target : Route} (hsound : h.Sound spans live foreign) (t : Nat)
    (hroute : route size opts = .ok (some target)) :
    Action.Ensures (follow t opts.zero target) h (h.Allocates spans live foreign size opts)
      (fun e _ => h.LockEnds e) := by
  cases target with
  | small c => exact hsound.ensures_small t hroute
  | large rounded align => exact (hsound.ensures_large hroute).weaken fun _ _ hpost => hpost

/-- What an allocation that only reports its failure comes to. -/
def Tries (h : Heap) (spans : Place → Category → List Span) (live foreign : Set Nat)
    (size : Nat) (opts : AllocOptions) : Except AllocError (Option Nat) → Heap → Prop
  | .ok x?, h' => h.Allocates spans live foreign size opts x? h'
  | .error _, h' => h.Rests spans live foreign h'

theorem Sound.ensures_tryAllocate (hsound : h.Sound spans live foreign) (t size : Nat)
    (opts : AllocOptions) :
    Action.Ensures (tryAllocate t size opts) h (h.Tries spans live foreign size opts)
      (fun e _ => h.LockEnds e) := by
  unfold tryAllocate
  cases hroute : route size opts with
  | error error => exact .answer hsound.rests_self
  | ok target? =>
      cases target? with
      | none => exact .answer hsound.rests_self
      | some target =>
          rw [Action.ensures_bind]
          apply (hsound.ensures_follow t hroute).imp
          intro x? h' hallocates
          cases x? with
          | none => exact .answer hallocates
          | some x => exact .answer hallocates

theorem Sound.ensures_allocate (hsound : h.Sound spans live foreign) (t size : Nat)
    (opts : AllocOptions) :
    Action.Ensures (allocate t size opts) h (h.Allocates spans live foreign size opts)
      (fun e _ => h.Ends e) := by
  rw [allocate, Action.ensures_bind]
  apply (hsound.ensures_tryAllocate t size opts).mono
  · intro result h₁ htries
    cases result with
    | ok x? => exact .answer htries
    | error error =>
        apply (ensures_fail h₁ error).mono
        · intro x? h' hpost
          obtain ⟨rfl, hnotes⟩ := hpost
          exact htries.notes hnotes
        · intro e _ hends
          exact Ends.of_rules htries.rules (.inr hends)
  · exact fun _ _ hends => .inl hends

/-! ## Freeing -/

/-- A claim to free more than is allocated ends the process. -/
def ClaimEnds (h : Heap) (x n size : Nat) (e : Ending) : Prop :=
  h.LockEnds e ∨ n < size ∧ e = .corrupted (.sizeMismatch x size n)

theorem Sound.ensures_freeLarge (hsound : h.Sound spans live foreign)
    (hoffset : pageOffset x = 0) (hsize : h.table.get? x = some n) (claimed : Option Nat) :
    Action.Ensures (onLarge (LargeHeap.free x claimed)) h
      (fun _ h' => ∃ spans', h.Releases spans live foreign x h' spans')
      (fun e _ => LargeHeap.ClaimsMore x n claimed e) := by
  rw [onLarge, Action.ensures_within]
  show Action.Ensures _ h.largeHeap _ _
  exact (hsound.large.ensures_free hsize claimed).imp
    fun _ l hfrees => ⟨spans, hsound.releases_large hoffset hfrees⟩

theorem Sound.ensures_reclaimBlock (hsound : h.Sound spans live foreign) (t : Nat) (hx : x ∈ live)
    (hblock : IsBlock h.kernel.memory c x) :
    Action.Ensures (reclaim t (some x)) h (fun _ h' => h.FiledBy spans live foreign t c x h')
      (fun e _ => h.LockEnds e) := by
  have hsmall := isBlock_eq_true hblock.offset_ne
  simp only [reclaim, hsmall, if_true]
  exact hsound.ensures_freeBlock t hx hblock

theorem Sound.ensures_reclaim (hsound : h.Sound spans live foreign) (t : Nat) (hx : x ∈ live) :
    Action.Ensures (reclaim t (some x)) h
      (fun _ h' => ∃ spans', h.Releases spans live foreign x h' spans')
      (fun e _ => h.LockEnds e) := by
  obtain ⟨n, -, hn⟩ := hsound.occupies hx
  rcases hn with ⟨hoffset, hsize⟩ | ⟨c, hblock, -⟩
  · have hlarge := isBlock_eq_false hoffset
    simp only [reclaim, hlarge, Bool.false_eq_true, if_false]
    apply (hsound.ensures_freeLarge hoffset hsize none).mono
    · exact fun _ _ hpost => hpost
    · intro e _ hclaims
      obtain ⟨given, hclaimed, -⟩ := hclaims
      exact absurd hclaimed (by simp)
  · exact (hsound.ensures_reclaimBlock t hx hblock).imp fun _ _ hfiled => hfiled.releases

theorem Sound.ensures_reclaimSizedBlock (hsound : h.Sound spans live foreign) (t size : Nat)
    (hx : x ∈ live) (hblock : IsBlock h.kernel.memory c x) :
    Action.Ensures (reclaimSized t (some x) size) h
      (fun _ h' => h.FiledBy spans live foreign t c x h')
      (fun e _ => h.ClaimEnds x c.blockSize size e) := by
  have hsmall := isBlock_eq_true hblock.offset_ne
  simp only [reclaimSized, hsmall, if_true, onKernel, Kernel.blockSize, Action.ensures_bind,
    Action.ensures_within, Action.ensures_onlyIf, Action.ensures_pure]
  apply BlockHeap.ensures_blockCategory hblock
  split
  · rename_i hclaims
    simp only [corrupted, Action.ensures_within, Kernel.ensures_corrupted]
    exact .inr ⟨by simpa using hclaims, rfl⟩
  · apply (hsound.ensures_freeBlock t hx hblock).mono
    · exact fun _ _ hpost => hpost
    · exact fun _ _ hends => .inl hends

/-- A free by size is a free, unless the client claims more than it has. -/
theorem Sound.ensures_reclaimSized (hsound : h.Sound spans live foreign) (t size : Nat)
    (hx : x ∈ live) (hn : h.Occupies x n) :
    Action.Ensures (reclaimSized t (some x) size) h
      (fun _ h' => ∃ spans', h.Releases spans live foreign x h' spans')
      (fun e _ => h.ClaimEnds x n size e) := by
  rcases hn with ⟨hoffset, hsize⟩ | ⟨c, hblock, rfl⟩
  · have hlarge := isBlock_eq_false hoffset
    simp only [reclaimSized, hlarge, Bool.false_eq_true, if_false]
    apply (hsound.ensures_freeLarge hoffset hsize (some size)).mono
    · exact fun _ _ hpost => hpost
    · intro e _ hclaims
      obtain ⟨given, hclaimed, hlt, hends⟩ := hclaims
      obtain rfl := Option.some.inj hclaimed
      exact .inr ⟨hlt, hends⟩
  · exact (hsound.ensures_reclaimSizedBlock t size hx hblock).imp
      fun _ _ hfiled => hfiled.releases

/-! ## Trimming -/

theorem Sound.ensures_trimPages (hsound : h.Sound spans live foreign) (pad : Nat) :
    Action.Ensures (trimPages pad) h (fun _ h' => h.Steady spans live foreign h' spans)
      Action.never := by
  rw [trimPages, onLarge, Action.ensures_within]
  show Action.Ensures _ h.largeHeap _ _
  apply (hsound.large.ensures_trim pad).weaken
  exact fun _ l hrests => (rests_large hrests).steady hsound

/-- The caches that a thread can reach are flushed. -/
theorem Sound.ensures_flushes (hsound : h.Sound spans live foreign) (t : Nat) :
    Action.Ensures (do flushOwn t; flushFallback) h
      (fun _ h' => ∃ spans', h.Steady spans live foreign h' spans') (fun e _ => h.LockEnds e) := by
  rw [Action.ensures_bind]
  apply (hsound.ensures_flushOwn t).weaken
  intro _ h₁ hpost
  obtain ⟨spans₁, hsteady₁, -⟩ := hpost
  apply hsteady₁.sound.ensures_flushFallback.mono
  · exact fun _ h₂ hsteady₂ => ⟨_, hsteady₁.trans hsteady₂⟩
  · intro e _ hends
    rwa [LockEnds, hsteady₁.rules.build, hsteady₁.rules.held] at hends

/-- A trim is a flush of both caches and a trim of the supplier. -/
theorem trim_eq (t pad : Nat) : trim t pad = (do flushOwn t; flushFallback) >>= fun _ => do
    let released ← trimPages pad
    logRecord (.trimmed released)
    return decide (0 < released) :=
  (bind_assoc (flushOwn t) _ _).symm

theorem Sound.ensures_trim (hsound : h.Sound spans live foreign) (t pad : Nat) :
    Action.Ensures (trim t pad) h (fun _ h' => ∃ spans', h.Steady spans live foreign h' spans')
      (fun e _ => h.LockEnds e) := by
  rw [trim_eq, Action.ensures_bind]
  apply (hsound.ensures_flushes t).imp
  intro _ h₁ hpost
  obtain ⟨spans₁, hsteady₁⟩ := hpost
  simp only [Action.ensures_bind, ensures_logRecord]
  apply (hsteady₁.sound.ensures_trimPages pad).weaken
  intro released h₂ hsteady₂
  exact .answer ⟨_, (hsteady₁.trans hsteady₂).notes (notes_log h₂ _)⟩

end Heap
end PagedHeap
