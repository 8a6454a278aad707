import PagedHeap.Proofs.Heap.Serving

/-!
# Demands

Most requests for memory differ only in how they are put: in the end the heap is asked to
reallocate, with a size and with options, and the answer is put into the form of the request.
So what holds of `reallocate` holds of all of them.

The other requests for memory bypass the policy for failures, or are refused before the heap is
asked.
-/

namespace PagedHeap
namespace HeapRequest

open Heap

/-- The request comes to a reallocation with a size and with options. -/
inductive Demands : HeapRequest → Nat → AllocOptions → Prop where
  | allocate {size : Nat} {opts : AllocOptions} : Demands (.allocate size opts) size opts
  | reallocate {pointer? : Option Nat} {size : Nat} {opts : AllocOptions} :
      Demands (.reallocate pointer? size opts) size opts
  | allocateLayout {l : Layout} {zeroed : Bool} :
      Demands (.allocateLayout l zeroed) (servedSize l.size) (l.options zeroed)
  | reallocateLayout {pointer? : Option Nat} {l : Layout} {size : Nat} :
      Demands (.reallocateLayout pointer? l size) (servedSize size) (l.options false)
  | resizeSlice {pointer? : Option Nat} {old new : Layout} :
      Demands (.resizeSlice pointer? old new) (servedSize new.size) (new.options false)
  | malloc {size : Nat} : Demands (.malloc size) (servedSize size) {}
  | calloc {count size total : Nat} (htotal : Word.mul? count size = some total) :
      Demands (.calloc count size) (servedSize total) { zero := true }
  | reallocNone {size : Nat} : Demands (.realloc none size) (servedSize size) {}
  | reallocSome {address size : Nat} : Demands (.realloc (some address) size) size {}
  | alignedAlloc {align size : Nat} :
      Demands (.alignedAlloc align size) (servedSize size) { align := align }
  | posixMemalign {align size : Nat} (hpower : Word.isPowerOfTwo align = true)
      (hle : pointerSize ≤ align) :
      Demands (.posixMemalign align size) (servedSize size) { align := align }

/-- The answer to a demand, in the form of the request. -/
def render (r : HeapRequest) (got? : Option Nat) : Answer :=
  match r with
  | .resizeSlice _ _ new => .slice (got?.map fun address => ⟨address, new.size⟩)
  | .posixMemalign _ _ =>
      .aligned (match got? with
        | none => ⟨ErrorNumber.noMemory.code, none⟩
        | some address => ⟨0, some address⟩)
  | _ => .pointer got?

/-- How many bytes the client asks for. -/
def requested : HeapRequest → Nat
  | .allocate size _ | .reallocate _ size _ | .reallocateLayout _ _ size | .malloc size
  | .realloc _ size | .alignedAlloc _ size | .posixMemalign _ size => size
  | .tryAllocateLayout l | .allocateLayout l _ | .allocateSlice l _ => l.size
  | .resizeSlice _ _ new | .growSliceZeroed _ _ new => new.size
  | .calloc count size => count * size
  | .reclaim _ | .reclaimSized _ _ | .allocatedSize _ | .trim _ | .trimPages _ | .flushOwn
  | .flushFallback | .deallocateLayout _ _ | .deallocateSlice _ _ => 0

variable {r : HeapRequest} {size : Nat} {opts : AllocOptions}

theorem granted?_render (r : HeapRequest) (got? : Option Nat) :
    (r.render got?).granted? = got? := by
  cases r with
  | resizeSlice pointer? old new => cases got? <;> rfl
  | posixMemalign align width => cases got? <;> rfl
  | _ => rfl

theorem Demands.requested_le (hdemands : r.Demands size opts) : r.requested ≤ size := by
  cases hdemands with
  | allocate => exact Nat.le_refl _
  | reallocate => exact Nat.le_refl _
  | calloc htotal =>
      obtain ⟨htotal, -⟩ := Word.mul?_eq_some_iff.1 htotal
      exact htotal.trans_le (le_servedSize _)
  | reallocSome => exact Nat.le_refl _
  | _ => exact le_servedSize _

end HeapRequest

namespace Heap

open HeapRequest

variable {h h' : Heap} {spans : Place → Category → List Span} {live foreign : Set Nat}
  {t size : Nat} {opts : AllocOptions} {r : HeapRequest} {passed? : Option Nat}

theorem posixMemalign_eq {align : Nat} (hpower : Word.isPowerOfTwo align = true)
    (hle : pointerSize ≤ align) :
    serve t (.posixMemalign align size) =
      render (.posixMemalign align size) <$> allocate t (servedSize size) { align := align } := by
  have hvalid : (!Word.isPowerOfTwo align || decide (align < pointerSize)) = false := by
    simp [hpower, hle]
  simp only [serve, posixMemalign, hvalid, Bool.false_eq_true, if_false, alignedAlloc,
    map_eq_pure_bind, bind_assoc]
  congr 1
  funext got?
  cases got? <;> rfl

theorem serve_eq_reallocate (hdemands : r.Demands size opts) :
    serve t r = r.render <$> reallocate t r.passed? size opts := by
  cases hdemands with
  | resizeSlice =>
      simp only [serve, resizeSlice, map_eq_pure_bind, bind_assoc]
      congr 1
      funext got?
      cases got? <;> rfl
  | calloc htotal =>
      simp only [serve, calloc, htotal]
      rfl
  | posixMemalign hpower hle => exact posixMemalign_eq hpower hle
  | _ => rfl

/-- A pointer that was granted is that of an allocation of `size` bytes or more. -/
def GrantsAtLeast (size : Nat) (a : Answer) (h : Heap) : Prop :=
  ∀ x, a.granted? = some x → ∃ n, size ≤ n ∧ h.Occupies x n

theorem grantsAtLeast_of_none {a : Answer} (hnone : a.granted? = none) (size : Nat) (h : Heap) :
    GrantsAtLeast size a h := by
  intro x hgranted
  rw [hnone] at hgranted
  cases hgranted

theorem Provides.grantsAtLeast {got? : Option Nat} {n : Nat}
    (hprovides : h.Provides spans live foreign passed? size got? h') (hle : n ≤ size) :
    GrantsAtLeast n (.pointer got?) h' := by
  intro x hgranted
  obtain rfl : got? = some x := hgranted
  obtain ⟨-, -, m, spans', hsize, hm, -⟩ := hprovides
  exact ⟨m, hle.trans hsize, hm⟩

/-- What a demand for memory gets is as large as was demanded. -/
theorem Sound.ensures_demanded (hsound : h.Sound spans live foreign) (t : Nat)
    (hpassed : ∀ x, passed? = some x → x ∈ live) (size : Nat) (opts : AllocOptions) :
    Action.Ensures (reallocate t passed? size opts) h
      (fun got? h' => GrantsAtLeast size (.pointer got?) h') (fun _ _ => True) := by
  rcases Nat.eq_zero_or_pos size with rfl | hpos
  · cases passed? with
    | none =>
        apply (hsound.ensures_allocate t 0 opts).answers
        exact fun got? h' hallocates => hallocates.provides.grantsAtLeast (Nat.le_refl 0)
    | some address =>
        apply (hsound.ensures_reallocate_zero t (hpassed address rfl) opts).answers
        intro got? h' hpost
        obtain rfl := hpost.1
        exact grantsAtLeast_of_none rfl 0 h'
  · apply (hsound.ensures_provide t hpassed hpos opts).answers
    exact fun got? h' hprovides => hprovides.grantsAtLeast (Nat.le_refl size)

theorem Sound.ensures_demands (hsound : h.Sound spans live foreign) (t : Nat)
    (hpassed : ∀ x, r.passed? = some x → x ∈ live) (hdemands : r.Demands size opts) :
    Action.Ensures (serve t r) h (GrantsAtLeast r.requested) (fun _ _ => True) := by
  rw [serve_eq_reallocate hdemands, Action.ensures_map]
  apply (hsound.ensures_demanded t hpassed size opts).answers
  intro got? h' hpost x hgranted
  rw [granted?_render] at hgranted
  obtain ⟨n, hsize, hn⟩ := hpost x hgranted
  exact ⟨n, hdemands.requested_le.trans hsize, hn⟩

theorem ensures_grantsNothing {α : Type} {action : Action Heap α} {f : α → Answer} {h : Heap}
    (hnone : ∀ a, (f a).granted? = none) (size : Nat) :
    Action.Ensures (f <$> action) h (GrantsAtLeast size) (fun _ _ => True) := by
  rw [Action.ensures_map]
  exact .of_all (fun a h' => grantsAtLeast_of_none (hnone a) size h') fun _ _ => trivial

/-- What an attempt gets is as large as was tried for. -/
theorem Sound.ensures_tried (hsound : h.Sound spans live foreign) (t size : Nat)
    (opts : AllocOptions) :
    Action.Ensures (tryAllocate t (servedSize size) opts) h
      (fun result h' => GrantsAtLeast size (.pointer result.toOption.join) h')
      (fun _ _ => True) := by
  apply (hsound.ensures_tryAllocate t (servedSize size) opts).answers
  intro result h' htries
  cases result with
  | error error => exact grantsAtLeast_of_none rfl size h'
  | ok got? =>
      have hallocates : h.Allocates spans live foreign _ _ got? h' := htries
      exact hallocates.provides.grantsAtLeast (le_servedSize size)

/-- What a client gets is as large as it asked for. -/
theorem Sound.ensures_requested (hsound : h.Sound spans live foreign) (t : Nat) (r : HeapRequest)
    (hpassed : ∀ x, r.passed? = some x → x ∈ live) :
    Action.Ensures (serve t r) h (GrantsAtLeast r.requested) (fun _ _ => True) := by
  cases r with
  | allocate size opts => exact hsound.ensures_demands t hpassed .allocate
  | reallocate pointer? size opts => exact hsound.ensures_demands t hpassed .reallocate
  | allocateLayout l zeroed => exact hsound.ensures_demands t hpassed .allocateLayout
  | reallocateLayout pointer? l size => exact hsound.ensures_demands t hpassed .reallocateLayout
  | resizeSlice pointer? old new => exact hsound.ensures_demands t hpassed .resizeSlice
  | malloc size => exact hsound.ensures_demands t hpassed .malloc
  | realloc pointer? size =>
      cases pointer? with
      | none => exact hsound.ensures_demands t hpassed .reallocNone
      | some address => exact hsound.ensures_demands t hpassed .reallocSome
  | alignedAlloc align size => exact hsound.ensures_demands t hpassed .alignedAlloc
  | calloc count size =>
      cases htotal : Word.mul? count size with
      | some total => exact hsound.ensures_demands t hpassed (.calloc htotal)
      | none =>
          simp only [serve, calloc, htotal, Action.ensures_map, Action.ensures_bind,
            ensures_setErrorNumber]
          exact .answer (grantsAtLeast_of_none rfl _ _)
  | posixMemalign align size =>
      by_cases hvalid : Word.isPowerOfTwo align = true ∧ pointerSize ≤ align
      · exact hsound.ensures_demands t hpassed (.posixMemalign hvalid.1 hvalid.2)
      · have hinvalid : (!Word.isPowerOfTwo align || decide (align < pointerSize)) = true := by
          rw [Bool.or_eq_true, Bool.not_eq_true', decide_eq_true_eq]
          by_contra hnot
          simp only [not_or, Bool.not_eq_false, Nat.not_lt] at hnot
          exact hvalid hnot
        simp only [serve, posixMemalign, hinvalid, if_true, Action.ensures_map]
        exact .answer (grantsAtLeast_of_none rfl _ _)
  | growSliceZeroed pointer? old new =>
      rw [serve, Action.ensures_map]
      apply (hsound.ensures_growSliceZeroed t hpassed old new).answers
      exact fun slice? h' hprovides => hprovides.grantsAtLeast (le_servedSize new.size)
  | tryAllocateLayout l =>
      rw [serve, Action.ensures_map, tryAllocateLayout, Action.ensures_bind]
      apply (hsound.ensures_tried t l.size (l.options false)).answers
      intro result h' hgrants
      cases result with
      | error error => exact .answer hgrants
      | ok got? => cases got? <;> exact .answer hgrants
  | allocateSlice l zeroed =>
      rw [serve, Action.ensures_map, allocateSlice, Action.ensures_bind]
      apply (hsound.ensures_tried t l.size (l.options zeroed)).answers
      intro result h' hgrants
      cases result with
      | error error => exact .answer hgrants
      | ok got? => cases got? <;> exact .answer hgrants
  | _ => exact ensures_grantsNothing (fun _ => rfl) _

end Heap
end PagedHeap
