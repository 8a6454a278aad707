import PagedHeap.Page.Supplier
import PagedHeap.Proofs.Mirrored

/-!
# Suppliers without huge pages

Whether a supplier is configured for huge pages makes a difference for requests of whole huge
pages only.  Everything else that it does is blind for it: the same kernel calls, the same
counters, the same answers.
-/

namespace PagedHeap

/-- Whole huge pages are not asked for, if anything is. -/
def NotHuge (asked? : Option Nat) : Prop := ∀ n, asked? = some n → n % hugePageSize ≠ 0

/-- The supplier, configured without huge pages. -/
def PageSupplier.plain (s : PageSupplier) : PageSupplier :=
  { s with config := { s.config with hugePages := false } }

namespace Paging

open PagedHeap.Action

/-- The supplier at work, configured without huge pages. -/
def plain (p : Paging) : Paging := { p with supplier := p.supplier.plain }

/-! ## Parts -/

theorem blind_call {α : Type} (step : Kernel → α × Kernel) : Blind plain (call step) :=
  blind_within _ (fun _ => rfl) fun _ _ => rfl

theorem blind_onCache {α : Type} (action : Action RangeCache α) : Blind plain (onCache action) :=
  blind_within _ (fun _ => rfl) fun _ _ => rfl

theorem blind_update {f : PageSupplier → PageSupplier}
    (hf : ∀ s : PageSupplier, f s.plain = (f s).plain) : Blind plain (update f) :=
  blind_modify fun p => congrArg (fun s => (⟨p.kernel, s⟩ : Paging)) (hf p.supplier)

theorem blind_zero (address len : Nat) : Blind plain (zero address len) := blind_call _

theorem blind_countLive (size : Nat) : Blind plain (countLive size) := blind_update fun _ => rfl

theorem blind_countReturned (size : Nat) : Blind plain (countReturned size) :=
  blind_update fun _ => rfl

theorem blind_countMap : Blind plain countMap := blind_update fun _ => rfl

theorem blind_countUnmap : Blind plain countUnmap := blind_update fun _ => rfl

theorem blind_recordRaised (start stop : Nat) : Blind plain (recordRaised start stop) :=
  blind_update fun _ => rfl

theorem blind_setStop (stop : Nat) :
    Blind plain (update fun s => { s with region := { s.region with stop := stop } }) :=
  blind_update fun _ => rfl

theorem blind_map (hint len : Nat) : Blind plain (map hint len) := blind_call _

theorem blind_unmap (address len : Nat) : Blind plain (unmap address len) := blind_call _

theorem blind_advise (address len : Nat) (advice : Advice) :
    Blind plain (advise address len advice) := blind_call _

theorem blind_moveBreak (delta : Int) : Blind plain (moveBreak delta) := blind_call _

theorem blind_programBreak : Blind plain programBreak :=
  blind_get_bind (fun _ => rfl) fun _ => blind_pure _

/-! ## Fresh memory -/

theorem blind_raiseBreak (pad size total : Nat) : Blind plain (raiseBreak pad size total) := by
  refine (blind_moveBreak _).bind fun old? => ?_
  cases old? with
  | none => exact blind_pure none
  | some old =>
      refine (blind_checked _).bind fun start => ?_
      cases Word.add? start size with
      | none => exact (blind_moveBreak _).bind fun _ => blind_pure none
      | some stop => exact (blind_recordRaised start stop).bind fun _ => blind_pure _

theorem blind_growBreak (size : Nat) : Blind plain (growBreak size) := by
  refine blind_programBreak.bind fun current => Blind.ite (blind_pure none) ?_
  refine (blind_checked _).bind fun aligned => ?_
  cases Word.add? size (aligned - current) with
  | none => exact blind_pure none
  | some total => exact Blind.ite (blind_pure none) (blind_raiseBreak _ _ _)

theorem wantsHuge_eq_false {size : Nat} (hsize : size % hugePageSize ≠ 0) (s : PageSupplier) :
    s.wantsHuge size = false := by
  rw [PageSupplier.wantsHuge, Bool.and_eq_false_iff]
  exact .inr (beq_eq_false_iff_ne.2 hsize)

/-- A request that is not for whole huge pages is not placed on their boundaries. -/
theorem blind_mapFresh {size : Nat} (hsize : size % hugePageSize ≠ 0) :
    Blind plain (mapFresh size) := by
  refine blind_get_bind (fun p => ?_) fun p => ?_
  · rw [wantsHuge_eq_false hsize, wantsHuge_eq_false hsize]
  · rw [wantsHuge_eq_false hsize]
    exact blind_map 0 size

theorem blind_tryBreak {size : Nat} (hsize : size % hugePageSize ≠ 0) :
    Blind plain (tryBreak size) := by
  refine blind_get_bind (fun p => ?_) fun p => ?_
  · simp only [wantsHuge_eq_false hsize]
    rfl
  · simp only [wantsHuge_eq_false hsize]
    exact Blind.ite (blind_growBreak size) (blind_pure none)

theorem blind_obtain {size : Nat} (hsize : size % hugePageSize ≠ 0) :
    Blind plain (obtain size) := by
  refine (blind_tryBreak hsize).bind fun got? => ?_
  cases got? with
  | some address => exact blind_pure _
  | none => exact blind_mapFresh hsize

theorem blind_handOut (range : Range) : Blind plain (handOut range) :=
  ((blind_zero _ _).onlyIf _).bind fun _ => blind_countLive _

/-- Pages are handed out as if there were no huge pages, unless whole huge pages are asked for. -/
theorem blind_allocate {size : Nat} (hsize : size % hugePageSize ≠ 0) :
    Blind plain (allocate size) := by
  refine (blind_require _ _).bind fun _ => (blind_onCache _).bind fun range? => ?_
  cases range? with
  | some range => exact (blind_handOut range).bind fun _ => blind_pure _
  | none =>
      refine (blind_obtain hsize).bind fun got? => ?_
      cases got? with
      | none => exact blind_pure none
      | some address =>
          exact blind_countMap.bind fun _ => (blind_countLive size).bind fun _ => blind_pure _

/-! ## Giving back -/

theorem blind_dropBreak (r : Range) : Blind plain (dropBreak r) := by
  refine (blind_moveBreak _).bind fun old? => ?_
  cases old? with
  | none => exact blind_pure false
  | some old => exact (blind_setStop _).bind fun _ => blind_pure true

theorem blind_lowerBreakOver (r : Range) : Blind plain (lowerBreakOver r) := by
  refine Blind.ite ((blind_checked _).bind fun stop => ?_) (blind_pure false)
  refine blind_get_bind (fun _ => rfl) fun p => blind_programBreak.bind fun current => ?_
  exact Blind.ite (blind_dropBreak r) (blind_pure false)

theorem blind_shrinkBreak (ranges : List Range) : Blind plain (shrinkBreak ranges) := by
  induction ranges with
  | nil => exact blind_pure []
  | cons r rest ih =>
      refine (blind_lowerBreakOver r).bind fun lowered => Blind.ite ih ?_
      exact ih.bind fun remaining => blind_pure _

theorem blind_release (r : Range) : Blind plain (release r) :=
  (Blind.ite (blind_advise _ _ _) (blind_unmap _ _)).bind fun _ => blind_countUnmap

theorem blind_releaseAll (ranges : List Range) : Blind plain (releaseAll ranges) := by
  induction ranges with
  | nil => exact blind_pure ()
  | cons r rest ih => exact (blind_release r).bind fun _ => ih

theorem blind_reclaim (address size : Nat) (opts : ReclaimOptions) :
    Blind plain (reclaim address size opts) := by
  refine (blind_require _ _).bind fun _ => (blind_countReturned size).bind fun _ => ?_
  refine ((blind_advise _ _ _).onlyIf _).bind fun _ => blind_get_bind (fun _ => rfl) fun p => ?_
  refine (blind_onCache _).bind fun evicted => (blind_shrinkBreak evicted).bind fun remaining => ?_
  exact blind_releaseAll remaining

theorem blind_trim (pad : Nat) : Blind plain (trim pad) := by
  refine (blind_onCache _).bind fun evicted => (blind_shrinkBreak evicted).bind fun remaining => ?_
  exact (blind_releaseAll remaining).bind fun _ => blind_pure _

/-! ## Growing in place -/

theorem blind_extendBreak (tail delta : Nat) : Blind plain (extendBreak tail delta) := by
  unfold extendBreak
  cases Word.add? tail delta with
  | none => exact blind_pure false
  | some stop =>
      refine blind_get_bind (fun _ => rfl) fun p => blind_programBreak.bind fun current => ?_
      refine Blind.ite ((blind_moveBreak _).bind fun old? => ?_) (blind_pure false)
      cases old? with
      | none => exact blind_pure false
      | some old =>
          exact (blind_setStop stop).bind fun _ =>
            (blind_countLive delta).bind fun _ => blind_pure true

theorem blind_mapExact (address len : Nat) : Blind plain (mapExact address len) := by
  refine (blind_call _).bind fun got? => ?_
  cases got? with
  | none => exact blind_pure false
  | some got =>
      exact Blind.ite (blind_pure true) ((blind_unmap _ _).bind fun _ => blind_pure false)

theorem blind_extendMapping (address old new tail delta : Nat) :
    Blind plain (extendMapping address old new tail delta) := by
  have hgrow : Blind plain (growMapping address old new tail delta) :=
    (blind_call _).bind fun _ => Blind.ite (blind_pure true) (blind_mapExact _ _)
  have hcount : Blind plain (do countMap; countLive delta) :=
    blind_countMap.bind fun _ => blind_countLive delta
  exact hgrow.bind fun grown => (hcount.onlyIf grown).bind fun _ => blind_pure grown

theorem blind_extendInPlace (address old new : Nat) :
    Blind plain (extendInPlace address old new) := by
  refine Blind.ite (blind_pure true) ((blind_checked _).bind fun tail => ?_)
  refine (blind_onCache _).bind fun range? => ?_
  cases range? with
  | some range => exact (blind_handOut range).bind fun _ => blind_pure true
  | none =>
      refine blind_get_bind (fun _ => rfl) fun p => ?_
      exact Blind.ite (blind_extendBreak _ _) (blind_extendMapping _ _ _ _ _)

end Paging
end PagedHeap
