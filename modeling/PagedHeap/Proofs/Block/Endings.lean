import PagedHeap.Block.Heap
import PagedHeap.Proofs.Confined

/-!
# Who is to blame

Before a block is freed its pointer is checked, and a pointer that fails the check ends the
process.  Behind the check there is no such ending, whatever the state: handing back pages fails
no check but those that the supplier makes of itself, and giving blocks back to their runs may
find a counter too low or a list without an end, but finds no fault with any pointer.
-/

namespace PagedHeap

namespace Ending

/-- The process ended because of a pointer that it was given. -/
def blamesPointer : Ending → Bool
  | corrupted (.badCategory _ _) | corrupted (.misalignedBlock _ _)
  | corrupted (.sizeMismatch _ _ _) | corrupted (.unknownLargePointer _) => true
  | corrupted (.counterUnderflow _) | corrupted .reentrantLock
  | outOfMemory _ | violated _ | stalled => false

/-- No pointer is to blame. -/
def Blameless (e : Ending) : Prop := e.blamesPointer = false

theorem blameless_violated (check : Violation) : Blameless (violated check) := rfl

end Ending

open PagedHeap.Action Ending

/-! ## Ranges that are handed back -/

namespace RangeCache

theorem endsIn_pushEvicted (evicted : List Range) (r : Range) :
    EndsIn Blameless (pushEvicted evicted r) :=
  EndsIn.bind (endsIn_require (blameless_violated _) _) fun _ => endsIn_pure _

theorem endsIn_evictLargest : EndsIn Blameless evictLargest := by
  refine endsIn_get.bind fun c => ?_
  cases c.largest? with
  | none => exact endsIn_pure none
  | some found =>
      obtain ⟨i, r⟩ := found
      exact (endsIn_checked (blameless_violated _) _).bind fun _ => endsIn_set.bind fun _ =>
        endsIn_pure _

theorem endsIn_evictRounds (limit rounds : Nat) (evicted : List Range) :
    EndsIn Blameless (evictRounds limit rounds evicted) := by
  induction rounds generalizing evicted with
  | zero => exact endsIn_pure evicted
  | succ rounds ih =>
      refine endsIn_get.bind fun c => Confined.ite (endsIn_pure evicted) ?_
      refine endsIn_evictLargest.bind fun r? => ?_
      cases r? with
      | none => exact endsIn_pure evicted
      | some r => exact (endsIn_pushEvicted evicted r).bind ih

theorem endsIn_endingAt (address : Nat) (ofBreak : Bool) (slots : List (Option Range)) :
    EndsIn Blameless (endingAt address ofBreak slots) := by
  induction slots with
  | nil => exact endsIn_pure none
  | cons slot slots ih =>
      cases slot with
      | none => exact ih.bind fun _ => endsIn_pure _
      | some r =>
          refine (endsIn_checked (blameless_violated _) _).bind fun stop => ?_
          exact Confined.ite (endsIn_pure _) (ih.bind fun _ => endsIn_pure _)

theorem endsIn_join (range behind : Range) : EndsIn Blameless (join range behind) :=
  (endsIn_checked (blameless_violated _) _).bind fun _ => endsIn_pure _

theorem endsIn_joinRight (range : Range) (right? : Option Nat) :
    EndsIn Blameless (joinRight range right?) := by
  cases right? with
  | none => exact endsIn_pure range
  | some j =>
      refine endsIn_get.bind fun c => ?_
      cases c.slot? j with
      | none => exact endsIn_pure range
      | some behind => exact endsIn_set.bind fun _ => endsIn_join range behind

theorem endsIn_fillSlot (i : Nat) (range : Range) (added : Nat) :
    EndsIn Blameless (fillSlot i range added) :=
  endsIn_get.bind fun _ => (endsIn_checked (blameless_violated _) _).bind fun _ => endsIn_set

theorem endsIn_store (range : Range) (added : Nat) : EndsIn Blameless (store range added) := by
  refine endsIn_get.bind fun c => ?_
  cases c.slots.findIdx? Option.isNone with
  | none => exact endsIn_pure _
  | some i => exact (endsIn_fillSlot i range added).bind fun _ => endsIn_pure none

theorem endsIn_joinLeft (range : Range) (added : Nat) (left? : Option Nat) :
    EndsIn Blameless (joinLeft range added left?) := by
  cases left? with
  | none => exact endsIn_store range added
  | some i =>
      refine endsIn_get.bind fun c => ?_
      cases c.slot? i with
      | none => exact endsIn_store range added
      | some left =>
          refine (endsIn_join left range).bind fun joined => ?_
          exact (endsIn_fillSlot i joined added).bind fun _ => endsIn_pure none

theorem endsIn_insert (range : Range) (opts : ReclaimOptions) :
    EndsIn Blameless (insert range opts) := by
  have hleft : EndsIn Blameless (leftNeighbour range opts) :=
    Confined.ite (endsIn_pure none) (endsIn_get.bind fun c => endsIn_endingAt _ _ c.slots)
  have hright : EndsIn Blameless (rightNeighbour range opts) :=
    endsIn_get.bind fun _ => Confined.ite (endsIn_pure none)
      ((endsIn_checked (blameless_violated _) _).bind fun _ => endsIn_pure _)
  exact hleft.bind fun left => hright.bind fun right =>
    (endsIn_joinRight range right).bind fun joined => endsIn_joinLeft joined range.len left

theorem endsIn_takeIn (range : Range) (opts : ReclaimOptions) :
    EndsIn Blameless (takeIn range opts) := by
  have hbounced : ∀ r?, EndsIn Blameless (bounced r?) := by
    intro r?
    cases r? with
    | none => exact endsIn_pure []
    | some r => exact endsIn_pushEvicted [] r
  refine Confined.ite (endsIn_pushEvicted [] range) ?_
  exact (endsIn_insert range opts).bind fun r? => (hbounced r?).bind fun evicted =>
    endsIn_evictRounds cacheLimit cacheSlots evicted

end RangeCache

namespace Paging

theorem endsIn_call {α : Type} (step : Kernel → α × Kernel) : EndsIn Blameless (call step) :=
  endsIn_transition.within

theorem endsIn_lowerBreakOver (r : Range) : EndsIn Blameless (lowerBreakOver r) := by
  have hdrop : EndsIn Blameless (dropBreak r) := by
    refine (endsIn_call _).bind fun old? => ?_
    cases old? with
    | none => exact endsIn_pure false
    | some old => exact endsIn_modify.bind fun _ => endsIn_pure true
  have hbreak : EndsIn Blameless programBreak := endsIn_get.bind fun _ => endsIn_pure _
  have hchecked : EndsIn Blameless (checked r.stop? : Action Paging Nat) :=
    endsIn_checked (blameless_violated _) _
  refine Confined.ite (hchecked.bind fun stop => ?_) (endsIn_pure false)
  exact endsIn_get.bind fun _ => hbreak.bind fun _ => Confined.ite hdrop (endsIn_pure false)

theorem endsIn_shrinkBreak (ranges : List Range) : EndsIn Blameless (shrinkBreak ranges) := by
  induction ranges with
  | nil => exact endsIn_pure []
  | cons r ranges ih =>
      refine (endsIn_lowerBreakOver r).bind fun lowered => Confined.ite ih ?_
      exact ih.bind fun _ => endsIn_pure _

theorem endsIn_releaseAll (ranges : List Range) : EndsIn Blameless (releaseAll ranges) := by
  have hsurrender : ∀ r, EndsIn Blameless (surrender r) := fun r =>
    Confined.ite (endsIn_call _) (endsIn_call _)
  induction ranges with
  | nil => exact endsIn_pure ()
  | cons r ranges ih => exact ((hsurrender r).bind fun _ => endsIn_modify).bind fun _ => ih

/-- Handing back pages fails no check of a pointer. -/
theorem endsIn_reclaim (address size : Nat) (opts : ReclaimOptions) :
    EndsIn Blameless (reclaim address size opts) := by
  refine (endsIn_require (blameless_violated _) _).bind fun _ => endsIn_modify.bind fun _ => ?_
  refine ((endsIn_call _).onlyIf _).bind fun _ => endsIn_get.bind fun p => ?_
  refine (EndsIn.within (RangeCache.endsIn_takeIn _ opts)).bind fun evicted => ?_
  exact (endsIn_shrinkBreak evicted).bind endsIn_releaseAll

end Paging

/-! ## Blocks that are given back -/

namespace BlockHeap

theorem endsIn_releaseBlocks (block count : Nat) :
    EndsIn Blameless (releaseBlocks block count) := by
  have hmemory : EndsIn Blameless memory := endsIn_get.bind fun _ => endsIn_pure _
  refine hmemory.bind fun m => ?_
  cases LiveCount.release (m.runLive (pageOf block)) count with
  | none =>
      intro b
      rw [corrupted, ensures_within, Kernel.ensures_corrupted]
      exact rfl
  | some left =>
      refine (EndsIn.within endsIn_modify).bind fun _ => ?_
      exact Confined.ite (EndsIn.within (Paging.endsIn_reclaim _ _ _)) (endsIn_pure ())

theorem endsIn_releaseChain (rounds : Nat) (node? : Option Nat) :
    EndsIn Blameless (releaseChain rounds node?) := by
  have hmemory : EndsIn Blameless memory := endsIn_get.bind fun _ => endsIn_pure _
  induction rounds generalizing node? with
  | zero =>
      cases node? with
      | none => exact endsIn_pure ()
      | some block => exact confined_halt rfl
  | succ rounds ih =>
      cases node? with
      | none => exact endsIn_pure ()
      | some block =>
          exact hmemory.bind fun m => (endsIn_releaseBlocks block _).bind fun _ => ih _

theorem endsIn_list (c : Category) : EndsIn Blameless (list c) :=
  endsIn_get.bind fun _ => endsIn_pure _

theorem endsIn_flush (c : Category) : EndsIn Blameless (flush c) :=
  (endsIn_list c).bind fun l => endsIn_modify.bind fun _ => endsIn_releaseChain _ l.head?

theorem endsIn_push (c : Category) (first count : Nat) : EndsIn Blameless (push c first count) :=
  (endsIn_list c).bind fun _ => (EndsIn.within endsIn_modify).bind fun _ =>
    (endsIn_require (blameless_violated _) _).bind fun _ => endsIn_modify

end BlockHeap
end PagedHeap
