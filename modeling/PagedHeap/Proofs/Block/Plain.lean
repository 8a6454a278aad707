import PagedHeap.Block.Heap
import PagedHeap.Proofs.Page.Plain

/-!
# Blocks without huge pages

A cache of blocks asks its supplier for single pages only, so it never makes a difference to it
whether the supplier is configured for huge pages.
-/

namespace PagedHeap
namespace BlockHeap

open PagedHeap.Action

/-- The cache of blocks, at work on a supplier without huge pages. -/
def plain (b : BlockHeap) : BlockHeap := { b with paging := b.paging.plain }

theorem blind_onPages {α : Type} {action : Action Paging α} (h : Blind Paging.plain action) :
    Blind plain (within pagingPart action) :=
  h.within (fun _ => rfl) fun _ _ => rfl

theorem blind_onKernel {α : Type} (action : Action Kernel α) :
    Blind plain (within kernelPart action) :=
  blind_within action (fun _ => rfl) fun _ _ => rfl

theorem blind_memory : Blind plain memory :=
  blind_get_bind (fun _ => rfl) fun _ => blind_pure _

theorem blind_updateMemory (f : Memory → Memory) : Blind plain (updateMemory f) :=
  blind_onKernel _

theorem blind_list (c : Category) : Blind plain (list c) :=
  blind_get_bind (fun _ => rfl) fun _ => blind_pure _

theorem blind_setList (c : Category) (l : FreeList) : Blind plain (setList c l) :=
  blind_modify fun _ => rfl

/-! ## Lists -/

theorem blind_pop (c : Category) : Blind plain (pop c) := by
  refine (blind_list c).bind fun l => ?_
  cases l.head? with
  | none => exact blind_pure none
  | some block =>
      refine blind_memory.bind fun m => ?_
      have hbehind : Blind plain (behindFirst c block (m.loadNode block)) :=
        Blind.ite ((blind_updateMemory _).bind fun _ => blind_pure _) (blind_pure _)
      refine hbehind.bind fun head? => (blind_checked _).bind fun count => ?_
      exact (blind_setList c _).bind fun _ => blind_pure _

theorem blind_push (c : Category) (first count : Nat) : Blind plain (push c first count) :=
  (blind_list c).bind fun _ => (blind_updateMemory _).bind fun _ =>
    (blind_require _ _).bind fun _ => blind_setList c _

/-! ## Runs -/

theorem blind_releaseBlocks (block count : Nat) : Blind plain (releaseBlocks block count) := by
  refine blind_memory.bind fun m => ?_
  cases LiveCount.release (m.runLive (pageOf block)) count with
  | none => exact blind_onKernel _
  | some left =>
      refine (blind_updateMemory _).bind fun _ => ?_
      exact Blind.ite (blind_onPages (Paging.blind_reclaim _ _ _)) (blind_pure _)

theorem blind_releaseChain (rounds : Nat) (node? : Option Nat) :
    Blind plain (releaseChain rounds node?) := by
  induction rounds generalizing node? with
  | zero =>
      cases node? with
      | none => exact blind_pure ()
      | some block => exact blind_halt _
  | succ rounds ih =>
      cases node? with
      | none => exact blind_pure ()
      | some block =>
          exact blind_memory.bind fun m => (blind_releaseBlocks _ _).bind fun _ => ih _

theorem blind_flush (c : Category) : Blind plain (flush c) :=
  (blind_list c).bind fun _ => (blind_setList c {}).bind fun _ => blind_releaseChain _ _

theorem blind_flushEach (categories : List Category) : Blind plain (flushEach categories) := by
  induction categories with
  | nil => exact blind_pure ()
  | cons c rest ih => exact (blind_flush c).bind fun _ => ih

theorem blind_flushAll : Blind plain flushAll := blind_flushEach _

theorem blind_openRun (c : Category) (page : Nat) : Blind plain (openRun c page) :=
  (blind_updateMemory _).bind fun _ => (blind_push c _ _).bind fun _ => blind_pure _

/-! ## Operations -/

theorem blind_allocate (c : Category) : Blind plain (allocate c) := by
  refine (blind_pop c).bind fun block? => ?_
  cases block? with
  | some block => exact blind_pure _
  | none =>
      -- A page is no whole huge page.
      refine (blind_onPages (Paging.blind_allocate (by decide))).bind fun page? => ?_
      cases page? with
      | none => exact blind_pure none
      | some page => exact (blind_openRun c page).map some

theorem blind_free (block : Nat) : Blind plain (free block) :=
  (blind_onKernel _).bind fun c => (blind_list c).bind fun _ =>
    ((blind_flush c).onlyIf _).bind fun _ => blind_push c block 1

end BlockHeap
end PagedHeap
