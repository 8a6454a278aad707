import PagedHeap.Interface.Request
import PagedHeap.Proofs.Confined

/-!
# What requests cannot do

A relation between heaps that allows whatever is done to blocks, to large allocations and to
memory allows all that requests are made of but for what they write down.  So to show that
requests spare a part of the heap there is little to look at: how a cache is borrowed, and
what a relation makes of records and error numbers.
-/

namespace PagedHeap
namespace Heap

open PagedHeap.Action

/-- The relation allows what is done for thread `t` to blocks, large allocations and memory. -/
structure Tolerates (t : Nat) (R : Heap → Heap → Prop) : Prop where
  withCache : ∀ {α : Type} (operation : Action BlockHeap α), Leaves R (withCache t operation)
  onLarge : ∀ {α : Type} (action : Action LargeHeap α), Leaves R (onLarge action)
  onKernel : ∀ {α : Type} (action : Action Kernel α), Leaves R (onKernel action)

/-- The relation allows all that is written down, and that caches are emptied, too. -/
structure ToleratesAll (t : Nat) (R : Heap → Heap → Prop) : Prop extends Tolerates t R where
  logRecord : ∀ r, Leaves R (logRecord r)
  setErrorNumber : ∀ number, Leaves R (setErrorNumber number)
  flushOwn : Leaves R (flushOwn t)
  flushFallback : Leaves R flushFallback

namespace Tolerates

variable {t : Nat} {R : Heap → Heap → Prop} [Std.Refl R]

theorem reclaim (h : Tolerates t R) (pointer? : Option Nat) : Leaves R (reclaim t pointer?) := by
  cases pointer? with
  | none => exact confined_pure ()
  | some address => exact Confined.ite (h.withCache _) (h.onLarge _)

theorem allocatedSize (h : Tolerates t R) (pointer? : Option Nat) :
    Leaves R (allocatedSize pointer?) := by
  cases pointer? with
  | none => exact confined_pure 0
  | some address => exact Confined.ite (h.onKernel _) (h.onLarge _)

variable [IsTrans Heap R]

theorem reclaimSized (h : Tolerates t R) (pointer? : Option Nat) (size : Nat) :
    Leaves R (reclaimSized t pointer? size) := by
  cases pointer? with
  | none => exact confined_pure ()
  | some address =>
      refine Confined.ite ((h.onKernel _).bind fun actual => ?_) (h.onLarge _)
      exact ((h.onKernel _).onlyIf _).bind fun _ => h.withCache _

theorem allocateBlock (h : Tolerates t R) (c : Category) (zeroed : Bool) :
    Leaves R (allocateBlock t c zeroed) := by
  refine (h.withCache _).bind fun block? => ?_
  cases block? with
  | none => exact confined_pure none
  | some block => exact ((h.onKernel _).onlyIf zeroed).bind fun _ => confined_pure _

theorem follow (h : Tolerates t R) (zeroed : Bool) (target : Route) :
    Leaves R (follow t zeroed target) := by
  cases target with
  | small c => exact h.allocateBlock c zeroed
  | large size align => exact h.onLarge _

theorem tryAllocate (h : Tolerates t R) (size : Nat) (opts : AllocOptions) :
    Leaves R (tryAllocate t size opts) := by
  unfold Heap.tryAllocate
  cases route size opts with
  | error error => exact confined_pure _
  | ok target? =>
      cases target? with
      | none => exact confined_pure _
      | some target =>
          refine (h.follow opts.zero target).bind fun got? => ?_
          cases got? with
          | none => exact confined_pure _
          | some address => exact confined_pure _

end Tolerates

namespace ToleratesAll

variable {t : Nat} {R : Heap → Heap → Prop} [Std.Refl R] [IsTrans Heap R]

theorem fail (h : ToleratesAll t R) (error : AllocError) : Leaves R (fail error) := by
  have hreport : ∀ number, Leaves R (reportFailure error number) := fun number =>
    (h.logRecord _).bind fun _ => (h.setErrorNumber number).bind fun _ => confined_pure _
  cases error with
  | outOfMemory size =>
      exact confined_get.bind fun h' => Confined.ite (h.onKernel _) (hreport .noMemory)
  | invalidAlignment align => exact hreport .invalidArgument

theorem allocate (h : ToleratesAll t R) (size : Nat) (opts : AllocOptions) :
    Leaves R (allocate t size opts) := by
  refine (h.tryAllocate size opts).bind fun result => ?_
  cases result with
  | ok got? => exact confined_pure got?
  | error error => exact h.fail error

theorem moveTo (h : ToleratesAll t R) (address old size : Nat) (opts : AllocOptions) :
    Leaves R (moveTo t address old size opts) := by
  refine (h.allocate size opts).bind fun moved? => ?_
  cases moved? with
  | none => exact confined_pure none
  | some moved =>
      exact (h.onKernel _).bind fun _ => (h.reclaim _).bind fun _ => confined_pure _

theorem resizeBlock (h : ToleratesAll t R) (address size : Nat) (opts : AllocOptions)
    (target : Route) : Leaves R (resizeBlock t address size opts target) :=
  (h.onKernel _).bind fun _ => Confined.ite (confined_pure _) (h.moveTo address _ size opts)

theorem resizeLarge (h : ToleratesAll t R) (address size : Nat) (opts : AllocOptions)
    (target : Route) : Leaves R (resizeLarge t address size opts target) := by
  have hmoved : Leaves R (do
      let old ← Heap.onLarge (LargeHeap.sizeOf address)
      Heap.moveTo t address old size opts) :=
    (h.onLarge _).bind fun old => h.moveTo address old size opts
  cases target with
  | small c => exact hmoved
  | large rounded align =>
      refine Confined.ite ((h.onLarge _).bind fun got? => ?_) hmoved
      cases got? with
      | some got => exact confined_pure _
      | none => exact h.fail _

theorem reallocate (h : ToleratesAll t R) (pointer? : Option Nat) (size : Nat)
    (opts : AllocOptions) : Leaves R (reallocate t pointer? size opts) := by
  cases pointer? with
  | none => exact h.allocate size opts
  | some address =>
      refine Confined.ite ((h.reclaim _).bind fun _ => confined_pure none) ?_
      cases route size opts with
      | error error => exact h.fail error
      | ok target? =>
          cases target? with
          | none => exact confined_pure none
          | some target =>
              exact Confined.ite (h.resizeBlock address size opts target)
                (h.resizeLarge address size opts target)

theorem resizeSlice (h : ToleratesAll t R) (pointer? : Option Nat) (new : Layout) :
    Leaves R (resizeSlice t pointer? new) := by
  refine (h.reallocate pointer? _ _).bind fun got? => ?_
  cases got? with
  | some got => exact confined_pure _
  | none => exact confined_pure none

theorem growSliceZeroed (h : ToleratesAll t R) (pointer? : Option Nat) (old new : Layout) :
    Leaves R (growSliceZeroed t pointer? old new) := by
  refine (h.resizeSlice pointer? new).bind fun slice? => ?_
  cases slice? with
  | none => exact confined_pure none
  | some slice =>
      exact (confined_checked trivial _).bind fun _ => (h.onKernel _).bind fun _ => confined_pure _

theorem tryAllocateLayout (h : ToleratesAll t R) (l : Layout) :
    Leaves R (tryAllocateLayout t l) := by
  refine (h.tryAllocate _ _).bind fun result => ?_
  cases result with
  | error error => exact confined_pure _
  | ok got? =>
      cases got? with
      | some got => exact confined_pure _
      | none => exact confined_pure _

theorem allocateSlice (h : ToleratesAll t R) (l : Layout) (zeroed : Bool) :
    Leaves R (allocateSlice t l zeroed) := by
  refine (h.tryAllocate _ _).bind fun result => ?_
  cases result with
  | error error => exact confined_pure _
  | ok got? =>
      cases got? with
      | some got => exact confined_pure _
      | none => exact confined_pure _

theorem calloc (h : ToleratesAll t R) (count size : Nat) : Leaves R (calloc t count size) := by
  unfold Heap.calloc
  cases Word.mul? count size with
  | none => exact (h.setErrorNumber _).bind fun _ => confined_pure none
  | some total => exact h.allocate _ _

theorem realloc (h : ToleratesAll t R) (pointer? : Option Nat) (size : Nat) :
    Leaves R (realloc t pointer? size) := by
  cases pointer? with
  | none => exact h.allocate _ _
  | some address => exact h.reallocate (some address) size {}

theorem posixMemalign (h : ToleratesAll t R) (align size : Nat) :
    Leaves R (posixMemalign t align size) := by
  refine Confined.ite (confined_pure _) ((h.allocate _ _).bind fun got? => ?_)
  cases got? with
  | none => exact confined_pure _
  | some got => exact confined_pure _

theorem trim (h : ToleratesAll t R) (pad : Nat) : Leaves R (trim t pad) :=
  h.flushOwn.bind fun _ => h.flushFallback.bind fun _ => (h.onLarge _).bind fun _ =>
    (h.logRecord _).bind fun _ => confined_pure _

/-- The relation allows all requests. -/
theorem serve (h : ToleratesAll t R) (r : HeapRequest) : Leaves R (serve t r) := by
  cases r with
  | allocate size opts => exact (h.allocate size opts).map _
  | reallocate pointer? size opts => exact (h.reallocate pointer? size opts).map _
  | reclaim pointer? => exact (h.reclaim pointer?).map _
  | reclaimSized pointer? size => exact (h.reclaimSized pointer? size).map _
  | allocatedSize pointer? => exact (h.allocatedSize pointer?).map _
  | trim pad => exact (h.trim pad).map _
  | trimPages pad => exact (h.onLarge _).map _
  | flushOwn => exact h.flushOwn.map _
  | flushFallback => exact h.flushFallback.map _
  | tryAllocateLayout l => exact (h.tryAllocateLayout l).map _
  | allocateLayout l zeroed => exact (h.allocate _ _).map _
  | deallocateLayout pointer? l => exact (h.reclaimSized pointer? l.size).map _
  | reallocateLayout pointer? l size => exact (h.reallocate pointer? _ _).map _
  | allocateSlice l zeroed => exact (h.allocateSlice l zeroed).map _
  | deallocateSlice pointer? l => exact (h.reclaimSized pointer? l.size).map _
  | resizeSlice pointer? old new => exact (h.resizeSlice pointer? new).map _
  | growSliceZeroed pointer? old new => exact (h.growSliceZeroed pointer? old new).map _
  | malloc size => exact (h.allocate _ _).map _
  | calloc count size => exact (h.calloc count size).map _
  | realloc pointer? size => exact (h.realloc pointer? size).map _
  | alignedAlloc align size => exact (h.allocate _ _).map _
  | posixMemalign align size => exact (h.posixMemalign align size).map _

end ToleratesAll

end Heap
end PagedHeap
