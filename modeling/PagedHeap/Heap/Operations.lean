import PagedHeap.Heap.Caches
import PagedHeap.Heap.Route

/-!
# Allocating, resizing and freeing

The operations of the process-wide heap, each on behalf of a thread.  A pointer is
classified by its offset in the page: page-aligned pointers are large allocations and
all others are blocks.

Running out of memory is a matter of policy.  `tryAllocate` only reports it; every other
operation goes through `fail`, which logs it and sets the error number, or ends the
process in a build that never fails.
-/

namespace PagedHeap
namespace Heap

/-- Whether a pointer belongs to a block. -/
def isBlock (address : Nat) : Bool := pageOffset address != 0

/-- Work on the large allocations. -/
def onLarge {α : Type} (action : Action LargeHeap α) : Action Heap α :=
  Action.within largePart action

/-- Look at memory and the kernel. -/
def onKernel {α : Type} (action : Action Kernel α) : Action Heap α :=
  Action.within kernelPart action

/-- Store zeros. -/
def zero (address len : Nat) : Action Heap Unit :=
  onKernel (modify fun k => { k with memory := k.memory.clear address len })

/-- Copy memory. -/
def copy (source target len : Nat) : Action Heap Unit :=
  onKernel (modify fun k => { k with memory := k.memory.copy source target len })

/-- Report a failed request and go on without memory. -/
def reportFailure (error : AllocError) (number : ErrorNumber) : Action Heap (Option Nat) := do
  logRecord (.failed error)
  setErrorNumber number
  return none

/-- Apply the policy for a failed request. -/
def fail (error : AllocError) : Action Heap (Option Nat) := do
  match error with
  | .outOfMemory size =>
      if (← get).build.neverFails then onKernel (Kernel.abort (.outOfMemory size))
      else reportFailure error .noMemory
  | .invalidAlignment _ => reportFailure error .invalidArgument

/-- Allocate a block for thread `t`. -/
def allocateBlock (t : Nat) (c : Category) (zeroed : Bool) : Action Heap (Option Nat) := do
  match ← withCache t (BlockHeap.allocate c) with
  | none => return none
  | some block =>
      Action.onlyIf zeroed (zero block c.blockSize)
      return some block

/-- Serve a request along its route. -/
def follow (t : Nat) (zeroed : Bool) : Route → Action Heap (Option Nat)
  | .small c => allocateBlock t c zeroed
  | .large size align => onLarge (LargeHeap.allocate size align)

/-- Allocate without applying the policy for failures.  An empty request is no failure and
gets no memory. -/
def tryAllocate (t size : Nat) (opts : AllocOptions) :
    Action Heap (Except AllocError (Option Nat)) := do
  match route size opts with
  | .error error => return .error error
  | .ok none => return .ok none
  | .ok (some target) =>
      match ← follow t opts.zero target with
      | some address => return .ok (some address)
      | none => return .error (.outOfMemory size)

/-- Allocate `size` bytes. -/
def allocate (t size : Nat) (opts : AllocOptions) : Action Heap (Option Nat) := do
  match ← tryAllocate t size opts with
  | .ok got => return got
  | .error error => fail error

/-- Free a block. -/
def freeBlock (t address : Nat) : Action Heap Unit :=
  withCache t (BlockHeap.free address)

/-- Free an allocation; there is nothing to do without a pointer. -/
def reclaim (t : Nat) : Option Nat → Action Heap Unit
  | none => return ()
  | some address =>
      if isBlock address then freeBlock t address else onLarge (LargeHeap.free address none)

/-- Free an allocation that is claimed to have at least `size` bytes. -/
def reclaimSized (t : Nat) (pointer? : Option Nat) (size : Nat) : Action Heap Unit := do
  match pointer? with
  | none => return ()
  | some address =>
      if isBlock address then
        -- The header is checked twice: for the claim, and once more when the block is freed.
        let actual ← onKernel (Kernel.blockSize address)
        Action.onlyIf (decide (actual < size)) (corrupted (.sizeMismatch address size actual))
        freeBlock t address
      else onLarge (LargeHeap.free address (some size))

/-- The usable size of an allocation. -/
def allocatedSize : Option Nat → Action Heap Nat
  | none => return 0
  | some address =>
      if isBlock address then onKernel (Kernel.blockSize address)
      else onLarge (LargeHeap.sizeOf address)

/-- Move the allocation at `address`, of `old` bytes, to a new one of `size` bytes. -/
def moveTo (t address old size : Nat) (opts : AllocOptions) : Action Heap (Option Nat) := do
  match ← allocate t size opts with
  | none => return none
  | some moved =>
      copy address moved (min old size)
      reclaim t (some address)
      return some moved

/-- Resize a block that is to be served along `target`. -/
def resizeBlock (t address size : Nat) (opts : AllocOptions) (target : Route) :
    Action Heap (Option Nat) := do
  let c ← onKernel (Kernel.blockCategory address)
  -- A block that fits as well as a new one would stays where it is.
  if target = .small c then return some address
  else moveTo t address c.blockSize size opts

/-- Resize a large allocation that is to be served along `target`.  It moves if it is to
become a block, or if it is not aligned as asked. -/
def resizeLarge (t address size : Nat) (opts : AllocOptions) (target : Route) :
    Action Heap (Option Nat) := do
  let moved : Action Heap (Option Nat) := do
    let old ← onLarge (LargeHeap.sizeOf address)
    moveTo t address old size opts
  match target with
  | .small _ => moved
  | .large rounded align =>
      if address % align = 0 then
        match ← onLarge (LargeHeap.resize address rounded align) with
        | some got => return some got
        | none => fail (.outOfMemory rounded)
      else moved

/-- Resize an allocation.  Without a pointer this allocates, and a size of zero frees. -/
def reallocate (t : Nat) (pointer? : Option Nat) (size : Nat) (opts : AllocOptions) :
    Action Heap (Option Nat) := do
  match pointer? with
  | none => allocate t size opts
  | some address =>
      -- A size of zero is looked at before the alignment, so it frees in any case.
      if size = 0 then
        reclaim t (some address)
        return none
      else
        match route size opts with
        | .error error => fail error
        | .ok none => return none
        | .ok (some target) =>
            if isBlock address then resizeBlock t address size opts target
            else resizeLarge t address size opts target

/-- Give cached pages back to the kernel, keeping at most `pad` bytes. -/
def trimPages (pad : Nat) : Action Heap Nat :=
  onLarge (LargeHeap.trim pad)

/-- Flush the caches that thread `t` can reach and give cached pages back to the kernel,
keeping at most `pad` bytes.  The answer is whether the page cache released any. -/
def trim (t pad : Nat) : Action Heap Bool := do
  flushOwn t
  flushFallback
  let released ← trimPages pad
  logRecord (.trimmed released)
  return decide (0 < released)

end Heap
end PagedHeap
