import PagedHeap.Heap.Operations

/-!
# Requests by layout

A layout is a size together with a power of two as alignment, such that the size can be
rounded up to the alignment without leaving the signed range.  Layouts may be empty;
they get a block all the same, so that every layout has an address of its own.

Two families of operations take layouts.  One answers with a pointer or none and applies
the policy for failures.  The other answers with a slice, the address and the length
asked for, and only says that it failed; its first allocation of a layout bypasses the
policy.
-/

namespace PagedHeap

/-- A size and an alignment that fit together. -/
structure Layout where
  size : Nat
  align : Nat
  valid : Word.isPowerOfTwo align = true ∧ size + align ≤ Word.signedLimit

namespace Layout

/-- The layout with a size and an alignment, if there is one. -/
def make? (size align : Nat) : Option Layout :=
  if h : Word.isPowerOfTwo align = true ∧ size + align ≤ Word.signedLimit then
    some ⟨size, align, h⟩
  else none

/-- The options that a layout asks for. -/
def options (l : Layout) (zeroed : Bool) : AllocOptions := ⟨l.align, zeroed⟩

end Layout

/-- An address and the number of bytes there. -/
structure Slice where
  address : Nat
  len : Nat
  deriving DecidableEq, Repr

namespace Heap

/-- The smallest size that is served: nobody gets an empty block. -/
def servedSize (size : Nat) : Nat := max size 1

/-- Allocate for a layout and report failure. -/
def tryAllocateLayout (t : Nat) (l : Layout) : Action Heap (Except AllocError Nat) := do
  match ← tryAllocate t (servedSize l.size) (l.options false) with
  | .error error => return .error error
  | .ok (some address) => return .ok address
  | .ok none => return .error (.outOfMemory l.size)

/-- Allocate for a layout. -/
def allocateLayout (t : Nat) (l : Layout) (zeroed : Bool) : Action Heap (Option Nat) :=
  allocate t (servedSize l.size) (l.options zeroed)

/-- Free what was allocated for a layout. -/
def deallocateLayout (t : Nat) (pointer? : Option Nat) (l : Layout) : Action Heap Unit :=
  reclaimSized t pointer? l.size

/-- Resize what was allocated for a layout; the alignment stays. -/
def reallocateLayout (t : Nat) (pointer? : Option Nat) (l : Layout) (size : Nat) :
    Action Heap (Option Nat) :=
  reallocate t pointer? (servedSize size) (l.options false)

/-- Allocate a slice for a layout. -/
def allocateSlice (t : Nat) (l : Layout) (zeroed : Bool) : Action Heap (Option Slice) := do
  match ← tryAllocate t (servedSize l.size) (l.options zeroed) with
  | .ok (some address) => return some ⟨address, l.size⟩
  | .ok none => return none
  | .error _ => return none

/-- Resize a slice to a layout, to grow as well as to shrink it. -/
def resizeSlice (t : Nat) (pointer? : Option Nat) (new : Layout) :
    Action Heap (Option Slice) := do
  match ← reallocate t pointer? (servedSize new.size) (new.options false) with
  | some address => return some ⟨address, new.size⟩
  | none => return none

/-- Grow a slice and make the bytes behind its old length zero. -/
def growSliceZeroed (t : Nat) (pointer? : Option Nat) (old new : Layout) :
    Action Heap (Option Slice) := do
  match ← resizeSlice t pointer? new with
  | none => return none
  | some slice =>
      let added ← Action.checked (Word.sub? new.size old.size)
      zero (slice.address + old.size) added
      return some slice

end Heap
end PagedHeap
