import PagedHeap.Heap.Operations
import PagedHeap.Interface.Layout

/-!
# The C allocation functions

The functions of the C library in terms of the heap.  An empty request gets a block, save
in `realloc` of a pointer, where it frees.  A product that is not a word sets the error
number and is refused at once; `posix_memalign` answers with an error number of its own
and stores a pointer only if it succeeds.
-/

namespace PagedHeap

/-- The answer of `posix_memalign`: its code, and the pointer stored. -/
structure AlignedAnswer where
  code : Nat
  stored? : Option Nat
  deriving DecidableEq, Repr

/-- The size of a pointer, the least alignment that `posix_memalign` takes. -/
def pointerSize : Nat := 8

namespace Heap

/-- Allocate `size` bytes. -/
def malloc (t size : Nat) : Action Heap (Option Nat) :=
  allocate t (servedSize size) {}

/-- Allocate zeroed memory for `count` items of `size` bytes. -/
def calloc (t count size : Nat) : Action Heap (Option Nat) := do
  match Word.mul? count size with
  | none =>
      setErrorNumber .noMemory
      return none
  | some total => allocate t (servedSize total) { zero := true }

/-- Resize an allocation, or make one if there is no pointer. -/
def realloc (t : Nat) (pointer? : Option Nat) (size : Nat) : Action Heap (Option Nat) :=
  match pointer? with
  | none => malloc t size
  | some address => reallocate t (some address) size {}

/-- Allocate `size` bytes at a multiple of `align`. -/
def alignedAlloc (t align size : Nat) : Action Heap (Option Nat) :=
  allocate t (servedSize size) { align := align }

/-- Allocate `size` bytes at a multiple of `align`, and say with a code how it went.  The
error number that `alignedAlloc` sets on failure stays set. -/
def posixMemalign (t align size : Nat) : Action Heap AlignedAnswer := do
  if !Word.isPowerOfTwo align || align < pointerSize then
    return ⟨ErrorNumber.invalidArgument.code, none⟩
  else
    match ← alignedAlloc t align size with
    | none => return ⟨ErrorNumber.noMemory.code, none⟩
    | some address => return ⟨0, some address⟩

end Heap
end PagedHeap
