/-!
# What can go wrong

There are two families of failure.  A request that cannot be met is an ordinary
result, an `AllocError`.  A heap whose invariants are broken is a `Corruption`; it
is never handed to anyone, the process ends with its text on standard error.

`Ending` lists every way a process can end: the two aborts, a violated internal
check, and a wait or walk that never finishes.
-/

namespace PagedHeap

/-- An address as text: lower-case hexadecimal digits after `0x`. -/
def addressText (address : Nat) : String :=
  "0x" ++ String.ofList (Nat.toDigits 16 address)

/-- A request that could not be met. -/
inductive AllocError where
  | outOfMemory (size : Nat)
  | invalidAlignment (align : Nat)
  deriving DecidableEq, Repr

namespace AllocError

/-- The text of a failed request. -/
def message : AllocError → String
  | outOfMemory size => "out of memory allocating " ++ toString size ++ " bytes"
  | invalidAlignment align => "alignment " ++ toString align ++ " is not a power of two"

end AllocError

/-- A broken invariant of the heap. -/
inductive Corruption where
  /-- The header of a run names a category that does not exist. -/
  | badCategory (run category : Nat)
  /-- A block pointer is not at a multiple of its block size. -/
  | misalignedBlock (address size : Nat)
  /-- A run was given back more blocks than it handed out. -/
  | counterUnderflow (run : Nat)
  /-- A sized free claims more than is allocated. -/
  | sizeMismatch (address given actual : Nat)
  /-- A page-aligned pointer is not the start of a live large allocation. -/
  | unknownLargePointer (address : Nat)
  /-- The only thread asked for a lock that it holds. -/
  | reentrantLock
  deriving DecidableEq, Repr

namespace Corruption

/-- The text of a corruption; the highest category is part of it. -/
def message : Corruption → String
  | badCategory run category =>
      "run at " ++ addressText run ++ " holds category " ++ toString category ++
        ", expected at most 6"
  | misalignedBlock address size =>
      "pointer " ++ addressText address ++ " is not on a " ++ toString size ++
        "-byte block boundary"
  | counterUnderflow run =>
      "live-block counter of run at " ++ addressText run ++ " went below zero"
  | sizeMismatch address given actual =>
      "free of " ++ addressText address ++ " claims " ++ toString given ++
        " bytes but only " ++ toString actual ++ " are allocated"
  | unknownLargePointer address =>
      addressText address ++ " is not a live large allocation"
  | reentrantLock => "allocator lock re-entered"

end Corruption

/-- An internal check that failed. -/
inductive Violation where
  /-- A condition that the code asserts. -/
  | assertion
  /-- Checked arithmetic left the range of words. -/
  | arithmetic
  /-- An index past the end. -/
  | index
  deriving DecidableEq, Repr

/-- How a process ends before its program does. -/
inductive Ending where
  /-- Aborted after reporting a corrupted heap. -/
  | corrupted (fault : Corruption)
  /-- Aborted because memory ran out and failure is not an option. -/
  | outOfMemory (size : Nat)
  /-- Stopped by a failed internal check. -/
  | violated (check : Violation)
  /-- Never goes on: it waits for a lock held by itself, or walks a list that has no end. -/
  | stalled
  deriving DecidableEq, Repr

namespace Ending

/-- What the process writes to standard error before it aborts, without the line end. -/
def report? : Ending → Option (List String)
  | corrupted fault => some ["runalloc: heap corruption: ", fault.message]
  | outOfMemory size => some ["runalloc: ", (AllocError.outOfMemory size).message]
  | violated _ => none
  | stalled => none

end Ending
end PagedHeap
