import PagedHeap.Interface.CFunctions
import PagedHeap.Interface.Layout

/-!
# Answers

What a request is answered with, whichever part of the library serves it.
-/

namespace PagedHeap

/-- An answer. -/
inductive Answer where
  /-- Nothing but that the request was served. -/
  | done
  | pointer (pointer? : Option Nat)
  | size (n : Nat)
  | flag (b : Bool)
  /-- There is no memory for the reason given. -/
  | refused (error : AllocError)
  | slice (slice? : Option Slice)
  | aligned (answer : AlignedAnswer)
  deriving DecidableEq, Repr

namespace Answer

/-- An address, or why there is none. -/
def ofExcept : Except AllocError Nat → Answer
  | .ok address => pointer (some address)
  | .error error => refused error

end Answer
end PagedHeap
