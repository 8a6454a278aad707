import PagedHeap.Category
import PagedHeap.Fault

/-!
# Routing a request

A request is routed by its size, after rounding up to the alignment asked for.  Up to
`smallLimit` bytes it is a block: blocks are as large as a power of two and aligned to
their size, so rounding alone provides the alignment.  Above that it is a range of
pages, and the alignment goes with it.
-/

namespace PagedHeap

/-- What a request asks for besides its size. -/
structure AllocOptions where
  /-- The alignment, a power of two; zero is no requirement. -/
  align : Nat := 0
  /-- Hand out zeroed memory. -/
  zero : Bool := false
  deriving DecidableEq, Repr

/-- Where a request is served. -/
inductive Route where
  | small (category : Category)
  | large (size align : Nat)
  deriving DecidableEq, Repr

namespace Route

/-- The route of a size that is rounded already. -/
def ofRounded (size align : Nat) : Route :=
  if h : size ≤ smallLimit then small (Category.ofSize size h) else large size align

end Route

/-- Where a request of `size` bytes is served.  An empty request goes nowhere. -/
def route (size : Nat) (opts : AllocOptions) : Except AllocError (Option Route) :=
  let align := if opts.align = 0 then 1 else opts.align
  if !Word.isPowerOfTwo align then .error (.invalidAlignment opts.align)
  else if size = 0 then .ok none
  else
    -- Rounding fails where the sum on the way is not a word, even if its result were one.
    match Word.alignUp? size align with
    | none => .error (.outOfMemory size)
    | some rounded =>
        if rounded < Word.signedLimit then .ok (some (Route.ofRounded rounded align))
        else .error (.outOfMemory size)

end PagedHeap
