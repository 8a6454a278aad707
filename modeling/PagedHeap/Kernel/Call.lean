import PagedHeap.Fault

/-!
# Kernel calls on record

The kernel keeps a record of the calls that touch address space, with their arguments
as they were passed and the answer that was given.  `Call.text` is the line a trace
shows for a call.
-/

namespace PagedHeap

/-- What a process may say about a range of its pages. -/
inductive Advice where
  | huge
  | nohuge
  /-- The content may be dropped; the range reads as zero from then on. -/
  | dontneed
  deriving DecidableEq, Repr

/-- A call and its answer. -/
inductive Call where
  /-- Map fresh pages, at the hint or at any place. -/
  | mapAny (hint len : Nat) (answer : Option Nat)
  /-- Map fresh pages at one place only. -/
  | mapExact (address len : Nat) (answer : Option Nat)
  | unmap (address len : Nat)
  /-- Grow a mapping in place. -/
  | remap (address old new : Nat) (done : Bool)
  | advise (address len : Nat) (advice : Advice)
  /-- Move the program break; the answer is where it was. -/
  | moveBreak (delta : Int) (answer : Option Nat)
  deriving DecidableEq, Repr

namespace Advice

/-- The word for an advice in a trace. -/
def text : Advice → String
  | huge => "huge"
  | nohuge => "nohuge"
  | dontneed => "dontneed"

end Advice

namespace Call

/-- An address, or the word for failure. -/
def answerText : Option Nat → String
  | some address => addressText address
  | none => "fail"

/-- The line of a trace for a call. -/
def text : Call → String
  | mapAny hint len answer =>
      "map " ++ addressText hint ++ " " ++ toString len ++ " any = " ++ answerText answer
  | mapExact address len answer =>
      "map " ++ addressText address ++ " " ++ toString len ++ " exact = " ++ answerText answer
  | unmap address len => "unmap " ++ addressText address ++ " " ++ toString len
  | remap address old new done =>
      "remap " ++ addressText address ++ " " ++ toString old ++ " " ++ toString new ++
        (if done then " = ok" else " = fail")
  | advise address len advice =>
      "advise " ++ addressText address ++ " " ++ toString len ++ " " ++ advice.text
  | moveBreak delta answer => "sbrk " ++ toString delta ++ " = " ++ answerText answer

end Call
end PagedHeap
