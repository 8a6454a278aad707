import PagedHeap.Action
import PagedHeap.Kernel

/-!
# The last words of a process

A heap that is broken cannot be trusted to allocate, so the report of an abort is put
together in a buffer of fixed size and sent to standard error from there.  The buffer
drops what does not fit.  The kernel may take the text in chunks, or refuse it.

Every character of a report is a single byte, so the buffer's capacity counts
characters and bytes alike.
-/

namespace PagedHeap

/-- Text of at most `capacity` characters. -/
structure BoundedText (capacity : Nat) where
  chars : List Char
  length_le : chars.length ≤ capacity

namespace BoundedText

variable {capacity : Nat}

/-- No text. -/
def empty : BoundedText capacity := ⟨[], Nat.zero_le _⟩

/-- Append as much of `text` as there is room for. -/
def write (b : BoundedText capacity) (text : List Char) : BoundedText capacity where
  chars := b.chars ++ text.take (capacity - b.chars.length)
  length_le := by
    have := b.length_le
    simp only [List.length_append, List.length_take]
    omega

/-- Append pieces one after the other. -/
def writeAll (b : BoundedText capacity) (pieces : List (List Char)) : BoundedText capacity :=
  pieces.foldl write b

/-- A write keeps the first `capacity` characters of old and new text together. -/
theorem chars_write (b : BoundedText capacity) (text : List Char) :
    (b.write text).chars = (b.chars ++ text).take capacity := by
  have := b.length_le
  simp only [write, List.take_append]
  rw [List.take_of_length_le this]

/-- What a buffer holds after any writes is the start of all that was written. -/
theorem chars_writeAll (b : BoundedText capacity) (pieces : List (List Char)) :
    (b.writeAll pieces).chars = (b.chars ++ pieces.flatten).take capacity := by
  induction pieces generalizing b with
  | nil =>
    simp only [writeAll, List.foldl_nil, List.flatten_nil, List.append_nil]
    rw [List.take_of_length_le b.length_le]
  | cons piece rest ih =>
    show ((b.write piece).writeAll rest).chars = _
    rw [ih, chars_write, List.flatten_cons, ← List.append_assoc]
    generalize b.chars ++ piece = text
    rw [List.take_append, List.take_append, List.take_take, List.length_take]
    congr 1
    · congr 1
      omega
    · congr 1
      omega

end BoundedText

/-- The capacity of the buffer in which a report is put together. -/
def reportCapacity : Nat := 256

/-- The text that a process sends before it aborts; nothing if it does not abort. -/
def Ending.reportText (e : Ending) : List Char :=
  match e.report? with
  | none => []
  | some pieces =>
      ((BoundedText.empty : BoundedText reportCapacity).writeAll
        (pieces.map String.toList ++ [['\n']])).chars

/-- Something that text can be written to.  A write answers how much of the text it took, if it
is not refused. -/
structure Outlet (σ : Type) where
  write : List Char → σ → Option Nat × σ

namespace Outlet

variable {σ : Type}

/-- Send text until the outlet has it all or refuses; every round takes at least one
character, so the number of rounds is at most the length of the text. -/
def sendRounds (outlet : Outlet σ) : Nat → List Char → σ → σ
  | 0, _, s => s
  | rounds + 1, text, s =>
      if text.isEmpty then s
      else
        match outlet.write text s with
        | (none, s) => s
        | (some taken, s) => if taken = 0 then s else outlet.sendRounds rounds (text.drop taken) s

/-- Send text. -/
def send (outlet : Outlet σ) (text : List Char) (s : σ) : σ :=
  outlet.sendRounds text.length text s

/-- Report and end the process. -/
def abort {α : Type} (outlet : Outlet σ) (e : Ending) : Action σ α := fun s =>
  .error e (outlet.send e.reportText s)

end Outlet

namespace Kernel

/-- Standard error. -/
def standardError : Outlet Kernel where
  write text k := k.writeError text

/-- Send text to standard error. -/
def sendError (text : List Char) (k : Kernel) : Kernel := standardError.send text k

/-- Report to standard error and end the process. -/
def abort {α : Type} (e : Ending) : Action Kernel α := standardError.abort e

/-- End the process because the heap is broken. -/
def corrupted {α : Type} (fault : Corruption) : Action Kernel α :=
  abort (.corrupted fault)

end Kernel
end PagedHeap
