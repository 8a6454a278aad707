import PagedHeap.Kernel.Report

/-!
# Sending text

A write may take less than it is offered, so text is sent by one write after the other, each of what
is left.  An outlet may take another amount of every write, and refuse one; the kernel's standard
error is one outlet of many.

`Outlet.Sends` tells the loop, write by write.  It ends for every outlet, after no more writes than
the text has characters.  What is received is the start of the text, and the whole of it as long as
every write takes something; a write that takes nothing is the last.
-/

namespace PagedHeap
namespace Outlet

variable {σ : Type} {outlet : Outlet σ} {received : σ → List Char} {text : List Char} {s s' t t' : σ}
  {writes writes' : Nat}

/-- How much of the text a write takes; nothing if it is refused. -/
def taken (outlet : Outlet σ) (text : List Char) (s : σ) : Nat := (outlet.write text s).1.getD 0

/-- A write takes the start of the text, and puts it behind what was received before. -/
structure Lawful (outlet : Outlet σ) (received : σ → List Char) : Prop where
  taken_le : ∀ text s, outlet.taken text s ≤ text.length
  received_write : ∀ text s,
    received (outlet.write text s).2 = received s ++ text.take (outlet.taken text s)

/-- In the states that are meant, and they are never left, every write takes some of the text. -/
def Accepts (outlet : Outlet σ) (meant : σ → Prop) : Prop :=
  ∀ text s, meant s → text ≠ [] → 0 < outlet.taken text s ∧ meant (outlet.write text s).2

/-- Text is sent from a state to a state by a number of writes. -/
inductive Sends (outlet : Outlet σ) : List Char → σ → Nat → σ → Prop where
  | finished (s : σ) : Sends outlet [] s 0 s
  /-- A write that takes nothing is the last. -/
  | stopped {text : List Char} {s : σ} (hrest : text ≠ []) (hnothing : outlet.taken text s = 0) :
      Sends outlet text s 1 (outlet.write text s).2
  | advanced {text : List Char} {s t : σ} {writes : Nat} (hrest : text ≠ [])
      (hsome : 0 < outlet.taken text s)
      (hnext : Sends outlet (text.drop (outlet.taken text s)) (outlet.write text s).2 writes t) :
      Sends outlet text s (writes + 1) t

/-- A round of the loop. -/
theorem sendRounds_succ (outlet : Outlet σ) (rounds : Nat) (hrest : text ≠ []) (s : σ) :
    outlet.sendRounds (rounds + 1) text s =
      if outlet.taken text s = 0 then (outlet.write text s).2
      else outlet.sendRounds rounds (text.drop (outlet.taken text s)) (outlet.write text s).2 := by
  rw [sendRounds, if_neg (by rwa [List.isEmpty_iff]), taken]
  cases outlet.write text s with
  | mk answer t =>
      cases answer with
      | none => rfl
      | some n => rfl

/-- With enough rounds the loop is a send, whatever the outlet does: they are never used up before it
ends. -/
theorem sends_sendRounds (outlet : Outlet σ) {rounds : Nat} (hrounds : text.length ≤ rounds)
    (s : σ) : ∃ writes, writes ≤ text.length ∧
      outlet.Sends text s writes (outlet.sendRounds rounds text s) := by
  induction rounds generalizing text s with
  | zero =>
      obtain rfl := List.eq_nil_of_length_eq_zero (Nat.le_zero.1 hrounds)
      exact ⟨0, Nat.le_refl _, .finished s⟩
  | succ rounds ih =>
      by_cases hrest : text = []
      · subst hrest
        exact ⟨0, Nat.le_refl _, .finished s⟩
      · have hlength := List.length_pos_iff.2 hrest
        rw [sendRounds_succ outlet rounds hrest]
        split
        · rename_i hnothing
          exact ⟨1, hlength, .stopped hrest hnothing⟩
        · rename_i hsome
          have hshorter : (text.drop (outlet.taken text s)).length < text.length := by
            rw [List.length_drop]
            omega
          obtain ⟨writes, hle, hnext⟩ :=
            ih (Nat.le_of_lt_succ (Nat.lt_of_lt_of_le hshorter hrounds)) (outlet.write text s).2
          exact ⟨writes + 1, Nat.lt_of_le_of_lt hle hshorter,
            .advanced hrest (Nat.pos_of_ne_zero hsome) hnext⟩

/-- Text is sent by the loop. -/
theorem sends_send (outlet : Outlet σ) (text : List Char) (s : σ) :
    ∃ writes, writes ≤ text.length ∧ outlet.Sends text s writes (outlet.send text s) :=
  outlet.sends_sendRounds (Nat.le_refl _) s

/-- The outlet alone decides how a send goes. -/
theorem Sends.unique (h : outlet.Sends text s writes t) (h' : outlet.Sends text s writes' t') :
    writes = writes' ∧ t = t' := by
  induction h generalizing writes' with
  | finished s =>
      cases h' with
      | finished s => exact ⟨rfl, rfl⟩
      | stopped hrest hnothing => exact absurd rfl hrest
      | advanced hrest hsome hnext => exact absurd rfl hrest
  | stopped hrest hnothing =>
      cases h' with
      | finished s => exact absurd rfl hrest
      | stopped hrest' hnothing' => exact ⟨rfl, rfl⟩
      | advanced hrest' hsome hnext => exact absurd hnothing (Nat.pos_iff_ne_zero.1 hsome)
  | advanced hrest hsome hnext ih =>
      cases h' with
      | finished s => exact absurd rfl hrest
      | stopped hrest' hnothing => exact absurd hnothing (Nat.pos_iff_ne_zero.1 hsome)
      | advanced hrest' hsome' hnext' =>
          obtain ⟨rfl, rfl⟩ := ih hnext'
          exact ⟨rfl, rfl⟩

/-- However a send goes, what is received of it is a start of the text. -/
theorem Sends.received_take (h : outlet.Sends text s writes t) (hlawful : outlet.Lawful received) :
    ∃ n, received t = received s ++ text.take n := by
  induction h with
  | finished s => exact ⟨0, (List.append_nil _).symm⟩
  | stopped hrest hnothing => exact ⟨_, hlawful.received_write _ _⟩
  | @advanced text s t writes hrest hsome hnext ih =>
      obtain ⟨n, hreceived⟩ := ih
      refine ⟨outlet.taken text s + n, ?_⟩
      rw [hreceived, hlawful.received_write, List.append_assoc, ← List.take_add]

/-- If every write takes something, all of the text is received. -/
theorem Sends.received_all (h : outlet.Sends text s writes t) (hlawful : outlet.Lawful received)
    {meant : σ → Prop} (haccepts : outlet.Accepts meant) (hmeant : meant s) :
    received t = received s ++ text := by
  induction h with
  | finished s => exact (List.append_nil _).symm
  | stopped hrest hnothing =>
      obtain ⟨hsome, -⟩ := haccepts _ _ hmeant hrest
      exact absurd hnothing (Nat.pos_iff_ne_zero.1 hsome)
  | advanced hrest hsome hnext ih =>
      obtain ⟨-, hstays⟩ := haccepts _ _ hmeant hrest
      rw [ih hstays, hlawful.received_write, List.append_assoc, List.take_append_drop]

/-- If the first write takes nothing, it is the only one, and nothing is received. -/
theorem Sends.received_nothing (h : outlet.Sends text s writes t) (hlawful : outlet.Lawful received)
    (hnothing : outlet.taken text s = 0) :
    writes ≤ 1 ∧ received t = received s := by
  cases h with
  | finished s => exact ⟨Nat.zero_le 1, rfl⟩
  | stopped hrest hnone =>
      refine ⟨Nat.le_refl 1, ?_⟩
      rw [hlawful.received_write, hnothing, List.take_zero, List.append_nil]
  | advanced hrest hsome hnext => exact absurd hnothing (Nat.pos_iff_ne_zero.1 hsome)

end Outlet

/-! ## Standard error -/

namespace Kernel

open Outlet

variable {k k' : Kernel} {text : List Char} {writes : Nat}

/-- A write takes a chunk at most. -/
theorem taken_standardError (text : List Char) (k : Kernel) :
    standardError.taken text k = min k.knobs.writeChunk text.length := by
  show (k.writeError text).1.getD 0 = min k.knobs.writeChunk text.length
  rw [writeError]
  split
  · rename_i hchunk
    rw [hchunk, Nat.zero_min]
    rfl
  · rfl

/-- A write changes nothing but what was written. -/
theorem writeError_snd (text : List Char) (k : Kernel) :
    (k.writeError text).2 =
      { k with errorOutput := k.errorOutput ++ text.take (standardError.taken text k) } := by
  rw [taken_standardError, writeError]
  split
  · rename_i hchunk
    rw [hchunk, Nat.zero_min, List.take_zero, List.append_nil]
  · rfl

theorem standardError_lawful : standardError.Lawful errorOutput where
  taken_le text k := by
    rw [taken_standardError]
    exact Nat.min_le_right _ _
  received_write text k := congrArg errorOutput (writeError_snd text k)

/-- A kernel whose chunk is not zero takes something of every write. -/
theorem standardError_accepts : standardError.Accepts fun k => 0 < k.knobs.writeChunk := by
  intro text k hchunk hrest
  constructor
  · rw [taken_standardError]
    exact Nat.lt_min.2 ⟨hchunk, List.length_pos_iff.2 hrest⟩
  · show 0 < (k.writeError text).2.knobs.writeChunk
    rw [writeError_snd]
    exact hchunk

/-- Text is sent to standard error by the loop. -/
theorem sends_sendError (text : List Char) (k : Kernel) :
    ∃ writes, standardError.Sends text k writes (k.sendError text) := by
  obtain ⟨writes, -, hsends⟩ := standardError.sends_send text k
  exact ⟨writes, hsends⟩

/-- A send changes nothing but what was written. -/
theorem eq_of_sends (h : standardError.Sends text k writes k') :
    k' = { k with errorOutput := k'.errorOutput } := by
  induction h with
  | finished k => rfl
  | @stopped text k hrest hnothing =>
      show (k.writeError text).2 = { k with errorOutput := (k.writeError text).2.errorOutput }
      rw [writeError_snd]
  | @advanced text k k' writes hrest hsome hnext ih =>
      have hwrite : (standardError.write text k).2 = _ := writeError_snd text k
      rw [hwrite] at ih
      exact ih

/-- A kernel that takes something of every write gets the text, once and in order. -/
theorem sendError_eq (text : List Char) {k : Kernel} (hchunk : 0 < k.knobs.writeChunk) :
    k.sendError text = { k with errorOutput := k.errorOutput ++ text } := by
  obtain ⟨writes, hsends⟩ := sends_sendError text k
  have hreceived : (k.sendError text).errorOutput = k.errorOutput ++ text :=
    hsends.received_all standardError_lawful standardError_accepts hchunk
  rw [eq_of_sends hsends, hreceived]

/-- A kernel that takes nothing is left as it was. -/
theorem sendError_eq_self (text : List Char) {k : Kernel} (hchunk : k.knobs.writeChunk = 0) :
    k.sendError text = k := by
  obtain ⟨writes, hsends⟩ := sends_sendError text k
  have hnothing : standardError.taken text k = 0 := by
    rw [taken_standardError, hchunk, Nat.zero_min]
  have hreceived : (k.sendError text).errorOutput = k.errorOutput :=
    (hsends.received_nothing standardError_lawful hnothing).2
  rw [eq_of_sends hsends, hreceived]

end Kernel
end PagedHeap
