import PagedHeap.Proofs.Kernel.InUse

/-!
# What the record of calls tells

The kernel keeps the calls that a process made.  From the record alone one can tell which bytes
of the arena the process has obtained and not given back, and whether it ever gave back what it
did not have.
-/

namespace PagedHeap
namespace Call

/-- The bytes that a call brought into use. -/
def gained : Call → Set Nat
  | mapAny _ len (some address) | mapExact _ len (some address) => bytesAt address len
  | remap address old new true => bytesAt (address + old) (new - old)
  | moveBreak delta (some current) => bytesAt current delta.toNat
  | _ => ∅

/-- The bytes below the program break that a call took out of use. -/
def lowered : Call → Set Nat
  | moveBreak delta (some current) => bytesAt (current + delta).toNat (-delta).toNat
  | _ => ∅

/-- The bytes that a call took out of use; unmapping has no effect outside of the arena. -/
def lost : Call → Set Nat
  | unmap address len => {x ∈ bytesAt address len | arenaBase ≤ x}
  | call => call.lowered

/-- The bytes that a call was to take out of use, or whose content it was to drop. -/
def struck : Call → Set Nat
  | unmap address len | advise address len .dontneed => bytesAt address len
  | call => call.lowered

theorem lost_subset_struck (call : Call) : call.lost ⊆ call.struck := by
  cases call with
  | unmap address len => exact fun x hx => hx.1
  | advise address len advice => exact Set.empty_subset _
  | mapAny hint len answer => exact Set.Subset.refl _
  | mapExact address len answer => exact Set.Subset.refl _
  | remap address old new done => exact Set.Subset.refl _
  | moveBreak delta answer => exact Set.Subset.refl _

theorem lowered_subset_struck (call : Call) : call.lowered ⊆ call.struck := by
  cases call with
  | moveBreak delta answer => exact Set.Subset.refl _
  | unmap address len => exact Set.empty_subset _
  | advise address len advice => exact Set.empty_subset _
  | mapAny hint len answer => exact Set.empty_subset _
  | mapExact address len answer => exact Set.empty_subset _
  | remap address old new done => exact Set.empty_subset _

/-- What a move of the break to `current + len` brings into use, and what one back takes. -/
theorem gained_moveBreak (current len : Nat) :
    (moveBreak len (some current)).gained = bytesAt current len := rfl

theorem lowered_moveBreak_up (current len : Nat) :
    (moveBreak len (some current)).lowered = ∅ := by
  rw [lowered, show (-(len : Int)).toNat = 0 by omega]
  exact bytesAt_zero _

theorem gained_moveBreak_down (current len : Nat) :
    (moveBreak (-(len : Int)) (some current)).gained = ∅ := by
  rw [gained, show (-(len : Int)).toNat = 0 by omega]
  exact bytesAt_zero _

theorem lowered_moveBreak_down {current len : Nat} (hle : len ≤ current) :
    (moveBreak (-(len : Int)) (some current)).lowered = bytesAt (current - len) len := by
  rw [lowered, show ((current : Int) + -(len : Int)).toNat = current - len by omega,
    show (-(-(len : Int))).toNat = len by omega]

/-- The bytes that a mapping call got, if it got any. -/
def bytesGot (len : Nat) : Option Nat → Set Nat
  | some address => bytesAt address len
  | none => ∅

theorem gained_mapAny (hint len : Nat) (answer : Option Nat) :
    (mapAny hint len answer).gained = bytesGot len answer := by
  cases answer with
  | some address => rfl
  | none => rfl

theorem gained_mapExact (address len : Nat) (answer : Option Nat) :
    (mapExact address len answer).gained = bytesGot len answer := by
  cases answer with
  | some got => rfl
  | none => rfl

theorem gained_remap (address old new : Nat) (done : Bool) :
    (remap address old new done).gained =
      bytesGot (new - old) (if done = true then some (address + old) else none) := by
  cases done with
  | true => rfl
  | false => rfl

/-! ## What a record tells -/

/-- The bytes of the arena that the calls of a record, the latest first, obtained and did not give
back. -/
def owned : List Call → Set Nat
  | [] => ∅
  | call :: calls => owned calls \ call.lost ∪ {x ∈ call.gained | arenaBase ≤ x}

/-- Every call of a record obtained bytes of the arena that were not owned, and gave back only
what was. -/
def Lawful : List Call → Prop
  | [] => True
  | call :: calls =>
      Disjoint call.gained (owned calls) ∧ (∀ x ∈ call.lost, arenaBase ≤ x → x ∈ owned calls) ∧
        Lawful calls

/-- The calls that were made since a record was as before. -/
def since (before after : List Call) : List Call := after.take (after.length - before.length)

theorem since_append (made before : List Call) : since before (made ++ before) = made := by
  rw [since, List.length_append, Nat.add_sub_cancel, List.take_left]

/-- By the record, what a process owns of the arena is what is in use there, but not by others. -/
structure Tells (k : Kernel) (others : Set Nat) (record : List Call) : Prop where
  others_used : others ⊆ k.inUse
  mem_owned : ∀ x, x ∈ owned record ↔ x ∈ k.inUse ∧ arenaBase ≤ x ∧ x ∉ others
  lawful : Lawful record

end Call

/-! ## The record of a call -/

namespace Kernel

theorem calls_mapAt (k : Kernel) (place? : Option Nat) (count : Nat) :
    (k.mapAt place? count).2.calls = k.calls := by
  unfold mapAt
  simp only
  split
  · rfl
  · cases place? with
    | none => rfl
    | some first => rfl

theorem calls_mapAny (k : Kernel) (hint len : Nat) :
    (k.mapAny hint len).2.calls = .mapAny hint len (k.mapAny hint len).1 :: k.calls :=
  congrArg (List.cons _) (k.calls_mapAt _ _)

theorem calls_mapExact (k : Kernel) (address len : Nat) :
    (k.mapExact address len).2.calls = .mapExact address len (k.mapExact address len).1 :: k.calls :=
  congrArg (List.cons _) (k.calls_mapAt _ _)

theorem calls_remap (k : Kernel) (address old new : Nat) :
    (k.remap address old new).2.calls =
      .remap address old new (k.remap address old new).1 :: k.calls := by
  unfold remap
  simp only
  split
  · rfl
  · rfl

theorem calls_moveBreak (k : Kernel) {delta : Int} (hdelta : delta ≠ 0) :
    (k.moveBreak delta).2.calls = .moveBreak delta (k.moveBreak delta).1 :: k.calls := by
  unfold moveBreak
  rw [if_neg hdelta]
  simp only
  split
  · rfl
  · rfl

/-- Advice has no effect but on the content of the bytes that it is to drop. -/
theorem byteAt_advise (k : Kernel) {address len x : Nat} {advice : Advice}
    (hx : x ∉ (Call.advise address len advice).struck) :
    (k.advise address len advice).memory.byteAt x = k.memory.byteAt x := by
  cases advice with
  | dontneed => exact Memory.byteAt_clear_outside hx
  | huge => rfl
  | nohuge => rfl

end Kernel
end PagedHeap
