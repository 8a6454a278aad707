import PagedHeap.Proofs.Action
import PagedHeap.Proofs.Page.Ranges

/-!
# What the cache of ranges does

Every operation of the cache reshapes the ranges it holds and those that go in or come out,
and keeps count of them.  None of them ends the process: its checked sums and differences
are in range as long as the count is right.
-/

namespace PagedHeap
namespace RangeCache

open Ranges

variable {c c' : RangeCache} {slots : List (Option Range)} {r : Range}

/-- The ranges in a list of slots. -/
def held (slots : List (Option Range)) : List Range := slots.filterMap id

/-- The slots hold tidy ranges, and their bytes are counted. -/
structure Valid (c : RangeCache) : Prop where
  slots_length : c.slots.length = cacheSlots
  cachedBytes_eq : c.cachedBytes = total c.ranges
  tidy : Tidy c.ranges

theorem valid_empty : empty.Valid := by
  have hranges : empty.ranges = [] := rfl
  refine ⟨rfl, ?_, ?_⟩
  · rw [hranges]
    rfl
  · rw [hranges]
    exact tidy_nil

/-! ## Slots -/

theorem mem_held : r ∈ held slots ↔ some r ∈ slots := by
  rw [held, List.mem_filterMap]
  exact ⟨fun ⟨_, hslot, heq⟩ => heq ▸ hslot, fun hslot => ⟨some r, hslot, rfl⟩⟩

/-- What is in a slot, and what is in the others. -/
theorem held_perm {i : Nat} {slot : Option Range} (h : slots[i]? = some slot) :
    (held slots).Perm (slot.toList ++ held (slots.set i none)) := by
  induction slots generalizing i with
  | nil => exact absurd h (by simp)
  | cons first rest ih =>
      cases i with
      | zero =>
          obtain rfl : first = slot := by simpa using h
          cases first with
          | none => exact List.Perm.refl _
          | some r => exact List.Perm.refl _
      | succ i =>
          have hrest := ih (by simpa using h)
          cases first with
          | none => exact hrest
          | some r => exact (hrest.cons r).trans List.perm_middle.symm

theorem held_set_none_subset {i : Nat} {slot : Option Range} (h : slots[i]? = some slot) :
    held (slots.set i none) ⊆ held slots :=
  List.Subset.trans (List.subset_append_right _ _) (held_perm h).symm.subset

theorem held_set_perm {i : Nat} (hi : i < slots.length) (slot : Option Range) :
    (held (slots.set i slot)).Perm (slot.toList ++ held (slots.set i none)) := by
  have hperm : (held (slots.set i slot)).Perm
      (slot.toList ++ held ((slots.set i slot).set i none)) :=
    held_perm (List.getElem?_set_self hi)
  rwa [List.set_set] at hperm

theorem slot?_eq_some {i : Nat} (h : c.slots[i]? = some (some r)) : c.slot? i = some r := by
  rw [slot?, h]
  rfl

/-- The range chosen is eligible, and it is in the slot given. -/
theorem choose_eq_some {eligible : Range → Bool} {replaces : Range → Range → Bool} {i : Nat}
    (h : choose eligible replaces slots = some (i, r)) :
    slots[i]? = some (some r) ∧ eligible r = true := by
  induction slots generalizing i r with
  | nil => exact absurd h (by simp [choose])
  | cons first rest ih =>
      cases hrest : choose eligible replaces rest with
      | none =>
          cases first with
          | none => simp [choose, hrest] at h
          | some candidate =>
              simp only [choose, hrest, Option.map_none] at h
              split at h
              · rename_i heligible
                obtain ⟨rfl, rfl⟩ := Prod.mk.inj (Option.some.inj h)
                exact ⟨rfl, heligible⟩
              · exact absurd h (by simp)
      | some found =>
          obtain ⟨j, later⟩ := found
          obtain ⟨hslot, heligible⟩ := ih hrest
          cases first with
          | none =>
              simp only [choose, hrest, Option.map_some] at h
              obtain ⟨rfl, rfl⟩ := Prod.mk.inj (Option.some.inj h)
              exact ⟨hslot, heligible⟩
          | some candidate =>
              simp only [choose, hrest, Option.map_some] at h
              split at h
              · rename_i hboth
                obtain ⟨rfl, rfl⟩ := Prod.mk.inj (Option.some.inj h)
                rw [Bool.and_eq_true] at hboth
                exact ⟨rfl, hboth.1⟩
              · obtain ⟨rfl, rfl⟩ := Prod.mk.inj (Option.some.inj h)
                exact ⟨hslot, heligible⟩

/-- Nothing is chosen only if nothing is eligible. -/
theorem choose_eq_none {eligible : Range → Bool} {replaces : Range → Range → Bool}
    (h : choose eligible replaces slots = none) : ∀ r ∈ held slots, eligible r = false := by
  induction slots with
  | nil => exact fun r hr => absurd hr (by simp [held])
  | cons first rest ih =>
      cases hrest : choose eligible replaces rest with
      | some found =>
          obtain ⟨j, later⟩ := found
          cases first with
          | none => simp [choose, hrest] at h
          | some candidate =>
              simp only [choose, hrest, Option.map_some] at h
              split at h <;> exact absurd h (by simp)
      | none =>
          cases first with
          | none => exact ih hrest
          | some candidate =>
              simp only [choose, hrest, Option.map_none] at h
              split at h
              · exact absurd h (by simp)
              · rename_i hnot
                intro r hr
                rcases List.mem_cons.1 (show r ∈ candidate :: held rest from hr) with rfl | hr
                · simpa using hnot
                · exact ih hrest r hr

/-! ## Taking ranges out -/

/-- `r` was taken out of `c`, which leaves `c'`. -/
structure Cuts (c : RangeCache) (r : Range) (c' : RangeCache) : Prop where
  valid : c'.Valid
  reshapes : Reshapes c.ranges (r :: c'.ranges)
  counted : c'.cachedBytes + r.len = c.cachedBytes
  coalesced : Coalesced c.ranges → Coalesced c'.ranges

theorem Valid.len_le (h : c.Valid) {i : Nat} (hi : c.slots[i]? = some (some r)) :
    r.len ≤ c.cachedBytes := by
  have htotal := (Reshapes.of_perm (held_perm hi)).total_eq
  rw [h.cachedBytes_eq, ← show total (held c.slots) = total c.ranges from rfl, ← htotal]
  show r.len ≤ total (r :: held (c.slots.set i none))
  rw [total_cons]
  exact Nat.le_add_right _ _

/-- What replaces the range in a slot decides what is taken out of the cache. -/
theorem Valid.cuts_set (h : c.Valid) {i : Nat} (hi : c.slots[i]? = some (some r))
    {taken : Range} {rest : Option Range} (hreshapes : Reshapes [r] (taken :: rest.toList))
    {cachedBytes : Nat} (hcounted : cachedBytes + taken.len = c.cachedBytes)
    (hcoalesced : Coalesced (r :: held (c.slots.set i none)) →
      Coalesced (rest.toList ++ held (c.slots.set i none))) :
    Cuts c taken ⟨c.slots.set i rest, cachedBytes⟩ := by
  have hlt : i < c.slots.length := (List.getElem?_eq_some_iff.1 hi).1
  have hall : Reshapes c.ranges (taken :: held (c.slots.set i rest)) := by
    have hout := Reshapes.of_perm (held_perm hi)
    have hcut := hreshapes.append_right (held (c.slots.set i none))
    have hin := ((held_set_perm hlt rest).cons taken).symm
    exact (hout.trans hcut).trans (Reshapes.of_perm hin)
  refine ⟨⟨?_, ?_, ?_⟩, hall, hcounted, fun hbefore => ?_⟩
  · rw [List.length_set]
    exact h.slots_length
  · have htotal := hall.total_eq
    rw [total_cons, ← h.cachedBytes_eq] at htotal
    show cachedBytes = total (held (c.slots.set i rest))
    omega
  · exact (tidy_cons.1 (hall.tidy h.tidy)).2.2
  · have hout : Coalesced (r :: held (c.slots.set i none)) :=
      hbefore.of_subset (held_perm hi).symm.subset
    exact (hcoalesced hout).of_subset (held_set_perm hlt rest).subset

theorem Valid.proper (h : c.Valid) {i : Nat} (hi : c.slots[i]? = some (some r)) : r.Proper := by
  apply h.tidy.proper
  apply (held_perm hi).mem_iff.2
  exact List.mem_cons_self

theorem Valid.ensures_cutFront (h : c.Valid) {i len : Nat} (hi : c.slots[i]? = some (some r))
    (hpos : 0 < len) (hle : len ≤ r.len) (hmod : len % pageSize = 0) :
    Action.Ensures (cutFront i r len) c (fun taken c' => taken = r.front len ∧ Cuts c taken c')
      Action.never := by
  have hbytes := h.len_le hi
  have hproper := h.proper hi
  have hstop := hproper.stop_le
  have hsub : Word.sub? c.cachedBytes len = some (c.cachedBytes - len) :=
    Word.sub?_eq_some_iff.2 ⟨by omega, rfl⟩
  have hadd : Word.add? r.address len = some (r.address + len) := by
    rw [Word.add?_eq_some_iff]
    refine ⟨rfl, ?_⟩
    simp only [Word.signedLimit, Word.limit] at hstop ⊢
    omega
  unfold cutFront
  simp only [Action.ensures_bind, Action.ensures_get, hsub, hadd, Action.ensures_checked_some,
    Action.ensures_set, Action.ensures_pure]
  refine ⟨trivial, ?_⟩
  by_cases hall : r.len = len
  · rw [if_pos hall]
    apply h.cuts_set hi
    · subst hall
      exact Reshapes.refl [r]
    · show c.cachedBytes - len + len = c.cachedBytes
      omega
    · exact fun hbefore => hbefore.of_subset (List.subset_cons_self _ _)
  · rw [if_neg hall]
    have htidy : Tidy (r :: held (c.slots.set i none)) :=
      (Reshapes.of_perm (held_perm hi)).tidy h.tidy
    apply h.cuts_set hi
    · exact Reshapes.cut hpos (by omega) hmod
    · show c.cachedBytes - len + len = c.cachedBytes
      omega
    · exact fun hbefore => hbefore.cut htidy hpos (by omega)

theorem Valid.ensures_take (h : c.Valid) {size : Nat} (hpos : 0 < size)
    (hmod : size % pageSize = 0) :
    Action.Ensures (take size) c
      (fun range? c' => match range? with
        | none => c' = c
        | some taken => taken.len = size ∧ Cuts c taken c')
      Action.never := by
  unfold take
  simp only [Action.ensures_bind, Action.ensures_get]
  cases hfit : c.bestFit? size with
  | none => exact .answer rfl
  | some found =>
      obtain ⟨i, r⟩ := found
      obtain ⟨hslot, hle⟩ := choose_eq_some hfit
      rw [Action.ensures_map]
      apply (h.ensures_cutFront hslot hpos (by simpa using hle) hmod).weaken
      rintro taken c' ⟨rfl, hcuts⟩
      exact ⟨rfl, hcuts⟩

theorem Valid.ensures_takeAt (h : c.Valid) {address len : Nat} (hpos : 0 < len)
    (hmod : len % pageSize = 0) :
    Action.Ensures (takeAt address len) c
      (fun range? c' => match range? with
        | none => c' = c
        | some taken => taken.address = address ∧ taken.len = len ∧ Cuts c taken c')
      Action.never := by
  unfold takeAt
  simp only [Action.ensures_bind, Action.ensures_get]
  cases hfound : c.startingAt? address len with
  | none => exact .answer rfl
  | some found =>
      obtain ⟨i, r⟩ := found
      obtain ⟨hslot, heligible⟩ := choose_eq_some hfound
      rw [Bool.and_eq_true, beq_iff_eq, decide_eq_true_iff] at heligible
      rw [Action.ensures_map]
      apply (h.ensures_cutFront hslot hpos heligible.2 hmod).weaken
      rintro taken c' ⟨rfl, hcuts⟩
      exact ⟨heligible.1, rfl, hcuts⟩

theorem Valid.length_ranges_le (h : c.Valid) : c.ranges.length ≤ cacheSlots := by
  rw [← h.slots_length]
  exact List.length_filterMap_le _ _

end RangeCache
end PagedHeap
