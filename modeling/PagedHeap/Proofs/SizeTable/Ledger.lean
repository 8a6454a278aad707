import Mathlib.Data.Finmap
import PagedHeap.Proofs.SizeTable.FiniteMap

/-!
# Runs of requests to a table of sizes

The owner of a table inserts, sets, gets and removes sizes.  An insertion comes with what
the kernel answers if the table has to grow for it.  A `Ledger` is a finite map that is asked
the same; all it knows of slots is how many there are, which is what makes an insertion need
storage.  From the empty table on, a table and a ledger give the same answers.
-/

namespace PagedHeap

/-- What the owner of a table of sizes asks of it. -/
inductive TableRequest where
  /-- Add an entry; there is storage for a larger table at an address, or there is none. -/
  | insert (page size : Nat) (storage? : Option Nat)
  | set (page size : Nat)
  | get (page : Nat)
  | remove (page : Nat)
  deriving DecidableEq, Repr

inductive TableAnswer where
  | done (ok : Bool)
  | size (size? : Option Nat)
  deriving DecidableEq, Repr

namespace SizeTable

/-- Add an entry, in a larger table if there is no room for it in this one. -/
def insert (t : SizeTable) (page size : Nat) (storage? : Option Nat) : Bool × SizeTable :=
  if t.needsRoom then
    match storage? with
    | none => (false, t)
    | some storage => (true, (t.rehash t.nextCapacity storage).add page size)
  else (true, t.add page size)

def serve (t : SizeTable) : TableRequest → TableAnswer × SizeTable
  | .insert page size storage? => (t.insert page size storage?).map .done id
  | .set page size => (t.set page size).map .done id
  | .get page => (.size (t.get? page), t)
  | .remove page => (t.remove page).map .size id

/-- The answers to a list of requests and the table after them. -/
def run (t : SizeTable) : List TableRequest → List TableAnswer × SizeTable
  | [] => ([], t)
  | r :: requests =>
      ((t.serve r).1 :: ((t.serve r).2.run requests).1, ((t.serve r).2.run requests).2)

end SizeTable

/-- A finite map of sizes, kept in a table with this number of slots. -/
structure Ledger where
  sizes : Finmap fun _ : Nat => Nat
  capacity : Nat

namespace Ledger

def empty : Ledger := ⟨∅, 0⟩

/-- Whether the table is too small for one entry more. -/
def needsRoom (m : Ledger) : Prop := m.capacity < 2 * (m.sizes.keys.card + 1)

instance (m : Ledger) : Decidable m.needsRoom := inferInstanceAs (Decidable (_ < _))

/-- The number of slots after the table has grown. -/
def nextCapacity (m : Ledger) : Nat :=
  if m.capacity = 0 then SizeTable.minCapacity else 2 * m.capacity

def serve (m : Ledger) : TableRequest → TableAnswer × Ledger
  | .insert page size storage? =>
      if m.needsRoom then
        match storage? with
        | none => (.done false, m)
        | some _ => (.done true, ⟨m.sizes.insert page size, m.nextCapacity⟩)
      else (.done true, ⟨m.sizes.insert page size, m.capacity⟩)
  | .set page size =>
      if page ∈ m.sizes then (.done true, ⟨m.sizes.insert page size, m.capacity⟩)
      else (.done false, m)
  | .get page => (.size (m.sizes.lookup page), m)
  | .remove page => (.size (m.sizes.lookup page), ⟨m.sizes.erase page, m.capacity⟩)

def run (m : Ledger) : List TableRequest → List TableAnswer × Ledger
  | [] => ([], m)
  | r :: requests =>
      ((m.serve r).1 :: ((m.serve r).2.run requests).1, ((m.serve r).2.run requests).2)

/-- The owner adds entries only for pages that have none, and never for page zero. -/
def Permits (m : Ledger) : TableRequest → Prop
  | .insert page _ _ => page ≠ 0 ∧ page ∉ m.sizes
  | _ => True

instance (m : Ledger) : DecidablePred m.Permits
  | .insert page _ _ => inferInstanceAs (Decidable (page ≠ 0 ∧ page ∉ m.sizes))
  | .set _ _ => instDecidableTrue
  | .get _ => instDecidableTrue
  | .remove _ => instDecidableTrue

/-- Each request is permitted when its turn comes. -/
def PermitsAll (m : Ledger) : List TableRequest → Prop
  | [] => True
  | r :: requests => m.Permits r ∧ (m.serve r).2.PermitsAll requests

instance decidablePermitsAll (m : Ledger) : (requests : List TableRequest) →
    Decidable (m.PermitsAll requests)
  | [] => instDecidableTrue
  | r :: requests =>
      have := decidablePermitsAll (m.serve r).2 requests
      inferInstanceAs (Decidable (m.Permits r ∧ (m.serve r).2.PermitsAll requests))

end Ledger

namespace SizeTable

variable {t : SizeTable} {m : Ledger}

/-! ## Loops -/

/-- In these slots every loop of the operations comes to its end, in one turn around the
table at most, and what the bounded definitions compute is what the loop comes to. -/
structure LoopsEnd (slots : Array (Option SizeEntry)) : Prop where
  probe : ∀ page, ∃ rounds, rounds ≤ slots.size ∧
    Probes slots page rounds (home slots.size page)
      (SizeTable.probe slots page slots.size (home slots.size page))
  place : ∀ page, ∃ rounds, rounds ≤ slots.size ∧
    Seeks slots rounds (home slots.size page)
      (emptyFrom slots slots.size (home slots.size page))
  closeHole : ∀ hole e, entryAt slots hole = some e → ∃ rounds, rounds ≤ slots.size ∧
    Closes rounds hole ((hole + 1) % slots.size) slots
      (SizeTable.closeHole slots.size hole ((hole + 1) % slots.size) slots)

theorem Sorted.loopsEnd {slots : Array (Option SizeEntry)} (h : Sorted slots) :
    LoopsEnd slots := by
  refine ⟨?_, ?_, ?_⟩
  · intro page
    by_cases hpresent : ∃ i e, entryAt slots i = some e ∧ e.page = page
    · obtain ⟨i, e, he, rfl⟩ := hpresent
      obtain ⟨rounds, hrounds, hprobes⟩ := h.probes_of_entry he
      exact ⟨rounds, hrounds, by rw [hprobes.probe_eq hrounds]; exact hprobes⟩
    · push Not at hpresent
      obtain ⟨rounds, hrounds, hprobes⟩ := h.probes_of_absent hpresent
      exact ⟨rounds, hrounds, by rw [hprobes.probe_eq hrounds]; exact hprobes⟩
  · intro page
    obtain ⟨d, hd, hseeks, -⟩ := h.seeks_home page
    exact ⟨d + 1, hd, by rw [hseeks.emptyFrom_eq hd]; exact hseeks⟩
  · intro hole e he
    obtain ⟨rounds, closed, hrounds, -, -, hcloses⟩ := h.exists_closes he
    exact ⟨rounds, hrounds, by rw [hcloses.closeHole_eq hrounds]; exact hcloses⟩

/-! ## One request -/

/-- The table holds what the ledger says. -/
structure Represents (t : SizeTable) (m : Ledger) : Prop where
  valid : t.Valid
  get?_eq : ∀ page, t.get? page = m.sizes.lookup page
  capacity_eq : t.capacity = m.capacity

theorem represents_empty : empty.Represents Ledger.empty where
  valid := valid_empty
  get?_eq page := by
    show none = (∅ : Finmap fun _ : Nat => Nat).lookup page
    rw [Finmap.lookup_empty]
  capacity_eq := rfl

theorem Represents.len_eq (h : t.Represents m) : t.len = m.sizes.keys.card := by
  have hkeys : m.sizes.keys = t.pages := by
    ext page
    rw [Finmap.mem_keys, Finmap.mem_iff, h.valid.mem_pages, h.get?_eq]
  rw [hkeys, h.valid.card_pages]

theorem Represents.needsRoom_iff (h : t.Represents m) : t.needsRoom = true ↔ m.needsRoom := by
  rw [needsRoom, decide_eq_true_iff, Ledger.needsRoom, h.capacity_eq, h.len_eq,
    Nat.mul_comm]

/-- One entry more in both. -/
theorem Represents.add (h : t.Represents m) (hroom : t.needsRoom = false) {page : Nat}
    (habsent : page ∉ m.sizes) (size : Nat) :
    (t.add page size).Represents ⟨m.sizes.insert page size, m.capacity⟩ := by
  have hnone : t.get? page = none := by
    rw [h.get?_eq]
    exact Finmap.lookup_eq_none.2 habsent
  obtain ⟨hvalid, hcap, hget⟩ := h.valid.add hroom hnone size
  refine ⟨hvalid, fun p => ?_, hcap.trans h.capacity_eq⟩
  rw [hget]
  split
  · rename_i hp
    rw [hp, Finmap.lookup_insert]
  · rename_i hp
    rw [Finmap.lookup_insert_of_ne _ hp, h.get?_eq]

/-- The same entries in more slots. -/
theorem Represents.rehash (h : t.Represents m) (storage : Nat) :
    (t.rehash t.nextCapacity storage).Represents ⟨m.sizes, m.nextCapacity⟩ ∧
      (t.rehash t.nextCapacity storage).needsRoom = false := by
  obtain ⟨hpower, hmin, hroom⟩ := h.valid.nextCapacity
  obtain ⟨hvalid, hcap, hget⟩ := h.valid.rehash hpower hmin (by omega) storage
  refine ⟨⟨hvalid, fun page => (hget page).trans (h.get?_eq page), ?_⟩, ?_⟩
  · rw [hcap, nextCapacity, Ledger.nextCapacity, h.capacity_eq, Nat.mul_comm]
  · rw [needsRoom, decide_eq_false_iff_not, hcap]
    show ¬t.nextCapacity < (t.len + 1) * 2
    omega

theorem Represents.insert (h : t.Represents m) {page : Nat} (habsent : page ∉ m.sizes)
    (size : Nat) (storage? : Option Nat) :
    (t.serve (.insert page size storage?)).1 = (m.serve (.insert page size storage?)).1 ∧
      (t.serve (.insert page size storage?)).2.Represents
        (m.serve (.insert page size storage?)).2 := by
  by_cases hroom : m.needsRoom
  · have hneeds := h.needsRoom_iff.2 hroom
    cases storage? with
    | none =>
        simp only [serve, SizeTable.insert, Ledger.serve, hneeds, hroom, if_true]
        exact ⟨rfl, h⟩
    | some storage =>
        obtain ⟨hgrown, hfits⟩ := h.rehash storage
        simp only [serve, SizeTable.insert, Ledger.serve, hneeds, hroom, if_true]
        exact ⟨rfl, hgrown.add hfits habsent size⟩
  · have hneeds : t.needsRoom = false := by
      rw [← Bool.not_eq_true, h.needsRoom_iff]
      exact hroom
    simp only [serve, SizeTable.insert, Ledger.serve, hneeds, hroom, if_false]
    exact ⟨rfl, h.add hneeds habsent size⟩

theorem Represents.set (h : t.Represents m) (page size : Nat) :
    (t.serve (.set page size)).1 = (m.serve (.set page size)).1 ∧
      (t.serve (.set page size)).2.Represents (m.serve (.set page size)).2 := by
  by_cases hmem : page ∈ m.sizes
  · obtain ⟨old, hold⟩ := Finmap.mem_iff.1 hmem
    rw [← h.get?_eq] at hold
    obtain ⟨hanswer, hvalid, hcap, hget⟩ := h.valid.set_of_present hold size
    simp only [serve, Ledger.serve, hmem, if_true, Prod.map, hanswer]
    refine ⟨trivial, hvalid, fun p => ?_, hcap.trans h.capacity_eq⟩
    rw [id, hget]
    split
    · rename_i hp
      rw [hp, Finmap.lookup_insert]
    · rename_i hp
      rw [Finmap.lookup_insert_of_ne _ hp, h.get?_eq]
  · have hnone : t.get? page = none := by
      rw [h.get?_eq]
      exact Finmap.lookup_eq_none.2 hmem
    simp only [serve, Ledger.serve, hmem, if_false, h.valid.set_of_absent hnone]
    exact ⟨rfl, h⟩

theorem Represents.remove (h : t.Represents m) (page : Nat) :
    (t.serve (.remove page)).1 = (m.serve (.remove page)).1 ∧
      (t.serve (.remove page)).2.Represents (m.serve (.remove page)).2 := by
  cases hget : t.get? page with
  | none =>
      have habsent : page ∉ m.sizes := by
        rw [← Finmap.lookup_eq_none, ← h.get?_eq, hget]
      simp only [serve, Ledger.serve, h.valid.remove_of_absent hget, ← h.get?_eq, hget]
      refine ⟨rfl, h.valid, fun p => ?_, h.capacity_eq⟩
      show t.get? p = _
      rw [h.get?_eq]
      by_cases hp : p = page
      · rw [hp, Finmap.lookup_erase, Finmap.lookup_eq_none.2 habsent]
      · rw [Finmap.lookup_erase_ne hp]
  | some size =>
      obtain ⟨hanswer, hvalid, hcap, hrest⟩ := h.valid.remove_of_present hget
      simp only [serve, Ledger.serve, Prod.map, hanswer, ← h.get?_eq, hget]
      refine ⟨trivial, hvalid, fun p => ?_, hcap.trans h.capacity_eq⟩
      rw [id, hrest]
      split
      · rename_i hp
        rw [hp, Finmap.lookup_erase]
      · rename_i hp
        rw [Finmap.lookup_erase_ne hp, h.get?_eq]

/-- A request is answered alike, and the table and the ledger stay alike. -/
theorem Represents.serve (h : t.Represents m) {r : TableRequest} (hpermitted : m.Permits r) :
    (t.serve r).1 = (m.serve r).1 ∧ (t.serve r).2.Represents (m.serve r).2 := by
  cases r with
  | insert page size storage? => exact h.insert hpermitted.2 size storage?
  | set page size => exact h.set page size
  | get page => exact ⟨congrArg TableAnswer.size (h.get?_eq page), h⟩
  | remove page => exact h.remove page

/-! ## Runs -/

theorem Represents.run (h : t.Represents m) {requests : List TableRequest}
    (hpermitted : m.PermitsAll requests) :
    (t.run requests).1 = (m.run requests).1 ∧ (t.run requests).2.Represents (m.run requests).2 := by
  induction requests generalizing t m with
  | nil => exact ⟨rfl, h⟩
  | cons r requests ih =>
      obtain ⟨hanswer, hserved⟩ := h.serve hpermitted.1
      obtain ⟨hanswers, hrun⟩ := ih hserved hpermitted.2
      exact ⟨congrArg₂ List.cons hanswer hanswers, hrun⟩

/-- While a table grows, the entries already in the new slots leave the loops their end. -/
theorem Valid.loopsEnd_rehash (h : t.Valid) {before after : List SizeEntry}
    (hsplit : entries t.slots = before ++ after) :
    LoopsEnd (before.foldl place (Array.replicate t.nextCapacity none)) := by
  obtain ⟨⟨k, hk⟩, -, hroom⟩ := h.nextCapacity
  have hlen : before.length ≤ t.len := by
    rw [h.len_eq, ← length_entries, hsplit, List.length_append]
    omega
  have hpages := h.pairwise_entries
  rw [hsplit] at hpages
  rw [hk] at hroom ⊢
  refine ((sorted_replicate k).foldl_place (List.pairwise_append.1 hpages).1 ?_ ?_).1.loopsEnd
  · rw [occupied_replicate, Array.size_replicate]
    omega
  · intro i e he
    rw [entryAt_replicate] at he
    exact absurd he (by simp)

/-- A table that is asked what its owner may ask answers as a finite map of sizes does, with
storage for a larger table or without.  It stays in order all the time, so that every loop
over its slots comes to its end. -/
theorem run_empty_refines_ledger (requests : List TableRequest)
    (hpermitted : Ledger.empty.PermitsAll requests) :
    (empty.run requests).1 = (Ledger.empty.run requests).1 ∧
      (empty.run requests).2.Represents (Ledger.empty.run requests).2 ∧
      (0 < (empty.run requests).2.capacity → LoopsEnd (empty.run requests).2.slots) ∧
      ∀ before after, entries (empty.run requests).2.slots = before ++ after →
        LoopsEnd (before.foldl place
          (Array.replicate (empty.run requests).2.nextCapacity none)) := by
  obtain ⟨hanswers, hrepresents⟩ := represents_empty.run hpermitted
  refine ⟨hanswers, hrepresents, ?_, ?_⟩
  · intro hcap
    exact (hrepresents.valid.sorted hcap).loopsEnd
  · intro before after hsplit
    exact hrepresents.valid.loopsEnd_rehash hsplit

/-- An insertion that gets no storage, one that gets some, and what becomes of the entry. -/
theorem run_insert_set_remove :
    (empty.run [.insert 4096 8192 none, .insert 4096 8192 (some 65536), .set 4096 12288,
        .set 8192 4096, .get 4096, .remove 8192, .remove 4096, .get 4096]).1 =
      [.done false, .done true, .done true, .done false, .size (some 12288), .size none,
        .size (some 12288), .size none] :=
  (run_empty_refines_ledger _ (by decide)).1.trans (by decide)

end SizeTable
end PagedHeap
