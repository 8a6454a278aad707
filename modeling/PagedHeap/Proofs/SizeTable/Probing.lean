import Mathlib.Data.Nat.Find
import Mathlib.Data.Nat.ModEq
import PagedHeap.Large.SizeTable

/-!
# Probe sequences

A search walks through the slots one after the other and around the end of the table, up
to the first slot that is empty or holds its page.  `Probes` and `Seeks` are the searches
without the bound that the definitions carry: a derivation is a search that comes to its
end, and the bound makes no difference to it if it is large enough.

A table is *linked* when every entry can be reached from its home without crossing an empty
slot.  This is the invariant of all operations.  Here are the arithmetic of walking around,
the outcome of a search in a linked table, and what putting an entry into its first empty
slot does to the invariant.
-/

namespace PagedHeap
namespace SizeTable

/-! ## Walking around -/

theorem add_zero_mod {n i : Nat} (hi : i < n) : (i + 0) % n = i :=
  Nat.mod_eq_of_lt hi

theorem add_one_mod_add_mod (n i d : Nat) : ((i + 1) % n + d) % n = (i + (d + 1)) % n := by
  rw [Nat.mod_add_mod]
  congr 1
  omega

/-- Two walks of one length that end in one slot start in one slot. -/
theorem eq_of_add_mod_eq {n a b d : Nat} (ha : a < n) (hb : b < n)
    (h : (a + d) % n = (b + d) % n) : a = b := by
  have hmod : a % n = b % n := Nat.ModEq.add_right_cancel' d h
  rwa [Nat.mod_eq_of_lt ha, Nat.mod_eq_of_lt hb] at hmod

theorem distance_lt {n : Nat} (hn : 0 < n) (i j : Nat) : distance n i j < n :=
  Nat.mod_lt _ hn

theorem add_distance {n i j : Nat} (hi : i < n) (hj : j < n) :
    (i + distance n i j) % n = j := by
  rw [distance, Nat.add_mod_mod, show i + (j + n - i) = j + n by omega, Nat.add_mod_right,
    Nat.mod_eq_of_lt hj]

theorem distance_add {n i d : Nat} (hi : i < n) (hd : d < n) :
    distance n i ((i + d) % n) = d := by
  have hlt : (i + d) % n < n := Nat.mod_lt _ (by omega)
  apply eq_of_add_mod_eq (distance_lt (by omega) _ _) hd
  show (distance n i ((i + d) % n) + i) % n = (d + i) % n
  rw [Nat.add_comm _ i, add_distance hi hlt, Nat.add_comm i d]

/-- If a walk of `q` steps and one of `d ≤ q` steps end in one slot, the longer one passes
the start of the shorter one. -/
theorem add_sub_mod {n a b d q : Nat} (ha : a < n) (hdq : d ≤ q)
    (h : (a + d) % n = (b + q) % n) : (b + (q - d)) % n = a := by
  have hlt : (b + (q - d)) % n < n := Nat.mod_lt _ (by omega)
  apply eq_of_add_mod_eq hlt ha
  rw [Nat.mod_add_mod, h]
  congr 1
  omega

/-- A slot `d` behind another one, if the walk to it is that long, is `d` steps farther. -/
theorem distance_add_of_le {n i j d : Nat} (hi : i < n) (hj : j < n)
    (hd : d ≤ distance n i ((j + d) % n)) :
    distance n i j + d = distance n i ((j + d) % n) := by
  have hlt := distance_lt (show 0 < n by omega) i ((j + d) % n)
  have hway := add_distance hi (Nat.mod_lt (j + d) (show n > 0 by omega))
  have hstart := add_sub_mod hj hd hway.symm
  have hrest := distance_add hi (show distance n i ((j + d) % n) - d < n by omega)
  rw [hstart] at hrest
  omega

theorem home_lt {k capacity : Nat} (hcap : capacity = 2 ^ k) (page : Nat) :
    home capacity page < capacity := by
  have hhash := Nat.mod_lt (page / pageSize * hashMultiplier) (Nat.two_pow_pos 64)
  subst hcap
  rw [home, Nat.log2_two_pow, Nat.shiftRight_eq_div_pow]
  generalize page / pageSize * hashMultiplier % 2 ^ 64 = hash at hhash
  rcases Nat.le_total k 64 with hk | hk
  · rw [Nat.div_lt_iff_lt_mul (Nat.two_pow_pos _), ← Nat.pow_add,
      show k + (64 - k) = 64 by omega]
    exact hhash
  · rw [Nat.sub_eq_zero_of_le hk, Nat.pow_zero, Nat.div_one]
    exact Nat.lt_of_lt_of_le hhash (Nat.pow_le_pow_right (by omega) hk)

/-! ## Slots -/

variable {slots : Array (Option SizeEntry)}

theorem lt_size_of_entryAt {i : Nat} {e : SizeEntry} (h : entryAt slots i = some e) :
    i < slots.size := by
  by_contra hge
  rw [entryAt, Array.getElem?_eq_none (by omega)] at h
  exact absurd h (by simp)

theorem entryAt_setIfInBounds (slots : Array (Option SizeEntry)) (i j : Nat)
    (v : Option SizeEntry) :
    entryAt (slots.setIfInBounds i v) j =
      if i = j ∧ j < slots.size then v else entryAt slots j := by
  unfold entryAt
  rw [Array.getElem?_setIfInBounds]
  by_cases hij : i = j
  · subst hij
    by_cases hlt : i < slots.size
    · simp [hlt]
    · simp [hlt]
  · simp [hij]

/-- The number of entries. -/
def occupied (slots : Array (Option SizeEntry)) : Nat := slots.countP Option.isSome

theorem occupied_setIfInBounds {i : Nat} (hi : i < slots.size) (v : Option SizeEntry) :
    occupied (slots.setIfInBounds i v) + (if (entryAt slots i).isSome then 1 else 0) =
      occupied slots + (if v.isSome then 1 else 0) := by
  have hentry : entryAt slots i = slots[i] := by
    rw [entryAt, Array.getElem?_eq_getElem hi]
    rfl
  have hpos : (if (slots[i]).isSome = true then 1 else 0) ≤ occupied slots := by
    by_cases hsome : (slots[i]).isSome = true
    · rw [if_pos hsome]
      exact Array.countP_pos_iff.2 ⟨slots[i], Array.getElem_mem hi, hsome⟩
    · rw [if_neg hsome]
      exact Nat.zero_le _
  rw [hentry, Array.setIfInBounds, dif_pos hi, occupied, Array.countP_set]
  unfold occupied at hpos ⊢
  omega

/-- A table that is not full has an empty slot. -/
theorem exists_empty (h : occupied slots < slots.size) :
    ∃ j, j < slots.size ∧ entryAt slots j = none := by
  by_contra hall
  push Not at hall
  apply Nat.lt_irrefl (occupied slots)
  have hfull : occupied slots = slots.size := by
    rw [occupied, Array.countP_eq_size]
    intro v hv
    obtain ⟨j, hj, rfl⟩ := Array.getElem_of_mem hv
    have hsome := hall j hj
    rw [entryAt, Array.getElem?_eq_getElem hj] at hsome
    exact Option.isSome_iff_ne_none.2 hsome
  omega

/-- From any slot on, an empty slot is met within one turn, and the slots on the way there
are all in use. -/
theorem exists_first_empty (h : occupied slots < slots.size) {i : Nat} (hi : i < slots.size) :
    ∃ d, d < slots.size ∧ entryAt slots ((i + d) % slots.size) = none ∧
      ∀ d', d' < d → entryAt slots ((i + d') % slots.size) ≠ none := by
  classical
  obtain ⟨j, hj, hempty⟩ := exists_empty h
  have hexists : ∃ d, entryAt slots ((i + d) % slots.size) = none :=
    ⟨distance slots.size i j, by rwa [add_distance hi hj]⟩
  refine ⟨Nat.find hexists, ?_, Nat.find_spec hexists, fun d' hd' => Nat.find_min hexists hd'⟩
  apply Nat.lt_of_le_of_lt (Nat.find_min' hexists _) (distance_lt (by omega) i j)
  rwa [add_distance hi hj]

/-! ## Searches -/

/-- The search for a page from a slot on, with no bound on it, ends after this many rounds
and with this answer. -/
inductive Probes (slots : Array (Option SizeEntry)) (page : Nat) : Nat → Nat → Option Nat → Prop
  | empty {i : Nat} (h : entryAt slots i = none) : Probes slots page 1 i none
  | found {i : Nat} {e : SizeEntry} (h : entryAt slots i = some e) (hpage : e.page = page) :
      Probes slots page 1 i (some i)
  | next {rounds i : Nat} {e : SizeEntry} {answer : Option Nat} (h : entryAt slots i = some e)
      (hpage : e.page ≠ page) (hrest : Probes slots page rounds ((i + 1) % slots.size) answer) :
      Probes slots page (rounds + 1) i answer

/-- A bound that is no less than the rounds that a search takes makes no difference. -/
theorem Probes.probe_eq {page rounds i bound : Nat} {answer : Option Nat}
    (h : Probes slots page rounds i answer) (hbound : rounds ≤ bound) :
    probe slots page bound i = answer := by
  induction h generalizing bound with
  | empty h =>
      obtain ⟨bound, rfl⟩ : ∃ b, bound = b + 1 := ⟨bound - 1, by omega⟩
      simp only [probe, h]
  | found h hpage =>
      obtain ⟨bound, rfl⟩ : ∃ b, bound = b + 1 := ⟨bound - 1, by omega⟩
      simp only [probe, h, hpage, if_true]
  | next h hpage _ ih =>
      obtain ⟨bound, rfl⟩ : ∃ b, bound = b + 1 := ⟨bound - 1, by omega⟩
      simp only [probe, h, hpage, if_false]
      exact ih (by omega)

/-- Where a search gets in `d` rounds if it meets other pages only. -/
theorem Probes.of_way {page d rounds i : Nat} {answer : Option Nat} (hi : i < slots.size)
    (hend : Probes slots page rounds ((i + d) % slots.size) answer)
    (hway : ∀ d', d' < d → ∃ e, entryAt slots ((i + d') % slots.size) = some e ∧
      e.page ≠ page) :
    Probes slots page (rounds + d) i answer := by
  induction d generalizing i with
  | zero =>
      rw [add_zero_mod hi] at hend
      exact hend
  | succ d ih =>
      obtain ⟨e, he, hpage⟩ := hway 0 (by omega)
      rw [add_zero_mod hi] at he
      refine .next he hpage (ih (Nat.mod_lt _ (by omega)) ?_ ?_)
      · rw [add_one_mod_add_mod]
        exact hend
      · intro d' hd'
        rw [add_one_mod_add_mod]
        exact hway (d' + 1) (by omega)

/-- The search for an empty slot from a slot on, with no bound on it, ends after this many
rounds and at this slot. -/
inductive Seeks (slots : Array (Option SizeEntry)) : Nat → Nat → Nat → Prop
  | empty {i : Nat} (h : entryAt slots i = none) : Seeks slots 1 i i
  | next {rounds i found : Nat} (h : entryAt slots i ≠ none)
      (hrest : Seeks slots rounds ((i + 1) % slots.size) found) : Seeks slots (rounds + 1) i found

theorem Seeks.emptyFrom_eq {rounds i found bound : Nat} (h : Seeks slots rounds i found)
    (hbound : rounds ≤ bound) : emptyFrom slots bound i = found := by
  induction h generalizing bound with
  | empty h =>
      obtain ⟨bound, rfl⟩ : ∃ b, bound = b + 1 := ⟨bound - 1, by omega⟩
      simp only [emptyFrom, h]
  | next h _ ih =>
      obtain ⟨bound, rfl⟩ : ∃ b, bound = b + 1 := ⟨bound - 1, by omega⟩
      obtain ⟨e, he⟩ := Option.ne_none_iff_exists'.1 h
      simp only [emptyFrom, he]
      exact ih (by omega)

theorem Seeks.of_way {d i : Nat} (hi : i < slots.size)
    (hempty : entryAt slots ((i + d) % slots.size) = none)
    (hway : ∀ d', d' < d → entryAt slots ((i + d') % slots.size) ≠ none) :
    Seeks slots (d + 1) i ((i + d) % slots.size) := by
  induction d generalizing i with
  | zero =>
      rw [add_zero_mod hi] at hempty ⊢
      exact .empty hempty
  | succ d ih =>
      have hfirst := hway 0 (by omega)
      rw [add_zero_mod hi] at hfirst
      rw [← add_one_mod_add_mod slots.size i d] at hempty ⊢
      refine .next hfirst (ih (Nat.mod_lt _ (by omega)) hempty ?_)
      intro d' hd'
      rw [add_one_mod_add_mod]
      exact hway (d' + 1) (by omega)

/-! ## Linked tables -/

/-- The slots from the home of `e` up to slot `i`, where `e` is, are all in use. -/
def Linked (slots : Array (Option SizeEntry)) (i : Nat) (e : SizeEntry) : Prop :=
  ∀ d, d < distance slots.size (home slots.size e.page) i →
    entryAt slots ((home slots.size e.page + d) % slots.size) ≠ none

/-- Slots whose number is a power of two, where every entry is linked to its home, no page
has two entries and one slot at least is empty. -/
structure Sorted (slots : Array (Option SizeEntry)) : Prop where
  size_eq : ∃ k, slots.size = 2 ^ k
  room : occupied slots < slots.size
  linked : ∀ i e, entryAt slots i = some e → Linked slots i e
  distinct : ∀ i j e e', entryAt slots i = some e → entryAt slots j = some e' →
    e.page = e'.page → i = j

theorem Sorted.home_lt (h : Sorted slots) (page : Nat) :
    home slots.size page < slots.size := by
  obtain ⟨k, hk⟩ := h.size_eq
  exact SizeTable.home_lt hk page

/-- A search for a page that has an entry ends at the entry, within one turn. -/
theorem Sorted.probes_of_entry (h : Sorted slots) {i : Nat} {e : SizeEntry}
    (hentry : entryAt slots i = some e) :
    ∃ rounds, rounds ≤ slots.size ∧
      Probes slots e.page rounds (home slots.size e.page) (some i) := by
  have hi := lt_size_of_entryAt hentry
  have hhome := h.home_lt e.page
  have hend := add_distance hhome hi
  have hdist := distance_lt (show 0 < slots.size by omega) (home slots.size e.page) i
  refine ⟨1 + distance slots.size (home slots.size e.page) i, by omega, ?_⟩
  apply Probes.of_way hhome
  · rw [hend]
    exact .found hentry rfl
  intro d hd
  obtain ⟨e', he'⟩ := Option.ne_none_iff_exists'.1 (h.linked i e hentry d hd)
  refine ⟨e', he', ?_⟩
  -- Another entry for the page would be in another slot, at another distance.
  intro hpage
  have hslot := h.distinct _ _ _ _ he' hentry hpage
  have hd' := distance_add hhome (show d < slots.size by omega)
  rw [hslot] at hd'
  omega

/-- A search for a page that has no entry ends at an empty slot, within one turn. -/
theorem Sorted.probes_of_absent (h : Sorted slots) {page : Nat}
    (habsent : ∀ i e, entryAt slots i = some e → e.page ≠ page) :
    ∃ rounds, rounds ≤ slots.size ∧
      Probes slots page rounds (home slots.size page) none := by
  have hhome := h.home_lt page
  obtain ⟨d, hd, hempty, hway⟩ := exists_first_empty h.room hhome
  refine ⟨1 + d, by omega, Probes.of_way hhome (.empty hempty) ?_⟩
  intro d' hd'
  obtain ⟨e', he'⟩ := Option.ne_none_iff_exists'.1 (hway d' hd')
  exact ⟨e', he', habsent _ _ he'⟩

/-- The search for an empty slot ends at one, within one turn. -/
theorem Sorted.seeks_home (h : Sorted slots) (page : Nat) :
    ∃ d, d < slots.size ∧
      Seeks slots (d + 1) (home slots.size page) ((home slots.size page + d) % slots.size) ∧
      entryAt slots ((home slots.size page + d) % slots.size) = none ∧
      ∀ d', d' < d → entryAt slots ((home slots.size page + d') % slots.size) ≠ none := by
  have hhome := h.home_lt page
  obtain ⟨d, hd, hempty, hway⟩ := exists_first_empty h.room hhome
  exact ⟨d, hd, Seeks.of_way hhome hempty hway, hempty, hway⟩

/-! ## Placing an entry -/

@[simp] theorem size_place (slots : Array (Option SizeEntry)) (entry : SizeEntry) :
    (place slots entry).size = slots.size := by
  simp [place]

/-- Placing an entry puts it into one slot that was empty, within reach of its home, and
leaves the other slots alone. -/
theorem Sorted.exists_place (h : Sorted slots) (entry : SizeEntry) :
    ∃ i, i < slots.size ∧ entryAt slots i = none ∧
      (∀ d, d < distance slots.size (home slots.size entry.page) i →
        entryAt slots ((home slots.size entry.page + d) % slots.size) ≠ none) ∧
      place slots entry = slots.setIfInBounds i (some entry) := by
  obtain ⟨d, hd, hseeks, hempty, hway⟩ := h.seeks_home entry.page
  have hhome := h.home_lt entry.page
  refine ⟨(home slots.size entry.page + d) % slots.size, Nat.mod_lt _ (by omega), hempty, ?_, ?_⟩
  · rw [distance_add hhome hd]
    exact hway
  · rw [place, hseeks.emptyFrom_eq hd]

theorem Sorted.occupied_place (h : Sorted slots) (entry : SizeEntry) :
    occupied (place slots entry) = occupied slots + 1 := by
  obtain ⟨i, hi, hempty, -, hplace⟩ := h.exists_place entry
  have hcount := occupied_setIfInBounds hi (some entry)
  rw [hempty] at hcount
  rw [hplace]
  simpa using hcount

/-- The entries after placing one are those before and the new one. -/
theorem Sorted.exists_entryAt_place (h : Sorted slots) (entry e : SizeEntry) :
    (∃ j, entryAt (place slots entry) j = some e) ↔
      e = entry ∨ ∃ j, entryAt slots j = some e := by
  obtain ⟨i, hi, hempty, -, hplace⟩ := h.exists_place entry
  rw [hplace]
  constructor
  · rintro ⟨j, hj⟩
    rw [entryAt_setIfInBounds] at hj
    split at hj
    · exact .inl (Option.some.inj hj).symm
    · exact .inr ⟨j, hj⟩
  · rintro (rfl | ⟨j, hj⟩)
    · exact ⟨i, by rw [entryAt_setIfInBounds, if_pos ⟨rfl, hi⟩]⟩
    · refine ⟨j, ?_⟩
      rw [entryAt_setIfInBounds, if_neg, hj]
      rintro ⟨rfl, -⟩
      rw [hempty] at hj
      exact absurd hj (by simp)

theorem Sorted.place (h : Sorted slots) {entry : SizeEntry}
    (room : occupied slots + 1 < slots.size)
    (fresh : ∀ i e, entryAt slots i = some e → e.page ≠ entry.page) :
    Sorted (place slots entry) := by
  obtain ⟨i, hi, hempty, hway, hplace⟩ := h.exists_place entry
  have hkept : ∀ j, entryAt slots j ≠ none →
      entryAt (slots.setIfInBounds i (some entry)) j ≠ none := by
    intro j hj
    rw [entryAt_setIfInBounds]
    split
    · simp
    · exact hj
  refine ⟨?_, ?_, ?_, ?_⟩
  · rw [size_place]
    exact h.size_eq
  · rw [size_place, h.occupied_place]
    exact room
  · rw [hplace]
    intro j e he d hd
    rw [Array.size_setIfInBounds] at hd ⊢
    apply hkept
    rw [entryAt_setIfInBounds] at he
    split at he
    · obtain ⟨rfl, -⟩ := ‹i = j ∧ j < slots.size›
      obtain rfl := Option.some.inj he
      exact hway d hd
    · exact h.linked j e he d hd
  · rw [hplace]
    intro j j' e e' he he' hpage
    rw [entryAt_setIfInBounds] at he he'
    split at he
    · obtain rfl := Option.some.inj he
      split at he'
      · omega
      · exact absurd hpage.symm (fresh _ _ he')
    · split at he'
      · obtain rfl := Option.some.inj he'
        exact absurd hpage (fresh _ _ he)
      · exact h.distinct _ _ _ _ he he' hpage

end SizeTable
end PagedHeap
