import Mathlib.Data.Finset.Card
import PagedHeap.Proofs.SizeTable.Removal

/-!
# The table of sizes as a finite map

`SizeTable.Valid` holds of the empty table and is kept by all operations.  A valid table
holds an entry exactly where a search finds it, so the operations act on `get?` as those of
a finite map act on its lookups.
-/

namespace PagedHeap
namespace SizeTable

variable {slots : Array (Option SizeEntry)} {t : SizeTable}

/-! ## Changing and copying entries -/

/-- A new size for a page that has an entry. -/
theorem Sorted.setIfInBounds (h : Sorted slots) {i page old : Nat}
    (hi : entryAt slots i = some ⟨page, old⟩) (size : Nat) :
    Sorted (slots.setIfInBounds i (some ⟨page, size⟩)) := by
  have hlt := lt_size_of_entryAt hi
  have hentry : ∀ j e, entryAt (slots.setIfInBounds i (some ⟨page, size⟩)) j = some e →
      ∃ e', entryAt slots j = some e' ∧ e'.page = e.page := by
    intro j e he
    rw [entryAt_setIfInBounds] at he
    split at he
    · rename_i hij
      obtain rfl := Option.some.inj he
      exact ⟨⟨page, old⟩, by rw [← hij.1]; exact hi, rfl⟩
    · exact ⟨e, he, rfl⟩
  refine ⟨?_, ?_, ?_, ?_⟩
  · rw [Array.size_setIfInBounds]
    exact h.size_eq
  · have hcount := occupied_setIfInBounds hlt (some ⟨page, size⟩)
    have hroom := h.room
    rw [hi] at hcount
    rw [Array.size_setIfInBounds]
    simp only [Option.isSome_some, if_true] at hcount
    omega
  · intro j e he d hd
    obtain ⟨e', he', hpage⟩ := hentry j e he
    rw [Array.size_setIfInBounds, ← hpage] at hd ⊢
    rw [entryAt_setIfInBounds]
    split
    · simp
    · exact h.linked j e' he' d hd
  · intro j j' e₁ e₂ he₁ he₂ hpage
    obtain ⟨e₁', he₁', hpage₁⟩ := hentry j e₁ he₁
    obtain ⟨e₂', he₂', hpage₂⟩ := hentry j' e₂ he₂
    exact h.distinct j j' e₁' e₂' he₁' he₂' (by rw [hpage₁, hpage₂, hpage])

/-- The entries in the order of their slots. -/
def entries (slots : Array (Option SizeEntry)) : List SizeEntry :=
  slots.toList.filterMap id

theorem mem_entries {e : SizeEntry} : e ∈ entries slots ↔ ∃ i, entryAt slots i = some e := by
  simp only [entries, List.mem_filterMap, id, exists_eq_right, Array.mem_toList_iff]
  constructor
  · intro hmem
    obtain ⟨i, hi, he⟩ := Array.getElem_of_mem hmem
    refine ⟨i, ?_⟩
    rw [entryAt, Array.getElem?_eq_getElem hi, he]
    rfl
  · rintro ⟨i, he⟩
    have hi := lt_size_of_entryAt he
    rw [entryAt, Array.getElem?_eq_getElem hi] at he
    exact Array.mem_of_getElem he

theorem length_entries (slots : Array (Option SizeEntry)) :
    (entries slots).length = occupied slots := by
  rw [entries, List.length_filterMap_eq_countP, occupied, ← Array.countP_toList]
  rfl

theorem Sorted.pairwise_entries (h : Sorted slots) :
    (entries slots).Pairwise fun e e' => e.page ≠ e'.page := by
  rw [entries, List.pairwise_filterMap, List.pairwise_iff_getElem]
  intro i j hi hj hij e he e' he' hpage
  rw [Array.length_toList] at hi hj
  have hslot : ∀ k (hk : k < slots.size) e, id slots.toList[k] = some e →
      entryAt slots k = some e := by
    intro k hk e he
    rw [entryAt, Array.getElem?_eq_getElem hk]
    exact he
  exact absurd (h.distinct i j e e' (hslot i hi e he) (hslot j hj e' he') hpage) (by omega)

theorem entryAt_replicate (n i : Nat) : entryAt (Array.replicate n none) i = none := by
  rw [entryAt, Array.getElem?_replicate]
  split <;> rfl

theorem occupied_replicate (n : Nat) : occupied (Array.replicate n none) = 0 := by
  rw [occupied, Array.countP_eq_zero]
  intro v hv
  rw [(Array.mem_replicate.1 hv).2]
  simp

theorem sorted_replicate (k : Nat) : Sorted (Array.replicate (2 ^ k) none) where
  size_eq := ⟨k, Array.size_replicate⟩
  room := by
    rw [occupied_replicate, Array.size_replicate]
    exact Nat.two_pow_pos k
  linked i e he := by
    rw [entryAt_replicate] at he
    exact absurd he (by simp)
  distinct i j e e' he := by
    rw [entryAt_replicate] at he
    exact absurd he (by simp)

/-- Entries for different pages placed one after the other. -/
theorem Sorted.foldl_place (h : Sorted slots) {new : List SizeEntry}
    (hpages : new.Pairwise fun e e' => e.page ≠ e'.page)
    (hroom : occupied slots + new.length < slots.size)
    (hfresh : ∀ i e, entryAt slots i = some e → ∀ e' ∈ new, e.page ≠ e'.page) :
    Sorted (new.foldl SizeTable.place slots) ∧
      (new.foldl SizeTable.place slots).size = slots.size ∧
      occupied (new.foldl SizeTable.place slots) = occupied slots + new.length ∧
      ∀ e, (∃ i, entryAt (new.foldl SizeTable.place slots) i = some e) ↔
        e ∈ new ∨ ∃ i, entryAt slots i = some e := by
  induction new generalizing slots with
  | nil => exact ⟨h, rfl, rfl, fun e => by simp⟩
  | cons entry new ih =>
      obtain ⟨hentry, hpages⟩ := List.pairwise_cons.1 hpages
      rw [List.length_cons] at hroom
      have hcount := h.occupied_place entry
      have hplaced := h.place (by omega) fun i e he => hfresh i e he entry List.mem_cons_self
      obtain ⟨hsorted, hsize, hoccupied, hentries⟩ := ih hplaced hpages
        (by rw [hcount, size_place]; omega)
        (by
          intro i e he e' he'
          rcases (h.exists_entryAt_place entry e).1 ⟨i, he⟩ with rfl | ⟨j, hj⟩
          · exact hentry e' he'
          · exact hfresh j e hj e' (List.mem_cons_of_mem _ he'))
      rw [List.foldl_cons]
      refine ⟨hsorted, ?_, ?_, ?_⟩
      · rw [hsize, size_place]
      · rw [hoccupied, hcount, List.length_cons]
        omega
      · intro e
        rw [hentries, h.exists_entryAt_place, List.mem_cons]
        tauto

/-! ## Valid tables -/

/-- The invariant of all operations. -/
structure Valid (t : SizeTable) : Prop where
  capacity_eq : t.capacity = 0 ∨ (∃ k, t.capacity = 2 ^ k) ∧ minCapacity ≤ t.capacity
  len_eq : t.len = occupied t.slots
  half_full : 2 * t.len ≤ t.capacity
  linked : ∀ i e, entryAt t.slots i = some e → Linked t.slots i e
  distinct : ∀ i j e e', entryAt t.slots i = some e → entryAt t.slots j = some e' →
    e.page = e'.page → i = j

theorem valid_empty : empty.Valid where
  capacity_eq := .inl rfl
  len_eq := rfl
  half_full := Nat.le_refl 0
  linked i _ he := absurd (lt_size_of_entryAt he) (Nat.not_lt_zero i)
  distinct i _ _ _ he := absurd (lt_size_of_entryAt he) (Nat.not_lt_zero i)

theorem Valid.sorted (h : t.Valid) (hcap : 0 < t.capacity) : Sorted t.slots := by
  refine ⟨?_, ?_, h.linked, h.distinct⟩
  · rcases h.capacity_eq with hzero | ⟨hpower, -⟩
    · omega
    · exact hpower
  · have hlen := h.len_eq
    have hhalf := h.half_full
    unfold capacity at hcap hhalf
    omega

theorem Sorted.valid (h : Sorted t.slots) (hcap : minCapacity ≤ t.capacity)
    (hlen : t.len = occupied t.slots) (hhalf : 2 * t.len ≤ t.capacity) : t.Valid :=
  ⟨.inr ⟨h.size_eq, hcap⟩, hlen, hhalf, h.linked, h.distinct⟩

theorem Valid.minCapacity_le (h : t.Valid) (hcap : 0 < t.capacity) :
    minCapacity ≤ t.capacity := by
  rcases h.capacity_eq with hzero | ⟨-, hmin⟩
  · omega
  · exact hmin

theorem Valid.pairwise_entries (h : t.Valid) :
    (entries t.slots).Pairwise fun e e' => e.page ≠ e'.page := by
  rcases Nat.eq_zero_or_pos t.capacity with hzero | hpos
  · have hnil : entries t.slots = [] := by
      rw [← List.length_eq_zero_iff, length_entries, ← h.len_eq]
      have := h.half_full
      omega
    rw [hnil]
    exact List.Pairwise.nil
  · exact (h.sorted hpos).pairwise_entries

theorem capacity_pos_of_entryAt {i : Nat} {e : SizeEntry}
    (he : entryAt t.slots i = some e) : 0 < t.capacity :=
  Nat.zero_lt_of_lt (lt_size_of_entryAt he)

theorem Valid.find?_of_entry (h : t.Valid) {i : Nat} {e : SizeEntry}
    (he : entryAt t.slots i = some e) : t.find? e.page = some i := by
  obtain ⟨rounds, hrounds, hprobes⟩ := (h.sorted (capacity_pos_of_entryAt he)).probes_of_entry he
  have hlen : t.len ≠ 0 := by
    rw [h.len_eq, ← length_entries]
    exact Nat.pos_iff_ne_zero.1 (List.length_pos_of_mem (mem_entries.2 ⟨i, he⟩))
  rw [find?, if_neg hlen]
  exact hprobes.probe_eq hrounds

theorem Valid.find?_of_absent (h : t.Valid) {page : Nat}
    (habsent : ∀ i e, entryAt t.slots i = some e → e.page ≠ page) : t.find? page = none := by
  rw [find?]
  split
  · rfl
  · rename_i hlen
    have hhalf := h.half_full
    obtain ⟨rounds, hrounds, hprobes⟩ := (h.sorted (by omega)).probes_of_absent habsent
    exact hprobes.probe_eq hrounds

theorem Valid.find?_eq_some (h : t.Valid) {page i : Nat} (hfind : t.find? page = some i) :
    ∃ size, entryAt t.slots i = some ⟨page, size⟩ := by
  by_cases hpresent : ∃ j e, entryAt t.slots j = some e ∧ e.page = page
  · obtain ⟨j, e, he, rfl⟩ := hpresent
    rw [h.find?_of_entry he] at hfind
    obtain rfl := Option.some.inj hfind
    exact ⟨e.size, he⟩
  · push Not at hpresent
    rw [h.find?_of_absent hpresent] at hfind
    exact absurd hfind (by simp)

/-- A size is found exactly if there is an entry for it. -/
theorem Valid.get?_eq_some (h : t.Valid) {page size : Nat} :
    t.get? page = some size ↔ ∃ i, entryAt t.slots i = some ⟨page, size⟩ := by
  constructor
  · intro hget
    obtain ⟨i, hfind, hentry⟩ := Option.bind_eq_some_iff.1 hget
    obtain ⟨old, he⟩ := h.find?_eq_some hfind
    rw [he] at hentry
    obtain rfl : old = size := by simpa using hentry
    exact ⟨i, he⟩
  · rintro ⟨i, he⟩
    have hfind := h.find?_of_entry he
    rw [get?, hfind, Option.bind_some, he]
    rfl

theorem Valid.get?_eq_none (h : t.Valid) {page : Nat} :
    t.get? page = none ↔ ∀ i e, entryAt t.slots i = some e → e.page ≠ page := by
  constructor
  · rintro hget i e he rfl
    rw [h.get?_eq_some.2 ⟨i, he⟩] at hget
    exact absurd hget (by simp)
  · intro habsent
    rw [get?, h.find?_of_absent habsent]
    rfl

/-- The entries of a valid table are the sizes that it finds. -/
theorem Valid.mem_entries (h : t.Valid) {page size : Nat} :
    ⟨page, size⟩ ∈ entries t.slots ↔ t.get? page = some size := by
  rw [SizeTable.mem_entries, h.get?_eq_some]

/-- The pages that have an entry. -/
def pages (t : SizeTable) : Finset Nat := ((entries t.slots).map SizeEntry.page).toFinset

theorem Valid.mem_pages (h : t.Valid) {page : Nat} :
    page ∈ t.pages ↔ ∃ size, t.get? page = some size := by
  rw [pages, List.mem_toFinset, List.mem_map]
  constructor
  · rintro ⟨e, he, rfl⟩
    exact ⟨e.size, h.mem_entries.1 he⟩
  · rintro ⟨size, hsize⟩
    exact ⟨_, h.mem_entries.2 hsize, rfl⟩

theorem Valid.card_pages (h : t.Valid) : t.pages.card = t.len := by
  have hnodup : ((entries t.slots).map SizeEntry.page).Nodup := by
    rw [List.Nodup, List.pairwise_map]
    exact h.pairwise_entries
  rw [pages, List.toFinset_card_of_nodup hnodup, List.length_map, length_entries, h.len_eq]

/-- Two tables with the same entries have the same sizes. -/
theorem Valid.get?_congr {t' : SizeTable} (h : t.Valid) (h' : t'.Valid) {page : Nat}
    (hentries : ∀ size, (∃ i, entryAt t'.slots i = some ⟨page, size⟩) ↔
      ∃ i, entryAt t.slots i = some ⟨page, size⟩) : t'.get? page = t.get? page := by
  apply Option.ext
  intro size
  rw [h.get?_eq_some, h'.get?_eq_some, hentries]

/-! ## Operations -/

theorem Valid.nextCapacity (h : t.Valid) :
    (∃ k, t.nextCapacity = 2 ^ k) ∧ minCapacity ≤ t.nextCapacity ∧
      2 * (t.len + 1) ≤ t.nextCapacity := by
  have hhalf := h.half_full
  have hmin : minCapacity = 2 ^ 8 := rfl
  unfold SizeTable.nextCapacity
  rcases h.capacity_eq with hzero | ⟨⟨k, hk⟩, hle⟩
  · rw [if_pos hzero]
    exact ⟨⟨8, hmin⟩, Nat.le_refl _, by omega⟩
  · rw [if_neg (by omega)]
    exact ⟨⟨k + 1, by rw [hk, Nat.pow_succ]⟩, by omega, by omega⟩

theorem Valid.rehash (h : t.Valid) {capacity : Nat} (hpower : ∃ k, capacity = 2 ^ k)
    (hmin : minCapacity ≤ capacity) (hhalf : 2 * t.len ≤ capacity) (storage : Nat) :
    (t.rehash capacity storage).Valid ∧ (t.rehash capacity storage).capacity = capacity ∧
      ∀ page, (t.rehash capacity storage).get? page = t.get? page := by
  obtain ⟨k, rfl⟩ := hpower
  have hlen : (entries t.slots).length = t.len := by
    rw [length_entries, h.len_eq]
  have hroom : occupied (Array.replicate (2 ^ k) (none : Option SizeEntry)) +
      (entries t.slots).length < (Array.replicate (2 ^ k) (none : Option SizeEntry)).size := by
    rw [occupied_replicate, Array.size_replicate, hlen]
    have := Nat.two_pow_pos k
    omega
  obtain ⟨hsorted, hsize, hoccupied, hentries⟩ :=
    (sorted_replicate k).foldl_place h.pairwise_entries hroom fun i e he => by
      rw [entryAt_replicate] at he
      exact absurd he (by simp)
  rw [Array.size_replicate] at hsize
  rw [occupied_replicate, hlen, Nat.zero_add] at hoccupied
  have hvalid : (t.rehash (2 ^ k) storage).Valid := by
    apply Sorted.valid hsorted
    · exact Nat.le_trans hmin (Nat.le_of_eq hsize.symm)
    · exact hoccupied.symm
    · exact Nat.le_trans hhalf (Nat.le_of_eq hsize.symm)
  refine ⟨hvalid, hsize, fun page => h.get?_congr hvalid fun size => ?_⟩
  refine (hentries ⟨page, size⟩).trans ?_
  rw [SizeTable.mem_entries]
  simp [entryAt_replicate]

theorem Valid.add (h : t.Valid) (hroom : t.needsRoom = false) {page : Nat}
    (habsent : t.get? page = none) (size : Nat) :
    (t.add page size).Valid ∧ (t.add page size).capacity = t.capacity ∧
      ∀ p, (t.add page size).get? p = if p = page then some size else t.get? p := by
  have hroom : (t.len + 1) * 2 ≤ t.capacity := by
    simpa [needsRoom] using hroom
  have hsorted := h.sorted (by omega)
  rw [h.get?_eq_none] at habsent
  have hlen := h.len_eq
  have hcap : (t.add page size).capacity = t.capacity := size_place _ _
  have hcount := hsorted.occupied_place ⟨page, size⟩
  have hplaced : Sorted (t.add page size).slots := by
    apply hsorted.place
    · unfold capacity at hroom
      omega
    · exact habsent
  have hvalid : (t.add page size).Valid := by
    apply hplaced.valid
    · rw [hcap]
      exact h.minCapacity_le (by omega)
    · show t.len + 1 = occupied (place t.slots ⟨page, size⟩)
      rw [hcount, hlen]
    · rw [hcap]
      show 2 * (t.len + 1) ≤ t.capacity
      omega
  refine ⟨hvalid, hcap, fun p => ?_⟩
  by_cases hp : p = page
  · subst hp
    rw [if_pos rfl, hvalid.get?_eq_some]
    exact (hsorted.exists_entryAt_place ⟨p, size⟩ ⟨p, size⟩).2 (.inl rfl)
  · rw [if_neg hp]
    refine h.get?_congr hvalid fun s => ?_
    refine (hsorted.exists_entryAt_place ⟨page, size⟩ ⟨p, s⟩).trans ?_
    simp [hp]

@[simp] theorem storage_set (t : SizeTable) (page size : Nat) :
    (t.set page size).2.storage = t.storage := by
  unfold set
  split <;> rfl

@[simp] theorem storage_remove (t : SizeTable) (page : Nat) :
    (t.remove page).2.storage = t.storage := by
  unfold remove
  split <;> rfl

theorem Valid.set_of_absent (h : t.Valid) {page : Nat} (habsent : t.get? page = none)
    (size : Nat) : t.set page size = (false, t) := by
  rw [set, h.find?_of_absent (h.get?_eq_none.1 habsent)]

theorem Valid.set_of_present (h : t.Valid) {page old : Nat} (hpresent : t.get? page = some old)
    (size : Nat) :
    (t.set page size).1 = true ∧ (t.set page size).2.Valid ∧
      (t.set page size).2.capacity = t.capacity ∧
      ∀ p, (t.set page size).2.get? p = if p = page then some size else t.get? p := by
  obtain ⟨i, he⟩ := h.get?_eq_some.1 hpresent
  have hlt := lt_size_of_entryAt he
  have hset : t.set page size =
      (true, { t with slots := t.slots.setIfInBounds i (some ⟨page, size⟩) }) := by
    rw [set, h.find?_of_entry he]
  have hcap : (t.set page size).2.capacity = t.capacity := by
    rw [hset]
    exact Array.size_setIfInBounds
  have hsorted := (h.sorted (capacity_pos_of_entryAt he)).setIfInBounds he size
  have hcount := occupied_setIfInBounds hlt (some ⟨page, size⟩)
  rw [he] at hcount
  have hvalid : (t.set page size).2.Valid := by
    rw [hset] at hcap ⊢
    apply hsorted.valid
    · rw [hcap]
      exact h.minCapacity_le (capacity_pos_of_entryAt he)
    · rw [h.len_eq]
      simpa using hcount.symm
    · rw [hcap]
      exact h.half_full
  refine ⟨by rw [hset], hvalid, hcap, fun p => ?_⟩
  by_cases hp : p = page
  · subst hp
    rw [if_pos rfl, hvalid.get?_eq_some, hset]
    exact ⟨i, by rw [entryAt_setIfInBounds, if_pos ⟨rfl, hlt⟩]⟩
  · rw [if_neg hp]
    refine h.get?_congr hvalid fun s => exists_congr fun j => ?_
    rw [hset, entryAt_setIfInBounds]
    by_cases hij : i = j
    · subst hij
      simp [hlt, he, Ne.symm hp]
    · simp [hij]

theorem Valid.remove_of_absent (h : t.Valid) {page : Nat} (habsent : t.get? page = none) :
    t.remove page = (none, t) := by
  rw [remove, h.find?_of_absent (h.get?_eq_none.1 habsent)]

theorem Valid.remove_of_present (h : t.Valid) {page size : Nat}
    (hpresent : t.get? page = some size) :
    (t.remove page).1 = some size ∧ (t.remove page).2.Valid ∧
      (t.remove page).2.capacity = t.capacity ∧
      ∀ p, (t.remove page).2.get? p = if p = page then none else t.get? p := by
  obtain ⟨i, he⟩ := h.get?_eq_some.1 hpresent
  obtain ⟨rounds, closed, hrounds, hclosed, hsorted, hcloses⟩ :=
    (h.sorted (capacity_pos_of_entryAt he)).exists_closes he
  have hremove : t.remove page =
      (some size, { t with slots := closed, len := t.len - 1 }) := by
    rw [remove, h.find?_of_entry he]
    show ((entryAt t.slots i).map SizeEntry.size, _) = _
    rw [he]
    refine Prod.ext rfl ?_
    show { t with slots := _, len := _ } = ({ t with slots := _, len := _ } : SizeTable)
    rw [show closeHole t.capacity i ((i + 1) % t.capacity) t.slots = closed from
      hcloses.closeHole_eq hrounds]
  have hcap : (t.remove page).2.capacity = t.capacity := by
    rw [hremove]
    exact hclosed.size_eq
  have hlen := h.len_eq
  have hcount := hclosed.occupied
  have hvalid : (t.remove page).2.Valid := by
    rw [hremove] at hcap ⊢
    apply hsorted.valid
    · rw [hcap]
      exact h.minCapacity_le (capacity_pos_of_entryAt he)
    · show t.len - 1 = occupied closed
      omega
    · rw [hcap]
      show 2 * (t.len - 1) ≤ t.capacity
      have := h.half_full
      omega
  refine ⟨by rw [hremove], hvalid, hcap, fun p => ?_⟩
  have hentries : ∀ e, (∃ j, entryAt (t.remove page).2.slots j = some e) ↔
      ∃ j, j ≠ i ∧ entryAt t.slots j = some e := by
    rw [hremove]
    exact hclosed.entries
  by_cases hp : p = page
  · subst hp
    rw [if_pos rfl, hvalid.get?_eq_none]
    intro j e hj hpage
    obtain ⟨j', hne, he'⟩ := (hentries e).1 ⟨j, hj⟩
    exact hne (h.distinct j' i _ _ he' he hpage)
  · rw [if_neg hp]
    refine h.get?_congr hvalid fun s => (hentries ⟨p, s⟩).trans ?_
    refine exists_congr fun j => ⟨And.right, fun he' => ⟨?_, he'⟩⟩
    rintro rfl
    rw [he] at he'
    exact hp (congrArg SizeEntry.page (Option.some.inj he')).symm

end SizeTable
end PagedHeap
