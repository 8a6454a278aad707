import Mathlib.Algebra.BigOperators.Group.Finset.Basic
import Mathlib.Algebra.Order.BigOperators.Group.Finset
import Mathlib.Order.Interval.Finset.Nat
import PagedHeap.Proofs.Kernel.InUse
import PagedHeap.Proofs.SizeTable.FiniteMap

/-!
# The memory that a table of sizes speaks of

A table gives starts of ranges their sizes.  If the ranges share no byte, the table has as
many pages as it has entries at least, which bounds how large a table can ever be.
-/

namespace PagedHeap
namespace SizeTable

variable {sizes : Nat → Option Nat} {t t' : SizeTable} {page size : Nat}

/-- The addresses in all ranges. -/
def extent (sizes : Nat → Option Nat) : Set Nat :=
  {x | ∃ page size, sizes page = some size ∧ x ∈ bytesAt page size}

/-- The ranges are whole pages, and no two share a byte. -/
structure Spread (sizes : Nat → Option Nat) : Prop where
  page_mod : ∀ page size, sizes page = some size → page % pageSize = 0
  size_mod : ∀ page size, sizes page = some size → size % pageSize = 0
  size_pos : ∀ page size, sizes page = some size → 0 < size
  apart : ∀ page size page' size', sizes page = some size → sizes page' = some size' →
    page ≠ page' → Disjoint (bytesAt page size) (bytesAt page' size')

theorem bytesAt_subset_extent (h : sizes page = some size) :
    bytesAt page size ⊆ extent sizes :=
  fun _ hx => ⟨page, size, h, hx⟩

theorem extent_empty : extent empty.get? = ∅ := by
  ext x
  simp [extent]

theorem spread_empty : Spread empty.get? := by
  refine ⟨?_, ?_, ?_, ?_⟩ <;> intros <;> simp_all

/-! ## One range more or less -/

theorem extent_update_some (sizes : Nat → Option Nat) (page size : Nat) :
    extent (Function.update sizes page (some size)) =
      extent (Function.update sizes page none) ∪ bytesAt page size := by
  ext x
  constructor
  · rintro ⟨p, s, hp, hx⟩
    by_cases hpage : p = page
    · subst hpage
      rw [Function.update_self] at hp
      obtain rfl := Option.some.inj hp
      exact .inr hx
    · rw [Function.update_of_ne hpage] at hp
      exact .inl ⟨p, s, by rw [Function.update_of_ne hpage, hp], hx⟩
  · rintro (⟨p, s, hp, hx⟩ | hx)
    · have hpage : p ≠ page := by
        rintro rfl
        rw [Function.update_self] at hp
        exact absurd hp (by simp)
      rw [Function.update_of_ne hpage] at hp
      exact ⟨p, s, by rw [Function.update_of_ne hpage, hp], hx⟩
    · exact ⟨page, size, Function.update_self _ _ _, hx⟩

theorem extent_eq_union (h : sizes page = some size) :
    extent sizes = extent (Function.update sizes page none) ∪ bytesAt page size := by
  rw [← extent_update_some, ← h, Function.update_eq_self]

theorem update_none_of_absent (h : sizes page = none) :
    Function.update sizes page none = sizes := by
  rw [← h, Function.update_eq_self]

theorem ne_of_update_none {p s : Nat} (h : Function.update sizes page none p = some s) :
    p ≠ page ∧ sizes p = some s := by
  have hne : p ≠ page := by
    rintro rfl
    rw [Function.update_self] at h
    exact absurd h (by simp)
  rw [Function.update_of_ne hne] at h
  exact ⟨hne, h⟩

theorem Spread.update_none (h : Spread sizes) (page : Nat) :
    Spread (Function.update sizes page none) where
  page_mod p s hp := h.page_mod p s (ne_of_update_none hp).2
  size_mod p s hp := h.size_mod p s (ne_of_update_none hp).2
  size_pos p s hp := h.size_pos p s (ne_of_update_none hp).2
  apart p s p' s' hp hp' hne :=
    h.apart p s p' s' (ne_of_update_none hp).2 (ne_of_update_none hp').2 hne

/-- A range shares no byte with the others. -/
theorem Spread.disjoint (h : Spread sizes) (hpage : sizes page = some size) :
    Disjoint (extent (Function.update sizes page none)) (bytesAt page size) := by
  rw [Set.disjoint_left]
  rintro x ⟨p, s, hp, hx⟩
  obtain ⟨hne, hp⟩ := ne_of_update_none hp
  exact Set.disjoint_left.1 (h.apart p s page size hp hpage hne) hx

theorem Spread.update_some (h : Spread (Function.update sizes page none))
    (hpage : page % pageSize = 0) (hsize : size % pageSize = 0) (hpos : 0 < size)
    (hapart : Disjoint (extent (Function.update sizes page none)) (bytesAt page size)) :
    Spread (Function.update sizes page (some size)) := by
  have hcases : ∀ p s, Function.update sizes page (some size) p = some s →
      p = page ∧ s = size ∨ p ≠ page ∧ Function.update sizes page none p = some s := by
    intro p s hp
    by_cases heq : p = page
    · subst heq
      rw [Function.update_self] at hp
      exact .inl ⟨rfl, (Option.some.inj hp).symm⟩
    · rw [Function.update_of_ne heq] at hp ⊢
      exact .inr ⟨heq, hp⟩
  refine ⟨?_, ?_, ?_, ?_⟩
  · intro p s hp
    rcases hcases p s hp with ⟨rfl, rfl⟩ | ⟨-, hp⟩
    · exact hpage
    · exact h.page_mod p s hp
  · intro p s hp
    rcases hcases p s hp with ⟨rfl, rfl⟩ | ⟨-, hp⟩
    · exact hsize
    · exact h.size_mod p s hp
  · intro p s hp
    rcases hcases p s hp with ⟨rfl, rfl⟩ | ⟨-, hp⟩
    · exact hpos
    · exact h.size_pos p s hp
  · intro p s p' s' hp hp' hne
    rcases hcases p s hp with ⟨rfl, rfl⟩ | ⟨-, hold⟩
    · rcases hcases p' s' hp' with ⟨rfl, rfl⟩ | ⟨-, hold'⟩
      · exact absurd rfl hne
      · exact (hapart.mono_left (bytesAt_subset_extent hold')).symm
    · rcases hcases p' s' hp' with ⟨rfl, rfl⟩ | ⟨-, hold'⟩
      · exact hapart.mono_left (bytesAt_subset_extent hold)
      · exact h.apart p s p' s' hold hold' hne

/-! ## The sum of all sizes -/

/-- The size recorded for a page, or zero. -/
def sizeAt (t : SizeTable) (page : Nat) : Nat := (t.get? page).getD 0

/-- The sizes of all entries together. -/
def total (t : SizeTable) : Nat := ∑ page ∈ t.pages, t.sizeAt page

theorem sizeAt_of_get? (h : t.get? page = some size) : t.sizeAt page = size := by
  rw [sizeAt, h]
  rfl

theorem Valid.sizeAt_of_notMem (h : t.Valid) (hpage : page ∉ t.pages) : t.sizeAt page = 0 := by
  cases hget : t.get? page with
  | none =>
      rw [sizeAt, hget]
      rfl
  | some size => exact absurd (h.mem_pages.2 ⟨size, hget⟩) hpage

/-- Pages without an entry add nothing. -/
theorem Valid.total_eq_sum (h : t.Valid) {s : Finset Nat} (hsub : t.pages ⊆ s) :
    t.total = ∑ page ∈ s, t.sizeAt page :=
  Finset.sum_subset hsub fun _ _ hnot => h.sizeAt_of_notMem hnot

/-- The sum follows the one size that has changed. -/
theorem Valid.total_update (h : t.Valid) (h' : t'.Valid) (page : Nat)
    (hsame : ∀ p, p ≠ page → t'.get? p = t.get? p) :
    t'.total + t.sizeAt page = t.total + t'.sizeAt page := by
  have hsub : t.pages ⊆ insert page (t.pages ∪ t'.pages) := fun p hp => by simp [hp]
  have hsub' : t'.pages ⊆ insert page (t.pages ∪ t'.pages) := fun p hp => by simp [hp]
  have hpage : page ∈ insert page (t.pages ∪ t'.pages) := Finset.mem_insert_self _ _
  rw [h.total_eq_sum hsub, h'.total_eq_sum hsub', ← Finset.add_sum_erase _ t.sizeAt hpage,
    ← Finset.add_sum_erase _ t'.sizeAt hpage]
  have hrest : ∑ p ∈ (insert page (t.pages ∪ t'.pages)).erase page, t'.sizeAt p =
      ∑ p ∈ (insert page (t.pages ∪ t'.pages)).erase page, t.sizeAt p := by
    apply Finset.sum_congr rfl
    intro p hp
    rw [sizeAt, sizeAt, hsame p (Finset.ne_of_mem_erase hp)]
  rw [hrest]
  omega

theorem Valid.total_congr (h : t.Valid) (h' : t'.Valid) (hsame : t'.get? = t.get?) :
    t'.total = t.total := by
  have htotal := h.total_update h' 0 fun p _ => congrFun hsame p
  rw [sizeAt, sizeAt, hsame] at htotal
  omega

/-- Ranges that share no byte have no more bytes together than there are addresses. -/
theorem Valid.total_le (h : t.Valid) (hspread : Spread t.get?) {limit : Nat}
    (hbelow : ∀ x ∈ extent t.get?, x < limit) : t.total ≤ limit := by
  have hdisjoint : (t.pages : Set Nat).PairwiseDisjoint fun page =>
      Finset.Ico page (page + t.sizeAt page) := by
    intro page hpage page' hpage' hne
    obtain ⟨size, hsize⟩ := h.mem_pages.1 hpage
    obtain ⟨size', hsize'⟩ := h.mem_pages.1 hpage'
    have hapart := hspread.apart page size page' size' hsize hsize' hne
    rw [Function.onFun, sizeAt_of_get? hsize, sizeAt_of_get? hsize', Finset.disjoint_left]
    intro x hx hx'
    rw [Finset.mem_Ico] at hx hx'
    exact Set.disjoint_left.1 hapart hx hx'
  have hcard := Finset.card_biUnion hdisjoint
  have hsub : t.pages.biUnion (fun page => Finset.Ico page (page + t.sizeAt page)) ⊆
      Finset.range limit := by
    intro x hx
    obtain ⟨page, hpage, hx⟩ := Finset.mem_biUnion.1 hx
    obtain ⟨size, hsize⟩ := h.mem_pages.1 hpage
    rw [sizeAt_of_get? hsize, Finset.mem_Ico] at hx
    exact Finset.mem_range.2 (hbelow x ⟨page, size, hsize, hx⟩)
  calc t.total = ∑ page ∈ t.pages, (Finset.Ico page (page + t.sizeAt page)).card := by
        apply Finset.sum_congr rfl
        intro page _
        rw [Nat.card_Ico, Nat.add_sub_cancel_left]
    _ = (t.pages.biUnion fun page => Finset.Ico page (page + t.sizeAt page)).card := hcard.symm
    _ ≤ (Finset.range limit).card := Finset.card_le_card hsub
    _ = limit := Finset.card_range limit

/-- Every entry takes a page at least. -/
theorem Valid.len_mul_pageSize_le (h : t.Valid) (hspread : Spread t.get?) :
    t.len * pageSize ≤ t.total := by
  have hconst := Finset.sum_const_nat (s := t.pages) (f := fun _ => pageSize) fun _ _ => rfl
  rw [← h.card_pages, ← hconst]
  apply Finset.sum_le_sum
  intro page hpage
  obtain ⟨size, hsize⟩ := h.mem_pages.1 hpage
  have hmod := hspread.size_mod page size hsize
  have hpos := hspread.size_pos page size hsize
  rw [sizeAt_of_get? hsize]
  simp only [pageSize] at hmod ⊢
  omega

end SizeTable
end PagedHeap
