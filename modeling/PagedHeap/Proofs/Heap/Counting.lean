import PagedHeap.Proofs.Heap.Sound
import PagedHeap.Proofs.Page.Serving

/-!
# How much is lent

The supplier counts in words what it has lent.  In a sound heap that is the bytes of all large
allocations and of all runs, and as no two of them share a byte there are fewer of these than a
word can tell.
-/

namespace PagedHeap

/-- Ranges that share no byte have as many bytes as their lengths come to. -/
theorem ncard_ranges {starts : Finset Nat} {len : Nat → Nat} {bytes : Set Nat}
    (hapart : ∀ a ∈ starts, ∀ b ∈ starts, a ≠ b →
      Disjoint (bytesAt a (len a)) (bytesAt b (len b)))
    (hbytes : ∀ x, x ∈ bytes ↔ ∃ a ∈ starts, x ∈ bytesAt a (len a)) :
    bytes.Finite ∧ bytes.ncard = ∑ a ∈ starts, len a := by
  have hunion : bytes = ↑(starts.biUnion fun a => Finset.Ico a (a + len a)) := by
    ext x
    rw [hbytes, Finset.mem_coe, Finset.mem_biUnion]
    simp only [Finset.mem_Ico, mem_bytesAt]
  rw [hunion]
  refine ⟨Finset.finite_toSet _, ?_⟩
  rw [Set.ncard_coe_finset, Finset.card_biUnion]
  · apply Finset.sum_congr rfl
    intro a _
    rw [Nat.card_Ico, Nat.add_sub_cancel_left]
  · intro a ha b hb hne
    show Disjoint (Finset.Ico a (a + len a)) (Finset.Ico b (b + len b))
    rw [← Finset.disjoint_coe, Finset.coe_Ico, Finset.coe_Ico]
    exact hapart a ha b hb hne

theorem SizeTable.Valid.ncard_extent {t : SizeTable} (h : t.Valid) (hspread : Spread t.get?) :
    (extent t.get?).Finite ∧ (extent t.get?).ncard = t.total := by
  have hrange : ∀ page ∈ t.pages, t.get? page = some (t.sizeAt page) := by
    intro page hpage
    obtain ⟨size, hsize⟩ := h.mem_pages.1 hpage
    rw [hsize, sizeAt_of_get? hsize]
  apply ncard_ranges
  · intro page hpage other hother hne
    exact hspread.apart page _ other _ (hrange page hpage) (hrange other hother) hne
  · intro x
    constructor
    · intro hx
      obtain ⟨page, size, hsize, hx⟩ := hx
      refine ⟨page, h.mem_pages.2 ⟨size, hsize⟩, ?_⟩
      rwa [sizeAt_of_get? hsize]
    · intro hx
      obtain ⟨page, hpage, hx⟩ := hx
      exact ⟨page, _, hrange page hpage, hx⟩

theorem ncard_runBytes {used : Set Nat} (hfinite : (pagesOf used).Finite) :
    (runBytes used).Finite ∧ (runBytes used).ncard = (pagesOf used).ncard * pageSize := by
  have hmod : ∀ page ∈ hfinite.toFinset, page % pageSize = 0 := by
    intro page hpage
    obtain ⟨x, -, rfl⟩ := hfinite.mem_toFinset.1 hpage
    exact pageOf_mod x
  have hsum : ∑ _page ∈ hfinite.toFinset, pageSize = (pagesOf used).ncard * pageSize := by
    rw [Finset.sum_const, Set.ncard_eq_toFinset_card _ hfinite]
    rfl
  rw [← hsum]
  apply ncard_ranges
  · intro page hpage other hother hne
    rw [Set.disjoint_left]
    intro x hx hx'
    apply hne
    rw [← (mem_pageBytes (hmod page hpage)).1 hx, ← (mem_pageBytes (hmod other hother)).1 hx']
  · intro x
    constructor
    · intro hx
      exact ⟨pageOf x, hfinite.mem_toFinset.2 hx, (mem_pageBytes (pageOf_mod x)).2 rfl⟩
    · intro hx
      obtain ⟨page, hpage, hx⟩ := hx
      exact pageBytes_subset_runBytes (hfinite.mem_toFinset.1 hpage) hx

namespace LargeHeap

open SizeTable

variable {l : LargeHeap} {mine foreign : Set Nat} {lent : Nat}

/-- No byte is lent for a large allocation and otherwise. -/
theorem Sound.ncard_lent (h : l.Sound (mine ∪ foreign) lent) :
    (extent l.table.get? ∪ mine).ncard = l.table.total + mine.ncard := by
  obtain ⟨hextent, htotal⟩ := h.table.ncard_extent h.spread
  have hmine : mine.Finite := h.paging.finite_out.subset fun x hx => .inr (.inr (.inl hx))
  rw [Set.ncard_union_eq (Set.disjoint_union_right.1 h.apart).1 hextent hmine, htotal]

/-- The supplier counts the bytes that are lent, each once. -/
theorem Sound.liveBytes_eq (h : l.Sound (mine ∪ foreign) mine.ncard) :
    l.paging.supplier.liveBytes.toNat = l.table.total + mine.ncard := by
  have hout : extent l.table.get? ∪ mine ⊆
      l.table.storageBytes ∪ (extent l.table.get? ∪ (mine ∪ foreign)) := by
    rw [← Set.union_assoc (extent l.table.get?)]
    exact Set.subset_union_left.trans Set.subset_union_right
  apply h.paging.liveBytes_eq
  rw [← h.ncard_lent]
  exact Set.ncard_le_ncard hout h.paging.finite_out

end LargeHeap

namespace Heap

open SizeTable

variable {h : Heap} {spans : Place → Category → List Span} {live foreign : Set Nat} {page : Nat}

theorem Sound.finite_runs (hsound : h.Sound spans live foreign) :
    (pagesOf (usedBlocks spans live)).Finite := by
  apply (Set.finite_Iio Word.signedLimit).subset
  intro page hpage
  obtain ⟨x, hx, rfl⟩ := hpage
  have hrun : pageOf x ∈ runBytes (usedBlocks spans live) :=
    ⟨x, hx, (pageOf_pageOf x).symm⟩
  exact hsound.large.paging.lt_signedLimit (.inr (.inr (.inl hrun)))

theorem Sound.liveBytes_eq (hsound : h.Sound spans live foreign) :
    h.supplier.liveBytes.toNat =
      h.table.total + (pagesOf (usedBlocks spans live)).ncard * pageSize := by
  have hlarge := hsound.large
  rw [← (ncard_runBytes hsound.finite_runs).2] at hlarge ⊢
  exact hlarge.liveBytes_eq

end Heap
end PagedHeap
