import PagedHeap.Proofs.Site.Order

/-!
# The books of a supplier

A supplier counts the bytes that it has cached and the bytes that it has lent.  The first are
those of the ranges in its slots, which are whole pages and share no byte; the second are those
of large allocations, of runs and of pages in the hands of clients.

Both counts are changed apart from what they count.  In every site that is reached they agree with
it all the same, and a request that keeps the rules is always answered: no sum or difference on
the way leaves its range, and no more ranges leave the cache at once than there is room for.
-/

namespace PagedHeap
namespace Site

/-- The books of an owner's supplier are right, and right again after any request that keeps the
rules.  Such a request hands back no more than is counted as lent, and never ends the process. -/
structure KeepsBooks (p : Site) (o : Owner) : Prop where
  balanced : (p.paging o).Balanced (p.lentOut o)
  covered : ∀ r : PageRequest, r.Allowed (p.paging o) (p.lentOut o) →
    r.passed.ncard ≤ (p.paging o).supplier.liveBytes.toNat
  serves : ∀ r : PageRequest, r.Allowed (p.paging o) (p.lentOut o) →
    Action.Ensures (Paging.serve r) (p.paging o)
      (fun a q => q.Balanced (p.lentOut o \ r.passed ∪ r.granted a)) Action.never

variable {p : Site} {o : Owner} {foreign : Set Nat}

/-- Besides what is lent out, the supplier has lent nothing. -/
theorem Parts.lends (h : p.Parts o foreign) :
    (p.paging o).Sound (p.storage o ∪ foreign ∪ p.lentOut o) (0 + (p.lentOut o).ncard) ∧
      Disjoint (p.storage o ∪ foreign) (p.lentOut o) := by
  have hpaging := h.paging
  rw [Set.union_left_comm, Set.union_comm (p.lentOut o), ← Nat.zero_add (p.lentOut o).ncard]
    at hpaging
  exact ⟨hpaging, Set.disjoint_union_left.2
    ⟨h.storage.mono_right Set.subset_union_left, h.lentOut.symm⟩⟩

theorem Parts.balanced (h : p.Parts o foreign) : (p.paging o).Balanced (p.lentOut o) := by
  have hpaging := h.lends.1
  rw [Nat.zero_add] at hpaging
  exact hpaging.balanced

theorem Parts.keepsBooks (h : p.Parts o foreign) : p.KeepsBooks o where
  balanced := h.balanced
  covered r hallowed := by
    rw [h.balanced.liveBytes_eq]
    exact Set.ncard_le_ncard hallowed.passed_subset h.balanced.finite
  serves r hallowed := by
    obtain ⟨hpaging, hapart⟩ := h.lends
    apply (hpaging.ensures_serve hapart hallowed).weaken
    intro a q hserves
    have hsound := hserves.sound
    rw [Nat.zero_add] at hsound
    exact hsound.balanced

/-- Whatever has happened on a machine, the books of every supplier are right, and requests that
keep the rules leave them so. -/
theorem Reachable.keeps_books (hreach : p.Reachable) (o : Owner) : p.KeepsBooks o :=
  (hreach.orderly.sound o).parts.keepsBooks

/-- A small machine on which a client got three pages, and handed back the first and the last. -/
def twoRanges : Site :=
  ((small.servePages 0 (.allocate 12288)).servePages 0 (.reclaim 0x200000005000 4096 {})).servePages
    0 (.reclaim 0x200000007000 4096 {})

/-- The client has the page in between. -/
theorem reachable_twoRanges : twoRanges.Reachable ∧
    bytesAt 0x200000006000 4096 ⊆ twoRanges.pages 0 := by
  have hgot : small.answer? 0 (.allocate 12288) = some (.pointer (some 0x200000005000)) := by
    decide +kernel
  have hfirst : (small.servePages 0 (.allocate 12288)).answer? 0
      (.reclaim 0x200000005000 4096 {}) = some .done := by
    decide +kernel
  have hlast : ((small.servePages 0 (.allocate 12288)).servePages 0
      (.reclaim 0x200000005000 4096 {})).answer? 0 (.reclaim 0x200000007000 4096 {}) =
        some .done := by
    decide +kernel
  have hgranted : bytesAt 0x200000005000 12288 ⊆ (small.servePages 0 (.allocate 12288)).pages 0 :=
    granted_subset_pages hgot
  have hleft : bytesAt 0x200000006000 8192 ⊆ ((small.servePages 0 (.allocate 12288)).servePages 0
      (.reclaim 0x200000005000 4096 {})).pages 0 := by
    rw [pages_servePages hfirst]
    refine fun y hy => .inl ⟨hgranted (bytesAt_subset (by decide) (by decide) hy), fun hin => ?_⟩
    exact Set.disjoint_left.1 (disjoint_bytesAt.2 (.inr (.inr (.inr (by decide))))) hy hin
  have hreach := (reachable_small.servePages (s := 0) (r := .allocate 12288)
    ⟨by decide, by decide⟩).servePages (s := 0) (r := .reclaim 0x200000005000 4096 {})
    ⟨by decide, (bytesAt_subset (Nat.le_refl _) (by decide)).trans hgranted,
      fun hclean => absurd hclean (by decide)⟩
  refine ⟨hreach.servePages ⟨by decide, (bytesAt_subset (by decide) (by decide)).trans hleft,
    fun hclean => absurd hclean (by decide)⟩, ?_⟩
  rw [twoRanges, pages_servePages hlast]
  refine fun y hy => .inl ⟨hleft (bytesAt_subset (Nat.le_refl _) (by decide) hy), fun hin => ?_⟩
  exact Set.disjoint_left.1 (disjoint_bytesAt.2 (.inr (.inr (.inl (by decide))))) hy hin

theorem keeps_books_twoRanges : twoRanges.Reachable ∧
    (twoRanges.paging (.supplier 0)).cached =
      [⟨0x200000005000, 4096, false, false⟩, ⟨0x200000007000, 4096, false, false⟩] ∧
    (twoRanges.paging (.supplier 0)).supplier.counters = [4096, 8192, 1, 0] ∧
    (PageRequest.reclaim 0x200000006000 4096 {}).Allowed (twoRanges.paging (.supplier 0))
      (twoRanges.lentOut (.supplier 0)) ∧
    twoRanges.KeepsBooks (.supplier 0) := by
  obtain ⟨hreach, hmiddle⟩ := reachable_twoRanges
  refine ⟨hreach, by decide +kernel, by decide +kernel, ⟨by decide, ?_, ?_⟩,
    hreach.keeps_books _⟩
  · exact hmiddle.trans (Set.subset_union_right.trans Set.subset_union_right)
  · exact fun hclean => absurd hclean (by decide)

end Site
end PagedHeap
