import PagedHeap.Proofs.Page.Counting
import PagedHeap.Proofs.Site.Trimming
import PagedHeap.Proofs.Site.Books

/-!
# What the counters of a supplier tell

A supplier counts its maps, the requests for which it got fresh memory, and its unmaps, the ranges
that it gave back.  Neither count tells all that happened at the kernel.  A range that was extended
by raising the break is not among the maps, and the ranges over which the break was lowered are not
among the unmaps.  Everything else is counted, and counted once.
-/

namespace PagedHeap
namespace Site

variable {p : Site}

/-- Whatever has happened on a machine, a request that keeps the rules counts one map if it fetched
memory, unless it extended a range by raising the break, and one unmap for each evicted range that
was surrendered. -/
theorem Reachable.counts_requests (hreach : p.Reachable) (o : Owner) {r : PageRequest}
    (hallowed : r.Allowed (p.paging o) (p.lentOut o)) :
    Action.Ensures (Paging.serve r) (p.paging o) (fun _ q => (p.paging o).Counts r q)
      Action.never := by
  obtain ⟨hpaging, hapart⟩ := (hreach.orderly.sound o).parts.lends
  exact hpaging.ensures_counts hapart hallowed

/-- A client got a page below the break. -/
def gotTop : Site := oneBreak.servePages 0 (.allocate 4096)

theorem reachable_gotTop : gotTop.Reachable ∧
    (PageRequest.extend 0x100000000000 4096 8192).Allowed (gotTop.paging (.supplier 0))
      (gotTop.lentOut (.supplier 0)) := by
  have hgot : oneBreak.answer? 0 (.allocate 4096) = some (.pointer (some 0x100000000000)) := by
    decide +kernel
  refine ⟨reachable_oneBreak.servePages ⟨by decide, by decide⟩, by decide, ?_⟩
  exact (granted_subset_pages hgot).trans (Set.subset_union_right.trans Set.subset_union_right)

/-- The page was extended by raising the break. -/
theorem raises_gotTop : Action.Ensures (Paging.serve (.extend 0x100000000000 4096 8192))
    (gotTop.paging (.supplier 0))
    (fun _ q => (gotTop.paging (.supplier 0)).kernel.programBreak < q.kernel.programBreak ∧
      q.supplier.counters = [8192, 0, 1, 0]) Action.never := by
  decide +kernel

theorem counts_requests_gotTop : ∃ q : Paging, gotTop.Reachable ∧
    (PageRequest.extend 0x100000000000 4096 8192).Allowed (gotTop.paging (.supplier 0))
      (gotTop.lentOut (.supplier 0)) ∧
    (gotTop.paging (.supplier 0)).Counts (.extend 0x100000000000 4096 8192) q ∧
    (gotTop.paging (.supplier 0)).kernel.programBreak < q.kernel.programBreak ∧
    q.supplier.counters = [8192, 0, 1, 0] := by
  obtain ⟨hreach, hallowed⟩ := reachable_gotTop
  obtain ⟨a, q, hok, hrose, hcounters⟩ := Action.Ensures.exists_ok raises_gotTop
  exact ⟨q, hreach, hallowed, (hreach.counts_requests _ hallowed).of_ok hok, hrose, hcounters⟩

/-- Neither is all that is fetched among the maps, nor all that is evicted among the unmaps. -/
theorem not_counts_all :
    (¬ ∀ p : Site, p.Reachable → ∀ (o : Owner) (r : PageRequest),
      r.Allowed (p.paging o) (p.lentOut o) → Action.Ensures (Paging.serve r) (p.paging o)
        (fun _ q => (p.paging o).Fetches q →
          q.supplier.kernelMaps = (p.paging o).supplier.kernelMaps + 1) Action.never) ∧
    ¬ ∀ p : Site, p.Reachable → ∀ (o : Owner) (pad : Nat), Action.Ensures (Paging.trim pad)
      (p.paging o) (fun _ q => ∀ evicted c,
        RangeCache.evictDownTo pad [] (p.paging o).supplier.cache = .ok evicted c →
          q.supplier.kernelUnmaps =
            (p.paging o).supplier.kernelUnmaps + UInt64.ofNat evicted.length) Action.never := by
  constructor
  · intro hall
    obtain ⟨hreach, hallowed⟩ := reachable_gotTop
    obtain ⟨hpaging, hapart⟩ := (hreach.orderly.sound (.supplier 0)).parts.lends
    obtain ⟨a, q, hok, hrose, -⟩ := Action.Ensures.exists_ok raises_gotTop
    -- The bytes above the old break came into use, and the count stayed.
    have hcounts := (hpaging.ensures_counts hapart hallowed).of_ok hok
    obtain ⟨hfetches, hsame⟩ := hcounts.maps.raised trivial hrose
    have hmore := (hall _ hreach _ _ hallowed).of_ok hok hfetches
    rw [hsame] at hmore
    exact absurd (UInt64.left_eq_add.1 hmore) (by decide)
  · intro hall
    have hevicts : Action.Ensures (RangeCache.evictDownTo 0 [])
        (cachedTop.paging (.supplier 0)).supplier.cache (fun evicted _ => evicted.length = 1)
        Action.never := by
      decide +kernel
    obtain ⟨-, -, hnone⟩ := cached_cachedTop
    obtain ⟨n, q, hok, -, -, -, hkept⟩ := trims_cachedTop.exists_ok
    obtain ⟨evicted, c, hrun, hlength⟩ := hevicts.exists_ok
    have hmore := (hall _ reachable_cachedTop (.supplier 0) 0).of_ok hok evicted c hrun
    rw [hkept, hnone, hlength] at hmore
    exact absurd hmore (by decide)

end Site
end PagedHeap
