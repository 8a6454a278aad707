import PagedHeap.Proofs.Site.Books
import PagedHeap.Proofs.Site.Trimming

/-!
# In which order the break is lowered

Ranges are evicted largest first, and each of them is tried once: if it ends at the break at that
moment the break is lowered over it, otherwise it is surrendered.  How far the break goes down
depends on the order.  A range that is evicted before the one right above it stays below the break
for good, though the break comes down to its end in the same request.

If every range is evicted after the one right above it, the break goes down as far as the evicted
ranges reach.
-/

namespace PagedHeap

open Ranges

/-- The break went down over `sunk`, and that is the longest chain of evicted ranges in the order of
eviction.  A range that ends where the break stopped was evicted too early.  From the top down, no
chain at all reaches farther. -/
structure Paging.LowersInOrder (p : Paging) (evicted sunk : List Range) (q : Paging) : Prop where
  descends : Descends p.kernel.programBreak sunk q.kernel.programBreak
  longest : Longest p.kernel.programBreak evicted sunk
  tooEarly : ∀ r ∈ evicted, r.ofBreak = true → r.address + r.len = q.kernel.programBreak →
    ¬(sunk ++ [r]).Sublist evicted
  topDown : TopDown evicted → ∀ chain bottom, chain ⊆ evicted →
    Descends p.kernel.programBreak chain bottom → chain <+: sunk

theorem Paging.Returned.lowersInOrder {p q : Paging} {evicted sunk surrendered : List Range}
    {made : List Call} (h : p.Returned evicted sunk surrendered made q)
    (htop : p.supplier.region.stop = p.kernel.programBreak)
    (hmoved : ∀ delta, .moveBreak delta none ∉ made) : p.LowersInOrder evicted sunk q := by
  have hlongest := h.longest htop hmoved
  refine ⟨h.descends, hlongest, fun r _ hkind hstop => hlongest.not_sublist h.descends hkind hstop,
    fun hordered chain bottom hsub hdescends => ?_⟩
  exact hlongest chain bottom (hdescends.sublist h.tidy hordered hsub) hdescends

namespace Site

variable {p : Site}

/-- Where a supplier has the end of the break on record, a request that gives back what it evicts
lowers the break over the longest chain in the order of eviction, unless a move of the break is
refused. -/
theorem Reachable.lowers_in_order (hreach : p.Reachable) (o : Owner) {r : PageRequest}
    {evict : Action RangeCache (List Range)} (hallowed : r.Allowed (p.paging o) (p.lentOut o))
    (hevict : r.eviction? (p.paging o) = some evict)
    (htop : (p.paging o).supplier.region.stop = (p.paging o).kernel.programBreak) :
    Action.Ensures (Paging.serve r) (p.paging o)
      (fun _ q => ∃ evicted c sunk surrendered made,
        evict (p.paging o).supplier.cache = .ok evicted c ∧
          (p.paging o).Returned evicted sunk surrendered made q ∧
            ((∀ delta, .moveBreak delta none ∉ made) → (p.paging o).LowersInOrder evicted sunk q))
      Action.never := by
  obtain ⟨hpaging, hapart⟩ := (hreach.orderly.sound o).parts.lends
  apply (hpaging.ensures_givesBack hapart hallowed hevict).weaken
  rintro _ q ⟨evicted, c, sunk, surrendered, made, hrun, hreturned⟩
  exact ⟨evicted, c, sunk, surrendered, made, hrun, hreturned, hreturned.lowersInOrder htop⟩

/-- A client got two ranges one above the other. -/
def gotTwo : Site := (oneBreak.servePages 0 (.allocate 8192)).servePages 0 (.allocate 4096)

/-- It handed both back, the upper one to be kept apart from the lower one. -/
def cachedTwo : Site :=
  (gotTwo.servePages 0 (.reclaim 0x100000000000 8192 {})).servePages 0
    (.reclaim 0x100000002000 4096 { noMergeLeft := true })

theorem reachable_cachedTwo : cachedTwo.Reachable := by
  have hlower : oneBreak.answer? 0 (.allocate 8192) = some (.pointer (some 0x100000000000)) := by
    decide +kernel
  have hupper : (oneBreak.servePages 0 (.allocate 8192)).answer? 0 (.allocate 4096) =
      some (.pointer (some 0x100000002000)) := by
    decide +kernel
  have hback : gotTwo.answer? 0 (.reclaim 0x100000000000 8192 {}) = some .done := by
    decide +kernel
  have hfirst := reachable_oneBreak.servePages (s := 0) (r := .allocate 8192)
    ⟨by decide, by decide⟩
  have hboth : gotTwo.Reachable := hfirst.servePages ⟨by decide, by decide⟩
  -- The lower range is with the client all the time until it is handed back.
  have hlowerOut : bytesAt 0x100000000000 8192 ⊆ gotTwo.pages 0 := by
    rw [gotTwo, pages_servePages hupper, PageRequest.passed, Set.sdiff_empty]
    exact (granted_subset_pages hlower).trans Set.subset_union_left
  have hupperOut : bytesAt 0x100000002000 4096 ⊆
      (gotTwo.servePages 0 (.reclaim 0x100000000000 8192 {})).pages 0 := by
    rw [pages_servePages hback]
    refine fun y hy => .inl ⟨granted_subset_pages hupper hy, fun hin => ?_⟩
    exact Set.disjoint_left.1 (disjoint_bytesAt.2 (.inr (.inr (.inr (by decide))))) hy hin
  have hreclaim := hboth.servePages (s := 0) (r := .reclaim 0x100000000000 8192 {})
    ⟨by decide, hlowerOut, fun hclean => absurd hclean (by decide)⟩
  exact hreclaim.servePages ⟨by decide, hupperOut, fun hclean => absurd hclean (by decide)⟩

/-- The supplier has the end of the break on record, and no move of the break is made to fail.  The
larger range is evicted first, the break comes down to it, and it is discarded. -/
theorem trims_cachedTwo :
    ((cachedTwo.paging (.supplier 0)).supplier.config.useBreak = true ∧
      (cachedTwo.paging (.supplier 0)).supplier.region.stop =
        (cachedTwo.paging (.supplier 0)).kernel.programBreak ∧
      (cachedTwo.paging (.supplier 0)).kernel.breakFailures.count = 0) ∧
    Action.Ensures (RangeCache.evictDownTo 0 []) (cachedTwo.paging (.supplier 0)).supplier.cache
      (fun evicted _ => evicted =
        [⟨0x100000000000, 8192, false, true⟩, ⟨0x100000002000, 4096, false, true⟩])
      Action.never ∧
    Action.Ensures (Paging.serve (.trim 0)) (cachedTwo.paging (.supplier 0))
      (fun _ q => q.kernel.programBreak = 0x100000002000 ∧
        q.kernel.calls.head? = some (.advise 0x100000000000 8192 .dontneed)) Action.never := by
  decide +kernel

/-- No longer chain was to be had in the order of eviction. -/
theorem lowers_in_order_cachedTwo : ∃ (q : Paging) (sunk : List Range), cachedTwo.Reachable ∧
    (cachedTwo.paging (.supplier 0)).supplier.region.stop =
      (cachedTwo.paging (.supplier 0)).kernel.programBreak ∧
    (cachedTwo.paging (.supplier 0)).LowersInOrder
      [⟨0x100000000000, 8192, false, true⟩, ⟨0x100000002000, 4096, false, true⟩] sunk q ∧
    q.kernel.programBreak = 0x100000002000 ∧
    q.kernel.calls.head? = some (.advise 0x100000000000 8192 .dontneed) := by
  have hreach : cachedTwo.Reachable := reachable_cachedTwo
  obtain ⟨⟨-, htop, hpass⟩, hevicts, htrims⟩ := trims_cachedTwo
  have hserves := hreach.lowers_in_order (.supplier 0) (r := .trim 0) trivial rfl htop
  obtain ⟨a, q, hok, hbreak, hcall⟩ := htrims.exists_ok
  obtain ⟨evicted, c, sunk, surrendered, made, hrun, hreturned, hlowers⟩ := hserves.of_ok hok
  rw [hevicts.of_ok hrun] at hlowers
  refine ⟨q, sunk, hreach, htop, hlowers fun delta hmade => ?_, hbreak, hcall⟩
  have hfails := hreturned.refused delta hmade
  rw [hpass] at hfails
  exact absurd hfails (Nat.lt_irrefl 0)

/-- A range that ends at the break after a trim may have been discarded. -/
theorem not_lowers_over_all : ¬ ∀ p : Site, p.Reachable → ∀ o pad,
    (p.paging o).supplier.config.useBreak = true →
    (p.paging o).supplier.region.stop = (p.paging o).kernel.programBreak →
    (p.paging o).kernel.breakFailures.count = 0 →
    Action.Ensures (Paging.serve (.trim pad)) (p.paging o)
      (fun _ q => ∀ evicted c, RangeCache.evictDownTo pad [] (p.paging o).supplier.cache =
          .ok evicted c → ∀ r ∈ evicted, r.ofBreak = true →
        r.address + r.len ≠ q.kernel.programBreak) Action.never := by
  intro hall
  obtain ⟨⟨hconfig, htop, hpass⟩, hevicts, htrims⟩ := trims_cachedTwo
  have hlowers := hall _ reachable_cachedTwo (.supplier 0) 0 hconfig htop hpass
  obtain ⟨a, q, hok, hbreak, -⟩ := htrims.exists_ok
  obtain ⟨evicted, c, hrun, rfl⟩ := hevicts.exists_ok
  exact (hlowers.of_ok hok) _ c hrun _ List.mem_cons_self rfl hbreak.symm

end Site
end PagedHeap
