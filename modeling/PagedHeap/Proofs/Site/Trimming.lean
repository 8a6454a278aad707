import PagedHeap.Proofs.Page.Returning
import PagedHeap.Proofs.Site.Order

/-!
# What a trim answers

A trim of a supplier gives back what it evicts, and answers the bytes of the ranges that it
surrendered one by one.  The ranges over which it lowered the break have left the cache too, but are
not among them.  So the answer falls short of what left the cache by as much as the break was
lowered.
-/

namespace PagedHeap

open Ranges

/-- A supplier was trimmed down to `pad` cached bytes, and `released` was the answer: the bytes of
the ranges that were surrendered.  With those by which the break was lowered these are all that left
the cache. -/
structure Paging.Trims (p : Paging) (pad released : Nat) (q : Paging) : Prop where
  surrenders : ∃ evicted c sunk surrendered made,
    RangeCache.evictDownTo pad [] p.supplier.cache = .ok evicted c ∧
      p.Returned evicted sunk surrendered made q ∧ released = total surrendered
  break_le : q.kernel.programBreak ≤ p.kernel.programBreak
  cachedBytes_eq : q.supplier.cache.cachedBytes +
    (released + (p.kernel.programBreak - q.kernel.programBreak)) = p.supplier.cache.cachedBytes

theorem Paging.Sound.ensures_trims {p : Paging} {out : Set Nat} {lent : Nat} (h : p.Sound out lent)
    (pad : Nat) :
    Action.Ensures (trim pad) p (fun n q => p.Trims pad n q) Action.never := by
  apply (h.ensures_trimReturned pad).weaken
  rintro n q ⟨evicted, c, sunk, surrendered, made, hrun, hreturned, rfl, rfl, hevictions⟩
  have hcount := hevictions.cachedBytes_add h.cache
  have hbreak := hreturned.descends.total
  have hsplit := (Reshapes.of_perm hreturned.perm).total_eq
  rw [total_append] at hsplit
  refine ⟨⟨evicted, _, sunk, surrendered, made, hrun, hreturned, rfl⟩, by omega, ?_⟩
  omega

namespace Site

variable {p : Site}

/-- Whatever has happened on a machine, a trim of a supplier answers how many bytes left its cache,
less those by which it lowered the break; and so does one of the large allocations above it. -/
theorem Reachable.trim_answers (hreach : p.Reachable) (o : Owner) (pad : Nat) :
    Action.Ensures (Paging.trim pad) (p.paging o) (fun n q => (p.paging o).Trims pad n q)
        Action.never ∧
      Action.Ensures (LargeHeap.trim pad) (p.largeHeap o)
        (fun n l => (p.paging o).Trims pad n l.paging) Action.never := by
  have htrims := (hreach.orderly.sound o).parts.paging.ensures_trims pad
  refine ⟨htrims, ?_⟩
  rw [LargeHeap.trim, LargeHeap.ensures_onPages]
  exact htrims

/-- A small machine with a supplier that moves the break. -/
def oneBreak : Site :=
  new .standard (.boot 8 (some ⟨breakBase, breakBase + 8 * pageSize, breakBase⟩))
    [{ useBreak := true }]

theorem reachable_oneBreak : oneBreak.Reachable := by
  refine .start .standard _ (Kernel.valid_boot (by decide) fun b hb => ?_)
  cases hb
  decide

/-- A client got a page and handed it back. -/
def cachedTop : Site :=
  (oneBreak.servePages 0 (.allocate 4096)).servePages 0 (.reclaim 0x100000000000 4096 {})

theorem reachable_cachedTop : cachedTop.Reachable := by
  have hgot : oneBreak.answer? 0 (.allocate 4096) = some (.pointer (some 0x100000000000)) := by
    decide +kernel
  have hfirst := reachable_oneBreak.servePages (s := 0) (r := .allocate 4096)
    ⟨by decide, by decide⟩
  exact hfirst.servePages
    ⟨by decide, granted_subset_pages hgot, fun hclean => absurd hclean (by decide)⟩

/-- The supplier has the page cached, and the break lies above it. -/
theorem cached_cachedTop : (cachedTop.paging (.supplier 0)).supplier.cache.cachedBytes = 4096 ∧
    (cachedTop.paging (.supplier 0)).kernel.programBreak = 0x100000001000 ∧
    (cachedTop.paging (.supplier 0)).supplier.kernelUnmaps = 0 := by
  decide +kernel

/-- A trim lowers the break over the page, and neither answers nor counts that. -/
theorem trims_cachedTop : Action.Ensures (Paging.trim 0) (cachedTop.paging (.supplier 0))
    (fun n q => n = 0 ∧ q.supplier.cache.cachedBytes = 0 ∧
      q.kernel.programBreak = 0x100000000000 ∧ q.supplier.kernelUnmaps = 0) Action.never := by
  decide +kernel

/-- The page leaves the cache, the break goes down by it, and the answer is nothing. -/
theorem trim_answers_cachedTop : ∃ q : Paging, cachedTop.Reachable ∧
    Paging.trim 0 (cachedTop.paging (.supplier 0)) = .ok 0 q ∧
      (cachedTop.paging (.supplier 0)).Trims 0 0 q ∧
        (cachedTop.paging (.supplier 0)).kernel.programBreak - q.kernel.programBreak = 4096 ∧
          (cachedTop.paging (.supplier 0)).supplier.cache.cachedBytes = 4096 := by
  have hreach : cachedTop.Reachable := reachable_cachedTop
  obtain ⟨htrims, -⟩ := hreach.trim_answers (.supplier 0) 0
  obtain ⟨hcached, hbefore, -⟩ := cached_cachedTop
  obtain ⟨n, q, hok, rfl, -, hbreak, -⟩ := Action.Ensures.exists_ok trims_cachedTop
  refine ⟨q, hreach, hok, htrims.of_ok hok, ?_, hcached⟩
  rw [hbreak, hbefore]

/-- The answer is not always what left the cache. -/
theorem not_trim_exact : ¬ ∀ p : Site, p.Reachable → ∀ o pad,
    Action.Ensures (Paging.trim pad) (p.paging o)
      (fun n q => (n : Int) =
        (p.paging o).supplier.cache.cachedBytes - q.supplier.cache.cachedBytes) Action.never := by
  intro hall
  obtain ⟨hcached, -⟩ := cached_cachedTop
  obtain ⟨n, q, hok, rfl, hempty, -⟩ := Action.Ensures.exists_ok trims_cachedTop
  have hexact := (hall _ reachable_cachedTop (.supplier 0) 0).of_ok hok
  rw [hcached, hempty] at hexact
  exact absurd hexact (by decide)

end Site
end PagedHeap
