import PagedHeap.Proofs.Site.BreakOrder

/-!
# As few ranges as can be

A trim evicts ranges until no more than `pad` bytes are cached, and a range that is handed back has
others evicted until no more are cached than the limit.  Either way the ranges that stay are as they
were, nothing is evicted if nothing has to be, and no choice of fewer ranges would have been enough.
-/

namespace PagedHeap

namespace Paging

open RangeCache

variable {p : Paging} {out rest pages : Set Nat} {lent other : Nat}

/-- A trim down to `pad` bytes leaves the cache with `c`. -/
def TrimsTo (p : Paging) (pad : Nat) (c : RangeCache) : Prop :=
  ∃ evicted, evictDownTo pad [] p.supplier.cache = .ok evicted c ∧
    EvictsFewest pad p.supplier.cache evicted c

/-- A range that is handed back leaves the cache with `c`: it is not cached itself, or it was put
into the cache and ranges were evicted down to the limit. -/
def TakesInTo (p : Paging) (range : Range) (opts : ReclaimOptions) (c : RangeCache) : Prop :=
  (cacheLimit < range.len → c = p.supplier.cache) ∧
    (range.len ≤ cacheLimit → ∃ bounced? c₁ evicted,
      insert range opts p.supplier.cache = .ok bounced? c₁ ∧ EvictsFewest cacheLimit c₁ evicted c)

theorem Sound.ensures_trimsTo (h : Sound p out lent) (pad : Nat) :
    Action.Ensures (trim pad) p (fun _ q => p.TrimsTo pad q.supplier.cache) Action.never := by
  apply (h.ensures_trimReturned pad).weaken
  rintro _ q ⟨evicted, c, sunk, surrendered, made, hrun, -, -, rfl, hevictions⟩
  exact ⟨evicted, hrun, hevictions.evictsFewest h.cache⟩

theorem takesInTo_of_takesIn {range : Range} {opts : ReclaimOptions} {evicted : List Range}
    {c : RangeCache} (h : p.supplier.cache.TakesIn range opts evicted c) :
    p.TakesInTo range opts c := by
  cases h with
  | large hlarge => exact ⟨fun _ => rfl, fun hsmall => absurd hlarge (Nat.not_lt.2 hsmall)⟩
  | inserted hsmall hrun htaken hevictions =>
      refine ⟨fun hlarge => absurd hlarge (Nat.not_lt.2 hsmall), fun _ => ?_⟩
      exact ⟨_, _, _, hrun, hevictions.evictsFewest htaken.valid⟩

theorem Sound.ensures_takesInTo {address size : Nat} {opts : ReclaimOptions}
    (h : Sound p (rest ∪ pages) (other + pages.ncard)) (hapart : Disjoint rest pages)
    (hallowed : (PageRequest.reclaim address size opts).Allowed p pages) :
    Action.Ensures (reclaim address size opts) p
      (fun _ q => p.TakesInTo ⟨address, size, opts.clean, p.supplier.region.contains address⟩ opts
        q.supplier.cache) Action.never := by
  obtain ⟨⟨hpos, hsize, haddress⟩, hsub, hclean⟩ := hallowed
  obtain ⟨hsound, hgone⟩ := h.divides_passed hapart hsub
  apply (hsound.ensures_reclaimReturned hgone hpos haddress hsize hclean
    (Nat.le_add_left _ _)).weaken
  rintro _ q ⟨evicted, c, -, -, rfl, htakes⟩
  exact takesInTo_of_takesIn htakes

end Paging

namespace Site

open RangeCache

variable {p : Site}

/-- Whatever has happened on a machine, trims and ranges that are handed back have as few ranges
evicted as can be. -/
theorem Reachable.evicts_fewest (hreach : p.Reachable) (o : Owner) :
    (∀ pad, Action.Ensures (Paging.trim pad) (p.paging o)
        (fun _ q => (p.paging o).TrimsTo pad q.supplier.cache) Action.never ∧
      Action.Ensures (LargeHeap.trim pad) (p.largeHeap o)
        (fun _ l => (p.paging o).TrimsTo pad l.paging.supplier.cache) Action.never) ∧
    ∀ address size opts,
      (PageRequest.reclaim address size opts).Allowed (p.paging o) (p.lentOut o) →
      Action.Ensures (Paging.reclaim address size opts) (p.paging o)
        (fun _ q => (p.paging o).TakesInTo
          ⟨address, size, opts.clean, (p.paging o).supplier.region.contains address⟩ opts
          q.supplier.cache) Action.never := by
  have hparts := (hreach.orderly.sound o).parts
  refine ⟨fun pad => ?_, fun address size opts hallowed => ?_⟩
  · have htrims := hparts.paging.ensures_trimsTo pad
    refine ⟨htrims, ?_⟩
    rw [LargeHeap.trim, LargeHeap.ensures_onPages]
    exact htrims
  · obtain ⟨hpaging, hapart⟩ := hparts.lends
    exact hpaging.ensures_takesInTo hapart hallowed

/-- Of a range of two pages and one of one page the larger one is evicted, and one page is left. -/
theorem evicts_fewest_cachedTwo : ∃ c : RangeCache, cachedTwo.Reachable ∧
    EvictsFewest 4096 (cachedTwo.paging (.supplier 0)).supplier.cache
      [⟨0x100000000000, 8192, false, true⟩] c ∧ c.cachedBytes = 4096 := by
  have hevicts : Action.Ensures (evictDownTo 4096 [])
      (cachedTwo.paging (.supplier 0)).supplier.cache (fun evicted c => evicted =
        [⟨0x100000000000, 8192, false, true⟩] ∧ c.cachedBytes = 4096) Action.never := by
    decide +kernel
  obtain ⟨htrims, -⟩ := reachable_cachedTwo.evicts_fewest (.supplier 0)
  obtain ⟨_, q, -, evicted, hrun, hfewest⟩ := (htrims 4096).1.exists_ok
  obtain ⟨rfl, hleft⟩ := hevicts.of_ok hrun
  exact ⟨_, reachable_cachedTwo, hfewest, hleft⟩

end Site
end PagedHeap
