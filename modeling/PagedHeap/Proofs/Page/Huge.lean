import PagedHeap.Proofs.Page.Serving
import PagedHeap.Proofs.Page.Counting

/-!
# Requests for whole huge pages

A supplier that is configured for huge pages serves a request for whole ones by a mapping of its
own: its cache never holds as much, and the break is left alone.  A mapping that comes out at the
wrong place is undone, and replaced by a larger one that is cut.  Whichever way it goes, what is
left in use is the range that was handed out, or nothing.

The place asked for first is beside the mapping before.  A kernel that has it to offer puts the
mapping there, and then one call is enough.
-/

namespace PagedHeap

/-- `a` is the place for `size` bytes beside the mapping before, on the side on which the mappings
grow. -/
structure HugeHint.Beside (h : HugeHint) (size a : Nat) : Prop where
  recorded : h.high ≠ 0
  below : h.growingDown = true → a + size = h.low
  above : h.growingDown = false → a = h.high

/-- The pages at `a` are free, and the kernel takes them for a mapping that prefers `a`. -/
structure Kernel.Offers (k : Kernel) (a len : Nat) : Prop where
  follows : k.knobs.followsHints = true
  passes : k.mapFailures.next.1 = false
  free : ∀ x ∈ bytesAt a len, x / pageSize ∈ k.free

/-- The place beside the mapping before is the one that is asked for. -/
theorem HugeHint.Beside.next_eq {h : HugeHint} {size a : Nat} (hbeside : h.Beside size a) :
    h.next size = a := by
  have hbelow := hbeside.below
  have habove := hbeside.above
  rw [next, if_neg hbeside.recorded]
  cases hdown : h.growingDown with
  | true =>
      rw [if_pos rfl, ← hbelow hdown, Nat.add_sub_cancel]
  | false =>
      rw [if_neg Bool.false_ne_true, habove hdown]

/-- Beside an aligned mapping everything is aligned. -/
theorem HugeHint.Beside.aligned {h : HugeHint} {size a : Nat} (hbeside : h.Beside size a)
    (haligned : h.Aligned) (hsize : size % hugePageSize = 0) : a % hugePageSize = 0 := by
  obtain ⟨hlow, hhigh⟩ := haligned
  have hbelow := hbeside.below
  have habove := hbeside.above
  cases hdown : h.growingDown with
  | true =>
      rw [← hbelow hdown] at hlow
      rw [hugePageSize] at hsize hlow ⊢
      omega
  | false => rwa [habove hdown]

namespace Kernel

variable {k : Kernel} {a len : Nat}

/-- What is offered lies in the arena. -/
theorem Offers.inside (h : k.Offers a len) (hvalid : k.Valid) (hpos : 0 < len) :
    arenaBase ≤ a ∧ a + len ≤ Word.signedLimit := by
  have hfirst := (hvalid.free_inside _ (h.free a (mem_bytesAt_self a hpos))).1
  have hlast := (hvalid.free_inside _ (h.free (a + (len - 1)) (mem_bytesAt.2 (by omega)))).2
  have hstop := hvalid.arena_stop
  simp only [firstPage, arenaBase, pageSize] at hfirst hlast hstop ⊢
  omega

/-- A mapping comes out where the kernel offers it. -/
theorem Offers.mapAny_eq (h : k.Offers a len) (hvalid : k.Valid) (hpos : 0 < len)
    (ha : a % pageSize = 0) (hlen : len % pageSize = 0) : (k.mapAny a len).1 = some a := by
  obtain ⟨hbase, -⟩ := h.inside hvalid hpos
  have hcount : 0 < pagesFor len := by
    simp only [pagesFor, pageSize]
    omega
  have hroom : k.hasRoomAt a (pagesFor len) = true := by
    have hcovers : k.free.covers (a / pageSize) (a / pageSize + pagesFor len) = true := by
      rw [ExtentSet.covers_iff (by omega)]
      intro n hfirst hstop
      have hfree := h.free (n * pageSize) (by
        simp only [mem_bytesAt, pagesFor, pageSize] at ha hlen hfirst hstop ⊢
        omega)
      rwa [Nat.mul_div_cancel n pageSize_pos] at hfree
    rw [hasRoomAt, hcovers]
    simpa [isPageMultiple] using ha
  have hplace : k.hintedPlace? a (pagesFor len) = some (a / pageSize) := by
    have hne : a ≠ 0 := by
      simp only [arenaBase] at hbase
      omega
    exact if_pos ⟨hne, h.follows, hroom⟩
  have hgoes : ¬(k.mapFailures.next.1 = true ∨ pagesFor len = 0) := by
    rw [h.passes]
    simpa using Nat.ne_of_gt hcount
  have hmap : (k.mapAny a len).1 =
      (k.mapAt (k.hintedPlace? a (pagesFor len)) (pagesFor len)).1 := rfl
  rw [hmap, hplace, mapAt]
  simp only
  rw [if_neg hgoes, div_mul_pageSize ha]

end Kernel

namespace Paging

open Ranges PagedHeap.Action

/-- A request for `size` bytes, whole huge pages, was answered with `answer?`.  What came into use is
the range that was handed out, at a multiple of a huge page, and if the kernel had the place beside
the mapping before to offer, it is there, by one mapping call. -/
structure ServesHuge (p : Paging) (size : Nat) (answer? : Option Nat) (q : Paging) : Prop where
  inUse_eq : q.kernel.inUse = p.kernel.inUse ∪ Call.bytesGot size answer?
  fresh : Disjoint p.kernel.inUse (Call.bytesGot size answer?)
  aligned : ∀ a, answer? = some a → a % hugePageSize = 0
  beside : ∀ a, p.supplier.hint.Beside size a → p.kernel.Offers a size →
    answer? = some a ∧
      q.kernel.calls = .advise a size .huge :: .mapAny a size (some a) :: p.kernel.calls

variable {p q : Paging} {out : Set Nat} {lent granted size a : Nat} {answer? : Option Nat}

/-- What was obtained without the cache and without the break came into use, and nothing else did. -/
theorem Obtains.came (h : p.Obtains (p.kernel.inUse \ bytes p.cached) lent granted size answer? q)
    (hused : bytes p.cached ⊆ p.kernel.inUse) (hoff : p.OffBreak q) :
    q.kernel.inUse = p.kernel.inUse ∪ Call.bytesGot size answer? ∧
      Disjoint p.kernel.inUse (Call.bytesGot size answer?) := by
  have hcache := hoff.uncounted.cache
  cases answer? with
  | none =>
      have hsound := h.2
      rw [← Set.union_empty (p.kernel.inUse \ bytes p.cached)] at hsound
      exact ⟨hsound.inUse_eq hcache hused hoff.programBreak?, Set.disjoint_empty _⟩
  | some a =>
      obtain ⟨-, hsupplies⟩ := h
      exact ⟨hsupplies.sound.inUse_eq hcache hused hoff.programBreak?, hsupplies.fresh hcache⟩

/-- The cache does not hold a huge page. -/
theorem Sound.ensures_take_nothing (h : Sound p out lent) (hpos : 0 < size)
    (hsize : size % hugePageSize = 0) :
    Ensures (RangeCache.take size) p.supplier.cache
      (fun range? c => range? = none ∧ c = p.supplier.cache) never := by
  apply (h.cache.ensures_take hpos (mod_pageSize_of_huge hsize)).weaken
  intro range? c hpost
  cases range? with
  | none => exact ⟨rfl, hpost⟩
  | some taken =>
      obtain ⟨hlen, hcuts⟩ := hpost
      have hcounted := hcuts.counted
      have hle := h.cache_le
      simp only [cacheLimit, hugePageSize] at hle hsize
      omega

/-- At a place that the kernel offers beside the mapping before, one call is enough. -/
theorem Sound.ensures_mapHuge_beside (h : Sound p out lent) (haligned : p.supplier.hint.Aligned)
    (hpos : 0 < size) (hsize : size % hugePageSize = 0) (hbeside : p.supplier.hint.Beside size a)
    (hoffers : p.kernel.Offers a size) :
    Ensures (mapHuge size) p
      (fun got? q => got? = some a ∧
        q.kernel.calls = .advise a size .huge :: .mapAny a size (some a) :: p.kernel.calls)
      never := by
  have hmod := hbeside.aligned haligned hsize
  have hgot := hoffers.mapAny_eq h.kernel hpos (mod_pageSize_of_huge hmod)
    (mod_pageSize_of_huge hsize)
  have hcalls := p.kernel.calls_mapAny a size
  rw [hgot] at hcalls
  have hstop : Word.add? a size = some (a + size) := by
    obtain ⟨-, hlimit⟩ := hoffers.inside h.kernel hpos
    rw [Word.add?_eq_some_iff]
    refine ⟨rfl, ?_⟩
    simp only [Word.signedLimit, Word.limit] at hlimit ⊢
    omega
  simp only [mapHuge, map, realign, recordHuge, advise, hbeside.next_eq, hgot, hmod, hstop,
    if_true, decide_true, onlyIf_true, ensures_bind, ensures_get, ensures_call, ensures_update,
    ensures_checked_some, ensures_pure]
  exact ⟨trivial, congrArg (List.cons _) hcalls⟩

/-- What a mapping for huge pages comes to. -/
theorem Sound.ensures_mapHuge_serves (h : Sound p out lent) (haligned : p.supplier.hint.Aligned)
    (hpos : 0 < size) (hsize : size % hugePageSize = 0) :
    Ensures (mapHuge size) p (p.ServesHuge size) never := by
  have hused : bytes p.cached ⊆ p.kernel.inUse := Set.subset_union_right.trans h.used
  apply ((h.widens.ensures_mapHuge hpos hsize).and (offBreak_mapHuge size p)).with_run.mono
  · rintro got? q ⟨hrun, ⟨hobtains, hmod⟩, hoff⟩
    obtain ⟨huse, hfresh⟩ := hobtains.came hused hoff
    refine ⟨huse, hfresh, hmod, fun a hbeside hoffers => ?_⟩
    exact (h.ensures_mapHuge_beside haligned hpos hsize hbeside hoffers).of_ok hrun
  · exact fun _ _ hends => hends.1

/-- A supplier for huge pages serves a request for whole ones by a mapping of its own. -/
theorem Sound.ensures_servesHuge (h : Sound p out lent)
    (hhuge : p.supplier.config.hugePages = true) (haligned : p.supplier.hint.Aligned)
    (hpos : 0 < size) (hsize : size % hugePageSize = 0) :
    Ensures (allocate size) p (p.ServesHuge size) never := by
  have hwants : p.supplier.wantsHuge size = true := by
    rw [PageSupplier.wantsHuge, hhuge, hsize]
    rfl
  simp only [allocate, ensures_bind]
  apply ensures_require (by simp [hpos, mod_pageSize_of_huge hsize, isPageMultiple])
  rw [ensures_onCache]
  apply (h.ensures_take_nothing hpos hsize).weaken
  rintro range? c ⟨rfl, rfl⟩
  simp only [Paging.obtain, tryBreak, mapFresh, hwants, Bool.not_true, Bool.and_false,
    Bool.false_eq_true, if_false, if_true, ensures_bind, ensures_get, ensures_pure]
  apply (h.ensures_mapHuge_serves haligned hpos hsize).weaken
  intro got? q hserves
  cases got? with
  | none => exact .answer hserves
  | some got =>
      -- Counting leaves the kernel as it is.
      simp only [countMap, countLive, ensures_bind, ensures_update, ensures_pure]
      exact ⟨hserves.inUse_eq, hserves.fresh, hserves.aligned, hserves.beside⟩

end Paging
end PagedHeap
