import PagedHeap.Proofs.Page.Serving
import PagedHeap.Proofs.Kernel.Moves

/-!
# Growing in place, all or nothing

A range is grown where it is by the bytes behind it, and there are four ways to get them: they wait
in the cache, or the break is moved over them, or the mapping is grown by them, or they are mapped.
Where one way fails, or leads elsewhere, what was done on it is undone before the next is tried.  So
the attempt adds these bytes, all of them and no others, or it changes nothing.
-/

namespace PagedHeap
namespace Kernel

variable {k k' k'' : Kernel} {new : Set Nat}

/-- What came before brought nothing into use. -/
theorem Grows.after (h' : Grows k' k'' new) (h : Grows k k' ∅) : Grows k k'' new := by
  have huse := h.inUse_eq
  rw [Set.union_empty] at huse
  refine ⟨h'.valid, ?_, ?_, fun x hx => ?_⟩
  · rw [h'.inUse_eq, huse]
  · rw [← huse]
    exact h'.fresh
  · rw [h'.kept x (huse ▸ hx), h.kept x hx]

/-- What came into use went out of it again. -/
theorem Grows.undone (h : Grows k k' new) (h' : Shrinks k' k'' new) : Grows k k'' ∅ := by
  have huse : k''.inUse = k.inUse := by
    rw [h'.inUse_eq, h.inUse_eq, Set.union_sdiff_right, h.fresh.sdiff_eq_left]
  refine ⟨h'.valid, ?_, Set.disjoint_empty _, fun x hx => ?_⟩
  · rw [huse, Set.union_empty]
  · rw [h'.kept x (huse ▸ hx), h.kept x hx]

end Kernel

/-- The range that was cut out of the cache is the front of a cached one. -/
theorem RangeCache.ensures_takeAt_front (c : RangeCache) (address len : Nat) :
    Action.Ensures (takeAt address len) c
      (fun range? _ => range? ≠ none → ∃ r ∈ c.ranges, r.address = address ∧ len ≤ r.len)
      fun _ _ => True := by
  unfold takeAt
  simp only [Action.ensures_bind, Action.ensures_get]
  cases hfound : c.startingAt? address len with
  | none => exact .answer fun hnone => absurd rfl hnone
  | some found =>
      obtain ⟨i, r⟩ := found
      obtain ⟨hslot, heligible⟩ := choose_eq_some hfound
      rw [Bool.and_eq_true, beq_iff_eq, decide_eq_true_iff] at heligible
      have hmem : r ∈ c.ranges := mem_held.2 (List.mem_of_getElem? hslot)
      exact .of_all (fun _ _ _ => ⟨r, hmem, heligible⟩) fun _ _ => trivial

namespace Paging

open Ranges

/-- The books are as they were, and so are the break, which memory is in use, and what it holds. -/
structure Untouched (p q : Paging) : Prop where
  supplier : q.supplier = p.supplier
  inUse_eq : q.kernel.inUse = p.kernel.inUse
  programBreak? : q.kernel.programBreak? = p.kernel.programBreak?
  byteAt : ∀ x ∈ p.kernel.inUse, q.byteAt x = p.byteAt x

/-- The first `delta` bytes of a cached range at `tail` left the cache, and the kernel was not
asked for anything. -/
structure TakesTail (p : Paging) (tail delta : Nat) (q : Paging) : Prop where
  range : ∃ r ∈ p.cached, r.address = tail ∧ delta ≤ r.len
  cached_eq : bytes p.cached = bytesAt tail delta ∪ bytes q.cached
  apart : Disjoint (bytesAt tail delta) (bytes q.cached)
  inUse_eq : q.kernel.inUse = p.kernel.inUse
  calls_eq : q.kernel.calls = p.kernel.calls

/-- The `delta` bytes at `tail` came into use, and the cache is as it was. -/
structure FetchesTail (p : Paging) (tail delta : Nat) (q : Paging) : Prop where
  cache_eq : q.supplier.cache = p.supplier.cache
  fresh : Disjoint p.kernel.inUse (bytesAt tail delta)
  inUse_eq : q.kernel.inUse = p.kernel.inUse ∪ bytesAt tail delta

/-- The `delta` bytes at `tail` were added to what is lent.  Other memory holds what it held. -/
structure AddsTail (p : Paging) (tail delta : Nat) (q : Paging) : Prop where
  source : p.TakesTail tail delta q ∨ p.FetchesTail tail delta q
  counted : q.supplier.liveBytes = p.supplier.liveBytes + UInt64.ofNat delta
  kept : ∀ x ∈ p.kernel.inUse, x ∉ bytesAt tail delta → q.byteAt x = p.byteAt x

/-- The `delta` bytes at `tail` were added, or nothing was changed. -/
def AddsOrNot (p : Paging) (tail delta : Nat) : Bool → Paging → Prop
  | true, q => p.AddsTail tail delta q
  | false, q => p.Untouched q

variable {p q : Paging} {out : Set Nat} {lent address old new tail delta : Nat}

theorem Untouched.refl (p : Paging) : p.Untouched p := ⟨rfl, rfl, rfl, fun _ _ => rfl⟩

/-! ## From the kernel -/

/-- Whether the `delta` bytes at `tail` came into use, if not by moving the break; the books are as
they were. -/
structure Reaches (p : Paging) (tail delta : Nat) (grown : Bool) (q : Paging) : Prop where
  supplier : q.supplier = p.supplier
  grows : p.kernel.Grows q.kernel (if grown = true then bytesAt tail delta else ∅)
  programBreak? : q.kernel.programBreak? = p.kernel.programBreak?

theorem Reaches.untouched (h : p.Reaches tail delta false q) : p.Untouched q where
  supplier := h.supplier
  inUse_eq := by rw [h.grows.inUse_eq, if_neg Bool.false_ne_true, Set.union_empty]
  programBreak? := h.programBreak?
  byteAt := h.grows.kept

/-- Memory came into use, and was counted. -/
theorem addsTail_of_grows (hgrows : p.kernel.Grows q.kernel (bytesAt tail delta))
    (hcache : q.supplier.cache = p.supplier.cache)
    (hcounted : q.supplier.liveBytes = p.supplier.liveBytes + UInt64.ofNat delta) :
    p.AddsTail tail delta q where
  source := .inr ⟨hcache, hgrows.fresh, hgrows.inUse_eq⟩
  counted := hcounted
  kept x hx _ := hgrows.kept x hx

theorem Sound.ensures_mapExact_reaches (h : Sound p out lent) (hdelta : delta % pageSize = 0) :
    Action.Ensures (mapExact tail delta) p (p.Reaches tail delta) Action.never := by
  have hmaps := h.kernel.mapExact tail hdelta
  have hbreak := p.kernel.programBreak?_mapExact tail delta
  simp only [mapExact, Action.ensures_bind, ensures_call]
  cases hgot : (p.kernel.mapExact tail delta).1 with
  | none =>
      rw [hgot] at hmaps
      exact .answer ⟨rfl, hmaps, hbreak⟩
  | some got =>
      rw [hgot] at hmaps
      obtain ⟨hgrows, haligned, hbase, -⟩ := hmaps
      simp only [Action.ensures_ite]
      split
      · rename_i hplace
        subst hplace
        exact .answer ⟨rfl, hgrows, hbreak⟩
      · -- All of a mapping lies in the arena, so all of it goes when it is unmapped.
        have hshrinks := hgrows.valid.unmap haligned hdelta
        have hall : {x | x ∈ bytesAt got delta ∧ arenaBase ≤ x} = bytesAt got delta := by
          ext x
          exact ⟨fun hx => hx.1, fun hx => ⟨hx, Nat.le_trans hbase (mem_bytesAt.1 hx).1⟩⟩
        rw [hall] at hshrinks
        simp only [unmap, ensures_call, Action.ensures_bind, Action.ensures_pure]
        exact ⟨rfl, hgrows.undone hshrinks, hbreak⟩

theorem Sound.ensures_growMapping_reaches (h : Sound p out lent) (hgrows : old < new)
    (hdelta : (new - old) % pageSize = 0) :
    Action.Ensures (growMapping address old new (address + old) (new - old)) p
      (p.Reaches (address + old) (new - old)) Action.never := by
  have hremap := h.kernel.remap address hgrows hdelta
  have hbreak := p.kernel.programBreak?_remap address old new
  have hobtains := h.obtains_of_maps hremap (p.kernel.calls_remap address old new)
    (Call.gained_remap address old new _) rfl
  simp only [growMapping, Action.ensures_bind, ensures_call, Action.ensures_ite]
  split
  · rename_i hgrown
    rw [if_pos hgrown] at hremap
    exact .answer ⟨rfl, hremap.1, hbreak⟩
  · rename_i hnot
    rw [if_neg hnot] at hremap hobtains
    apply (hobtains.2.ensures_mapExact_reaches hdelta).weaken
    intro mapped q hreaches
    exact ⟨hreaches.supplier, hreaches.grows.after hremap, hreaches.programBreak?.trans hbreak⟩

theorem Sound.ensures_extendMapping_wholly (h : Sound p out lent) (hgrows : old < new)
    (hdelta : (new - old) % pageSize = 0) :
    Action.Ensures (extendMapping address old new (address + old) (new - old)) p
      (p.AddsOrNot (address + old) (new - old)) Action.never := by
  simp only [extendMapping, Action.ensures_bind]
  apply (h.ensures_growMapping_reaches hgrows hdelta).weaken
  intro grown q hreaches
  cases grown with
  | false =>
      simp only [Action.onlyIf_false, Action.ensures_pure]
      exact hreaches.untouched
  | true =>
      simp only [Action.onlyIf_true, countMap, countLive, Action.ensures_bind, ensures_update,
        Action.ensures_pure]
      have hsupplier := hreaches.supplier
      refine addsTail_of_grows hreaches.grows ?_ ?_
      · show q.supplier.cache = p.supplier.cache
        rw [hsupplier]
      · show q.supplier.liveBytes + _ = _
        rw [hsupplier]

theorem Sound.ensures_extendBreak_wholly (h : Sound p out lent) (hpos : 0 < delta) :
    Action.Ensures (extendBreak tail delta) p (p.AddsOrNot tail delta) Action.never := by
  have hmoves : (delta : Int) ≠ 0 := by omega
  unfold extendBreak
  cases hstop : Word.add? tail delta with
  | none => exact .answer (Untouched.refl p)
  | some stop =>
      simp only [Action.ensures_bind, Action.ensures_get, ensures_programBreak,
        Action.ensures_ite]
      split
      · rename_i hcan
        simp only [moveBreak, ensures_call]
        rcases h.kernel.raiseBreak hpos with ⟨hnone, hgrows⟩ | ⟨hsome, hgrows, -, -⟩
        · have hreaches : p.Reaches tail delta false
              { p with kernel := (p.kernel.moveBreak delta).2 } :=
            ⟨rfl, hgrows, (Kernel.moveBreak_refused hmoves hnone).1⟩
          rw [hnone]
          exact .answer hreaches.untouched
        · rw [hcan.2.2] at hgrows
          rw [hsome]
          simp only [countLive, ensures_update, Action.ensures_bind, Action.ensures_pure]
          exact addsTail_of_grows hgrows rfl rfl
      · exact .answer (Untouched.refl p)

/-! ## From the cache -/

/-- The front of a cached range was cut off, and handed out. -/
theorem Sound.ensures_takesTail {r taken : Range} {c : RangeCache} (h : Sound p out lent)
    (hr : r ∈ p.cached) (hplace : r.address = taken.address ∧ taken.len ≤ r.len)
    (hcuts : p.supplier.cache.Cuts taken c) :
    Action.Ensures (handOut taken) (p.withCache c)
      (fun _ q => p.AddsTail taken.address taken.len q) Action.never := by
  have hbytes := hcuts.reshapes.bytes_eq
  have htidy := hcuts.reshapes.tidy h.cache.tidy
  rw [bytes_cons] at hbytes
  rw [tidy_cons] at htidy
  have htakes : ∀ q : Paging, q.cached = c.ranges → q.kernel.inUse = p.kernel.inUse →
      q.kernel.calls = p.kernel.calls → p.TakesTail taken.address taken.len q := by
    intro q hcache huse hcalls
    refine ⟨⟨r, hr, hplace⟩, ?_, ?_, huse, hcalls⟩
    · rw [hcache]
      exact hbytes.symm
    · rw [hcache]
      exact htidy.2.1
  simp only [handOut, zero, countLive, Action.ensures_bind, Action.ensures_onlyIf, ensures_call,
    ensures_update]
  split
  · exact ⟨.inl (htakes _ rfl (Kernel.inUse_congr rfl rfl rfl) rfl), rfl,
      fun x _ hx => Memory.byteAt_clear_outside hx⟩
  · exact ⟨.inl (htakes _ rfl rfl rfl), rfl, fun _ _ _ => rfl⟩

/-- A range grows in place by the bytes behind it, or nothing is changed. -/
theorem Sound.ensures_extendInPlace_wholly (h : Sound p out lent)
    (hown : bytesAt address old ⊆ out) (hpos : 0 < old) (hgrows : old < new)
    (hold : old % pageSize = 0) (hnew : new % pageSize = 0) :
    Action.Ensures (extendInPlace address old new) p
      (p.AddsOrNot (address + old) (new - old)) Action.never := by
  have hword : Word.add? address old = some (address + old) := h.add?_stop hown hpos
  have hdelta : (new - old) % pageSize = 0 := by
    simp only [pageSize] at hold hnew ⊢
    omega
  simp only [extendInPlace, Action.ensures_ite]
  rw [if_neg (Nat.not_le.2 hgrows)]
  simp only [hword, Action.ensures_bind, Action.ensures_checked_some, ensures_onCache]
  apply ((h.cache.ensures_takeAt (Nat.sub_pos_of_lt hgrows) hdelta).and
    (p.supplier.cache.ensures_takeAt_front (address + old) (new - old))).mono _
      fun _ _ hends => hends.1
  rintro range? c ⟨hpost, hfront⟩
  cases range? with
  | some taken =>
      obtain ⟨hplace, hlen, hcuts⟩ := hpost
      obtain ⟨r, hr, hstarts, hfits⟩ := hfront (Option.some_ne_none taken)
      rw [← hplace] at hstarts
      rw [← hlen] at hfits
      simp only [Action.ensures_bind, Action.ensures_pure]
      apply (h.ensures_takesTail hr ⟨hstarts, hfits⟩ hcuts).weaken
      intro _ q hadds
      rwa [hplace, hlen] at hadds
  | none =>
      obtain rfl := hpost
      simp only [Action.ensures_bind, Action.ensures_get, Action.ensures_ite]
      split
      · exact h.ensures_extendBreak_wholly (Nat.sub_pos_of_lt hgrows)
      · exact h.ensures_extendMapping_wholly hgrows hdelta

/-! ## What was added -/

/-- What is in use and not cached grew by the bytes that were added. -/
theorem AddsTail.live_eq (h : p.AddsTail tail delta q) (hsound : Sound p out lent) :
    q.kernel.inUse \ bytes q.cached =
      p.kernel.inUse \ bytes p.cached ∪ bytesAt tail delta := by
  have hused : bytes p.cached ⊆ p.kernel.inUse := Set.subset_union_right.trans hsound.used
  rcases h.source with htakes | hfetches
  · have hback := htakes.apart.sdiff_eq_left
    rw [htakes.cached_eq] at hused ⊢
    rw [htakes.inUse_eq]
    ext x
    have hapart : x ∈ bytesAt tail delta → x ∉ bytes q.cached :=
      fun hx => Set.disjoint_left.1 htakes.apart hx
    have hin : x ∈ bytesAt tail delta → x ∈ p.kernel.inUse := fun hx => hused (.inl hx)
    simp only [Set.mem_sdiff, Set.mem_union]
    tauto
  · have hcached : q.cached = p.cached := congrArg RangeCache.ranges hfetches.cache_eq
    have hapart := hfetches.fresh.mono_left hused
    rw [hfetches.inUse_eq, hcached, Set.union_sdiff_distrib, hapart.symm.sdiff_eq_left]

/-- No cached range but the one that starts at `tail` has any of the bytes that were added. -/
theorem AddsTail.uncached (h : p.AddsTail tail delta q) (hsound : Sound p out lent) {r : Range}
    (hr : r ∈ p.cached) (hne : r.address ≠ tail) : Disjoint (bytesAt tail delta) r.bytes := by
  rcases h.source with htakes | hfetches
  · obtain ⟨r', hr', hplace, hlen⟩ := htakes.range
    have hinside : bytesAt tail delta ⊆ r'.bytes := by
      rw [← hplace]
      exact bytesAt_subset (Nat.le_refl _) (Nat.add_le_add_left hlen _)
    have hdiff : r' ≠ r := fun heq => hne (heq ▸ hplace)
    exact (hsound.cache.tidy.disjoint hr' hr hdiff).mono_left hinside
  · have hused : r.bytes ⊆ p.kernel.inUse :=
      (bytes_subset_of_mem hr).trans (Set.subset_union_right.trans hsound.used)
    exact (hfetches.fresh.mono_left hused).symm

end Paging
end PagedHeap
