import PagedHeap.Proofs.Confined
import PagedHeap.Proofs.Page.Serving

/-!
# What a supplier counts

A supplier counts how often it got fresh memory from the kernel and kept it, and how many ranges it
gave back.  A request for pages fetches memory at most once, by moving the break or by mapping, and
so does a request to extend a range.  It is counted unless a range was extended by moving the break.

On the way there calls fail, and mappings are made and undone.  None of that is left in use, so what
is fetched can be told from which bytes are in use before and after.
-/

namespace PagedHeap

/-- A range is to be extended. -/
def PageRequest.IsExtension : PageRequest → Prop
  | .extend _ _ _ => True
  | .allocate _ | .reclaim _ _ _ | .trim _ | .look => False

namespace Paging

open Ranges PagedHeap.Action

/-- Bytes came into use that were not. -/
def Fetches (p q : Paging) : Prop := ∃ x ∈ q.kernel.inUse, x ∉ p.kernel.inUse

/-- What was fetched is counted, unless the break was raised for an `extension`. -/
structure CountsMaps (p : Paging) (extension : Prop) (q : Paging) : Prop where
  idle : ¬p.Fetches q → q.supplier.kernelMaps = p.supplier.kernelMaps
  fetched : p.Fetches q → ¬(extension ∧ p.kernel.programBreak < q.kernel.programBreak) →
    q.supplier.kernelMaps = p.supplier.kernelMaps + 1
  raised : extension → p.kernel.programBreak < q.kernel.programBreak →
    p.Fetches q ∧ q.supplier.kernelMaps = p.supplier.kernelMaps

/-- The cache and both counts are as they were. -/
structure Uncounted (p q : Paging) : Prop where
  cache : q.supplier.cache = p.supplier.cache
  kernelMaps : q.supplier.kernelMaps = p.supplier.kernelMaps
  kernelUnmaps : q.supplier.kernelUnmaps = p.supplier.kernelUnmaps

/-- The break is where it was, too. -/
structure OffBreak (p q : Paging) : Prop where
  uncounted : p.Uncounted q
  programBreak? : q.kernel.programBreak? = p.kernel.programBreak?

variable {p q : Paging} {out : Set Nat} {lent granted size address : Nat} {extension : Prop}

instance : Std.Refl Uncounted := ⟨fun _ => ⟨rfl, rfl, rfl⟩⟩

instance : IsTrans Paging Uncounted :=
  ⟨fun _ _ _ h h' => ⟨h'.cache.trans h.cache, h'.kernelMaps.trans h.kernelMaps,
    h'.kernelUnmaps.trans h.kernelUnmaps⟩⟩

instance : Std.Refl OffBreak := ⟨fun p => ⟨Std.Refl.refl p, rfl⟩⟩

instance : IsTrans Paging OffBreak :=
  ⟨fun _ _ _ h h' => ⟨IsTrans.trans _ _ _ h.uncounted h'.uncounted,
    h'.programBreak?.trans h.programBreak?⟩⟩

/-! ## Mapping does not move the break -/

theorem offBreak_call {α : Type} {step : Kernel → α × Kernel}
    (hbreak : ∀ k, (step k).2.programBreak? = k.programBreak?) : Leaves OffBreak (call step) :=
  fun p => ensures_call.2 ⟨⟨rfl, rfl, rfl⟩, hbreak p.kernel⟩

theorem offBreak_map (hint len : Nat) : Leaves OffBreak (map hint len) :=
  offBreak_call fun k => k.programBreak?_mapAny hint len

theorem offBreak_unmap (address len : Nat) : Leaves OffBreak (unmap address len) :=
  offBreak_call fun _ => rfl

theorem offBreak_trimEnds (raw total start size : Nat) :
    Leaves OffBreak (trimEnds raw total start size) := by
  refine (confined_checked trivial _).bind fun tail => ?_
  exact ((offBreak_unmap _ _).onlyIf _).bind fun _ => (offBreak_unmap _ _).onlyIf _

theorem offBreak_mapAligned (size align : Nat) : Leaves OffBreak (mapAligned size align) := by
  unfold mapAligned
  cases Word.add? size align with
  | none => exact confined_pure none
  | some total =>
      refine (offBreak_map 0 total).bind fun raw? => ?_
      cases raw? with
      | none => exact confined_pure none
      | some raw =>
          refine (confined_checked trivial _).bind fun start => ?_
          exact (offBreak_trimEnds raw total start size).bind fun _ => confined_pure _

theorem offBreak_realign (got size : Nat) : Leaves OffBreak (realign got size) :=
  Confined.ite (confined_pure _)
    ((offBreak_unmap got size).bind fun _ => offBreak_mapAligned size _)

theorem offBreak_recordHuge (address size : Nat) : Leaves OffBreak (recordHuge address size) := by
  refine (confined_checked trivial _).bind fun stop => ?_
  have hnoted : Leaves OffBreak (update fun s => { s with hint := s.hint.record address stop }) :=
    confined_modify fun _ => ⟨⟨rfl, rfl, rfl⟩, rfl⟩
  exact hnoted.bind fun _ => (offBreak_call fun _ => rfl).onlyIf _

theorem offBreak_mapHuge (size : Nat) : Leaves OffBreak (mapHuge size) := by
  refine confined_get.bind fun p => (offBreak_map _ size).bind fun got? => ?_
  cases got? with
  | none => exact confined_pure none
  | some got =>
      refine (offBreak_realign got size).bind fun address? => ?_
      cases address? with
      | none => exact confined_pure none
      | some address => exact (offBreak_recordHuge address size).bind fun _ => confined_pure _

theorem offBreak_mapFresh (size : Nat) : Leaves OffBreak (mapFresh size) :=
  confined_get.bind fun _ => Confined.ite (offBreak_mapHuge size) (offBreak_map 0 size)

theorem offBreak_mapExact (address len : Nat) : Leaves OffBreak (mapExact address len) := by
  refine (offBreak_call fun k => k.programBreak?_mapExact address len).bind fun got? => ?_
  cases got? with
  | none => exact confined_pure false
  | some got =>
      exact Confined.ite (confined_pure true)
        ((offBreak_unmap got len).bind fun _ => confined_pure false)

theorem offBreak_growMapping (address old new tail delta : Nat) :
    Leaves OffBreak (growMapping address old new tail delta) :=
  (offBreak_call fun k => k.programBreak?_remap address old new).bind fun _ =>
    Confined.ite (confined_pure true) (offBreak_mapExact tail delta)

/-! ## Moving the break is not counted -/

theorem uncounted_moveBreak (delta : Int) : Leaves Uncounted (moveBreak delta) :=
  fun _ => ensures_call.2 ⟨rfl, rfl, rfl⟩

theorem uncounted_raiseBreak (pad size total : Nat) :
    Leaves Uncounted (raiseBreak pad size total) := by
  refine (uncounted_moveBreak total).bind fun old? => ?_
  cases old? with
  | none => exact confined_pure none
  | some old =>
      refine (confined_checked trivial _).bind fun start => ?_
      cases Word.add? start size with
      | none => exact (uncounted_moveBreak _).bind fun _ => confined_pure none
      | some stop =>
          have hrecorded : Leaves Uncounted (recordRaised start stop) :=
            confined_modify fun _ => ⟨rfl, rfl, rfl⟩
          exact hrecorded.bind fun _ => confined_pure _

theorem uncounted_growBreak (size : Nat) : Leaves Uncounted (growBreak size) := by
  refine confined_get.bind fun p => Confined.ite (confined_pure none) ?_
  refine (confined_checked trivial _).bind fun aligned => ?_
  cases Word.add? size (aligned - p.kernel.programBreak) with
  | none => exact confined_pure none
  | some total => exact Confined.ite (confined_pure none) (uncounted_raiseBreak _ size total)

theorem uncounted_tryBreak (size : Nat) : Leaves Uncounted (tryBreak size) :=
  confined_get.bind fun _ => Confined.ite (uncounted_growBreak size) (confined_pure none)

theorem uncounted_obtain (size : Nat) : Leaves Uncounted (Paging.obtain size) := by
  refine (uncounted_tryBreak size).bind fun address? => ?_
  cases address? with
  | none => exact fun p => (offBreak_mapFresh size p).imp fun _ _ hoff => hoff.uncounted
  | some address => exact confined_pure _

/-! ## Without an answer the break is where it was -/

theorem Sound.raiseBreak_unmoved (h : Sound p out lent) {pad total : Nat} (hpos : 0 < size)
    (htotal : total = size + pad) :
    Ensures (raiseBreak pad size total) p
      (fun address? q => address? = none → q.kernel.programBreak? = p.kernel.programBreak?)
      fun _ _ => True := by
  have hdelta : (total : Int) ≠ 0 := by omega
  unfold raiseBreak
  simp only [moveBreak, ensures_bind, ensures_call]
  rcases h.kernel.raiseBreak (show 0 < total by omega) with ⟨hnone, -⟩ | ⟨hsome, -, hlt, -⟩
  · rw [hnone]
    exact .answer fun _ => (Kernel.moveBreak_refused hdelta hnone).1
  · have hstart : Word.add? p.kernel.programBreak pad = some (p.kernel.programBreak + pad) :=
      Word.add?_of_lt_arenaBase (by omega)
    have hstop : Word.add? (p.kernel.programBreak + pad) size =
        some (p.kernel.programBreak + pad + size) :=
      Word.add?_of_lt_arenaBase (by omega)
    rw [hsome]
    simp only [hstart, hstop, recordRaised, ensures_bind, ensures_checked_some, ensures_update,
      ensures_pure]
    exact fun hanswer => absurd hanswer (Option.some_ne_none _)

theorem Sound.tryBreak_unmoved (h : Sound p out lent) (hpos : 0 < size) :
    Ensures (tryBreak size) p
      (fun address? q => address? = none → q.kernel.programBreak? = p.kernel.programBreak?)
      fun _ _ => True := by
  simp only [tryBreak, growBreak, ensures_bind, ensures_get, ensures_programBreak, ensures_ite,
    ensures_pure]
  split
  · split
    · exact fun _ => trivial
    · cases Word.alignUp? p.kernel.programBreak pageSize with
      | none => exact ensures_halt.2 trivial
      | some aligned =>
          rw [ensures_checked_some]
          cases htotal : Word.add? size (aligned - p.kernel.programBreak) with
          | none => exact .answer fun _ => rfl
          | some total =>
              obtain ⟨rfl, -⟩ := Word.add?_eq_some_iff.1 htotal
              simp only [ensures_ite, ensures_pure]
              split
              · exact fun _ => trivial
              · exact h.raiseBreak_unmoved hpos rfl
  · exact fun _ => trivial

theorem Sound.obtain_unmoved (h : Sound p out lent) (hpos : 0 < size) :
    Ensures (Paging.obtain size) p
      (fun address? q => address? = none → q.kernel.programBreak? = p.kernel.programBreak?)
      fun _ _ => True := by
  simp only [Paging.obtain, ensures_bind]
  apply (h.tryBreak_unmoved hpos).imp
  intro address? p₁ hunmoved
  cases address? with
  | some address => exact .answer fun hanswer => absurd hanswer (Option.some_ne_none _)
  | none =>
      apply (offBreak_mapFresh size p₁).imp
      exact fun _ q hoff _ => hoff.programBreak?.trans (hunmoved rfl)

/-! ## What was fetched -/

/-- All that is in use and not cached may be out. -/
theorem Sound.widens (h : Sound p out lent) :
    Sound p (p.kernel.inUse \ bytes p.cached) lent where
  kernel := h.kernel
  cache := h.cache
  cache_le := h.cache_le
  region := h.region
  tidy := h.tidy
  used := Set.union_subset Set.sdiff_subset (Set.subset_union_right.trans h.used)
  apart := Set.disjoint_sdiff_left
  exact x hx _ := by
    by_cases hcached : x ∈ bytes p.cached
    · exact .inr hcached
    · exact .inl ⟨hx, hcached⟩
  honest := h.honest
  counted := h.counted

/-- Memory that was obtained was not in use. -/
theorem Supplies.fresh (h : Supplies q (p.kernel.inUse \ bytes p.cached) granted address size)
    (hcache : q.supplier.cache = p.supplier.cache) :
    Disjoint p.kernel.inUse (bytesAt address size) := by
  refine Set.disjoint_right.2 fun x hx hin => ?_
  -- It is apart from what was out, and from what is cached still.
  have hcached : x ∉ bytes p.cached := by
    have hapart := Set.disjoint_left.1 h.sound.apart (.inr hx)
    rwa [List.nil_append, cached, hcache] at hapart
  exact Set.disjoint_right.1 h.apart hx ⟨hin, hcached⟩

theorem Supplies.fetches (h : Supplies q (p.kernel.inUse \ bytes p.cached) granted address size)
    (hcache : q.supplier.cache = p.supplier.cache) (hpos : 0 < size) : p.Fetches q := by
  have hmem : address ∈ bytesAt address size := mem_bytesAt_self address hpos
  exact ⟨address, h.sound.used (.inl (.inr hmem)), Set.disjoint_right.1 (h.fresh hcache) hmem⟩

/-- What is still out and still cached was in use before, and with the break where it was nothing
else is but what is `new`. -/
theorem Sound.inUse_eq {new : Set Nat} (h : Sound q (p.kernel.inUse \ bytes p.cached ∪ new) lent)
    (hcache : q.supplier.cache = p.supplier.cache)
    (hused : bytes p.cached ⊆ p.kernel.inUse)
    (hbreak : q.kernel.programBreak? = p.kernel.programBreak?) :
    q.kernel.inUse = p.kernel.inUse ∪ new := by
  have hcached : q.cached = p.cached := congrArg RangeCache.ranges hcache
  have hall := h.used
  rw [List.nil_append, hcached] at hall
  ext x
  constructor
  · intro hx
    by_cases hbase : arenaBase ≤ x
    · have hheld := h.exact x hx hbase
      rw [List.nil_append, hcached] at hheld
      rcases hheld with (hout | hnew) | hcached
      · exact .inl hout.1
      · exact .inr hnew
      · exact .inl (hused hcached)
    · rcases hx with ⟨habove, -⟩ | hbelow
      · exact absurd habove hbase
      · rw [hbreak] at hbelow
        exact .inl (.inr hbelow)
  · intro hx
    rcases hx with hin | hnew
    · by_cases hcached : x ∈ bytes p.cached
      · exact hall (.inr hcached)
      · exact hall (.inl (.inl ⟨hin, hcached⟩))
    · exact hall (.inl (.inr hnew))

/-- Nothing was fetched if nothing is new. -/
theorem Sound.not_fetches (h : Sound q (p.kernel.inUse \ bytes p.cached) lent)
    (hcache : q.supplier.cache = p.supplier.cache)
    (hused : bytes p.cached ⊆ p.kernel.inUse)
    (hbreak : q.kernel.programBreak? = p.kernel.programBreak?) : ¬p.Fetches q := by
  rw [← Set.union_empty (p.kernel.inUse \ bytes p.cached)] at h
  have huse := h.inUse_eq hcache hused hbreak
  rw [Set.union_empty] at huse
  rintro ⟨x, hx, hnot⟩
  exact hnot (huse ▸ hx)

theorem not_fetches_of_subset (h : q.kernel.inUse ⊆ p.kernel.inUse) : ¬p.Fetches q :=
  fun ⟨_, hx, hnot⟩ => hnot (h hx)

/-- Nothing was fetched, and the break not raised. -/
theorem countsMaps_idle (hmaps : q.supplier.kernelMaps = p.supplier.kernelMaps)
    (hnot : ¬p.Fetches q) (hbreak : q.kernel.programBreak ≤ p.kernel.programBreak) :
    p.CountsMaps extension q where
  idle _ := hmaps
  fetched hfetches := absurd hfetches hnot
  raised _ hrose := absurd hrose (Nat.not_lt.2 hbreak)

/-- Nothing happened. -/
theorem countsMaps_refl (p : Paging) : p.CountsMaps extension p :=
  countsMaps_idle rfl (not_fetches_of_subset (Set.Subset.refl _)) (Nat.le_refl _)

/-- Memory was fetched and counted. -/
theorem countsMaps_fetched (hmaps : q.supplier.kernelMaps = p.supplier.kernelMaps + 1)
    (hfetches : p.Fetches q)
    (hraised : ¬(extension ∧ p.kernel.programBreak < q.kernel.programBreak)) :
    p.CountsMaps extension q where
  idle hnot := absurd hfetches hnot
  fetched _ _ := hmaps
  raised hextension hrose := absurd ⟨hextension, hrose⟩ hraised

/-- The break was raised for an extension, and that was not counted. -/
theorem countsMaps_raised (hmaps : q.supplier.kernelMaps = p.supplier.kernelMaps)
    (hfetches : p.Fetches q) (hextension : extension)
    (hrose : p.kernel.programBreak < q.kernel.programBreak) : p.CountsMaps extension q where
  idle _ := hmaps
  fetched _ hnot := absurd ⟨hextension, hrose⟩ hnot
  raised _ _ := ⟨hfetches, hmaps⟩

/-! ## What is counted -/

/-- What is cut out of the cache is handed out without the kernel. -/
theorem ensures_handOut_counts (p : Paging) (c : RangeCache) (r : Range) (extension : Prop) :
    Ensures (handOut r) (p.withCache c)
      (fun _ q => p.CountsMaps extension q ∧
        q.supplier.kernelUnmaps = p.supplier.kernelUnmaps) never := by
  simp only [handOut, zero, countLive, ensures_bind, ensures_onlyIf, ensures_call, ensures_update]
  split
  · refine ⟨countsMaps_idle rfl (not_fetches_of_subset ?_) (Nat.le_refl _), rfl⟩
    exact (Kernel.inUse_congr rfl rfl rfl).subset
  · exact ⟨countsMaps_idle rfl (not_fetches_of_subset (Set.Subset.refl _)) (Nat.le_refl _),
      rfl⟩

theorem Sound.ensures_allocate_counts (h : Sound p out lent) (hpos : 0 < size)
    (hsize : size % pageSize = 0) :
    Ensures (allocate size) p
      (fun _ q => p.CountsMaps False q ∧ q.supplier.kernelUnmaps = p.supplier.kernelUnmaps)
      never := by
  have hused : bytes p.cached ⊆ p.kernel.inUse := Set.subset_union_right.trans h.used
  simp only [allocate, ensures_bind]
  apply ensures_require (by simp [hpos, hsize, isPageMultiple])
  rw [ensures_onCache]
  apply (h.cache.ensures_take hpos hsize).weaken
  intro range? c hpost
  cases range? with
  | some taken =>
      simp only [ensures_bind, ensures_pure]
      exact p.ensures_handOut_counts c taken False
  | none =>
      obtain rfl := hpost
      simp only [ensures_bind]
      apply (((h.widens.ensures_obtain hpos hsize).and (uncounted_obtain size p)).and
        (h.obtain_unmoved hpos)).mono _ fun _ _ hends => hends.1.1
      rintro address? p₁ ⟨⟨hobtains, huncounted⟩, hunmoved⟩
      cases address? with
      | none =>
          have hbreak := hunmoved rfl
          exact .answer ⟨countsMaps_idle huncounted.kernelMaps
            (hobtains.2.not_fetches huncounted.cache hused hbreak)
            (Nat.le_of_eq (Kernel.programBreak_congr hbreak)), huncounted.kernelUnmaps⟩
      | some address =>
          simp only [countMap, countLive, ensures_bind, ensures_update, ensures_pure]
          refine ⟨countsMaps_fetched ?_ ?_ fun hraised => hraised.1, huncounted.kernelUnmaps⟩
          · exact congrArg (· + 1) huncounted.kernelMaps
          · exact hobtains.2.fetches huncounted.cache hpos

theorem Sound.ensures_extendBreak_counts (h : Sound p out lent) {tail delta : Nat}
    (hpos : 0 < delta) :
    Ensures (extendBreak tail delta) p
      (fun _ q => p.CountsMaps True q ∧ q.supplier.kernelUnmaps = p.supplier.kernelUnmaps)
      never := by
  have hdelta : (delta : Int) ≠ 0 := by omega
  unfold extendBreak
  cases Word.add? tail delta with
  | none => exact .answer ⟨p.countsMaps_refl, rfl⟩
  | some stop =>
      simp only [ensures_bind, ensures_get, ensures_programBreak, ensures_ite]
      split
      · simp only [moveBreak, ensures_call]
        rcases h.kernel.raiseBreak hpos with ⟨hnone, hgrows⟩ | ⟨hsome, hgrows, -, -⟩
        · rw [hnone]
          have hbreak := (Kernel.moveBreak_refused hdelta hnone).1
          refine .answer ⟨countsMaps_idle rfl (not_fetches_of_subset ?_)
            (Nat.le_of_eq (Kernel.programBreak_congr hbreak)), rfl⟩
          rw [hgrows.inUse_eq, Set.union_empty]
        · rw [hsome]
          simp only [countLive, ensures_update, ensures_bind, ensures_pure]
          obtain ⟨-, hmoved⟩ := Kernel.moveBreak_moved hdelta hsome
          have hfirst := mem_bytesAt_self p.kernel.programBreak hpos
          refine ⟨countsMaps_raised rfl ⟨p.kernel.programBreak, ?_, ?_⟩ trivial ?_, trivial⟩
          · rw [hgrows.inUse_eq]
            exact .inr hfirst
          · exact Set.disjoint_right.1 hgrows.fresh hfirst
          · show p.kernel.programBreak < (p.kernel.moveBreak delta).2.programBreak
            omega
      · exact .answer ⟨p.countsMaps_refl, rfl⟩

theorem Sound.ensures_extendMapping_counts (h : Sound p out lent) {old new : Nat}
    (hgrows : old < new) (hdelta : (new - old) % pageSize = 0) :
    Ensures (extendMapping address old new (address + old) (new - old)) p
      (fun _ q => p.CountsMaps True q ∧ q.supplier.kernelUnmaps = p.supplier.kernelUnmaps)
      never := by
  have hused : bytes p.cached ⊆ p.kernel.inUse := Set.subset_union_right.trans h.used
  simp only [extendMapping, ensures_bind]
  apply ((h.widens.ensures_growMapping hgrows hdelta).and
    (offBreak_growMapping address old new (address + old) (new - old) p)).mono _
      fun _ _ hends => hends.1
  rintro grown p₁ ⟨hobtains, hoff⟩
  have huncounted := hoff.uncounted
  have hbreak := Kernel.programBreak_congr hoff.programBreak?
  cases grown with
  | false =>
      simp only [onlyIf_false, ensures_pure]
      exact ⟨countsMaps_idle huncounted.kernelMaps
        (hobtains.2.not_fetches huncounted.cache hused hoff.programBreak?) (Nat.le_of_eq hbreak),
        huncounted.kernelUnmaps⟩
  | true =>
      simp only [onlyIf_true, countMap, countLive, ensures_bind, ensures_update, ensures_pure]
      refine ⟨countsMaps_fetched ?_ ?_ fun hraised => ?_, huncounted.kernelUnmaps⟩
      · exact congrArg (· + 1) huncounted.kernelMaps
      · exact hobtains.2.fetches huncounted.cache (Nat.sub_pos_of_lt hgrows)
      · exact absurd hraised.2 (Nat.not_lt.2 (Nat.le_of_eq hbreak))

theorem Sound.ensures_extendInPlace_counts (h : Sound p out lent) {old new : Nat}
    (hown : bytesAt address old ⊆ out) (hpos : 0 < old) (hold : old % pageSize = 0)
    (hnew : new % pageSize = 0) :
    Ensures (extendInPlace address old new) p
      (fun _ q => p.CountsMaps True q ∧ q.supplier.kernelUnmaps = p.supplier.kernelUnmaps)
      never := by
  have hword : Word.add? address old = some (address + old) := h.add?_stop hown hpos
  simp only [extendInPlace, ensures_ite]
  split
  · exact .answer ⟨p.countsMaps_refl, rfl⟩
  · rename_i hgrows
    have hdelta : (new - old) % pageSize = 0 := by
      simp only [pageSize] at hold hnew ⊢
      omega
    simp only [hword, ensures_bind, ensures_checked_some, ensures_onCache]
    apply (h.cache.ensures_takeAt (show 0 < new - old by omega) hdelta).weaken
    intro range? c hpost
    cases range? with
    | some taken =>
        simp only [ensures_bind, ensures_pure]
        exact p.ensures_handOut_counts c taken True
    | none =>
        obtain rfl := hpost
        simp only [ensures_bind, ensures_get, ensures_ite]
        split
        · exact h.ensures_extendBreak_counts (by omega)
        · exact h.ensures_extendMapping_counts (by omega) hdelta

/-- What the counters tell after a request: what was fetched, and which of the evicted ranges were
surrendered. -/
structure Counts (p : Paging) (r : PageRequest) (q : Paging) : Prop where
  maps : p.CountsMaps r.IsExtension q
  kept : r.eviction? p = none → q.supplier.kernelUnmaps = p.supplier.kernelUnmaps
  returned : ∀ evict, r.eviction? p = some evict → p.GivesBack evict q

/-- A request for which nothing is evicted leaves the unmaps as they are. -/
theorem counts_kept {r : PageRequest} (hnone : r.eviction? p = none)
    (hmaps : p.CountsMaps r.IsExtension q)
    (hkept : q.supplier.kernelUnmaps = p.supplier.kernelUnmaps) : p.Counts r q where
  maps := hmaps
  kept _ := hkept
  returned evict hevict := by
    rw [hnone] at hevict
    exact absurd hevict.symm (Option.some_ne_none evict)

/-- A request that only gives memory back fetches none. -/
theorem Sound.ensures_counts_returned {rest pages : Set Nat} {other : Nat} {r : PageRequest}
    {evict : Action RangeCache (List Range)} (h : Sound p (rest ∪ pages) (other + pages.ncard))
    (hapart : Disjoint rest pages) (hallowed : r.Allowed p pages)
    (hevict : r.eviction? p = some evict) :
    Ensures (serve r) p (fun _ q => p.Counts r q) never := by
  apply ((h.ensures_serve hapart hallowed).and
    (h.ensures_givesBack hapart hallowed hevict)).mono _ fun _ _ hends => hends.1
  rintro a q ⟨hserves, evicted, c, sunk, surrendered, made, hrun, hreturned⟩
  obtain ⟨made', hmade', hsub⟩ := hserves.keeps.passage.inUse_subset
  obtain rfl : made' = made := List.append_cancel_right (hmade'.symm.trans hreturned.calls)
  have hbreak := hreturned.descends.total
  refine ⟨countsMaps_idle hreturned.kernelMaps (not_fetches_of_subset (hsub hreturned.gained))
    (by omega), fun hnone => ?_, fun evict' hevict' => ?_⟩
  · rw [hevict] at hnone
    exact absurd hnone (Option.some_ne_none evict)
  · rw [hevict] at hevict'
    obtain rfl := Option.some.inj hevict'
    exact ⟨evicted, c, sunk, surrendered, made', hrun, hreturned⟩

/-- A request that keeps the rules is counted. -/
theorem Sound.ensures_counts {rest pages : Set Nat} {other : Nat} {r : PageRequest}
    (h : Sound p (rest ∪ pages) (other + pages.ncard)) (hapart : Disjoint rest pages)
    (hallowed : r.Allowed p pages) : Ensures (serve r) p (fun _ q => p.Counts r q) never := by
  cases r with
  | reclaim address size opts => exact h.ensures_counts_returned hapart hallowed rfl
  | trim pad => exact h.ensures_counts_returned hapart hallowed rfl
  | allocate size =>
      rw [serve, Action.ensures_map]
      exact (h.ensures_allocate_counts hallowed.1 hallowed.2).imp fun _ q hcounts =>
        counts_kept rfl hcounts.1 hcounts.2
  | extend address old new =>
      obtain ⟨⟨hpos, hold, hnew, -⟩, hsub⟩ := hallowed
      rw [serve, Action.ensures_map]
      exact (h.ensures_extendInPlace_counts (hsub.trans Set.subset_union_right) hpos hold hnew).imp
        fun _ q hcounts => counts_kept rfl hcounts.1 hcounts.2
  | look =>
      rw [serve]
      exact .answer (counts_kept rfl p.countsMaps_refl rfl)

end Paging
end PagedHeap
