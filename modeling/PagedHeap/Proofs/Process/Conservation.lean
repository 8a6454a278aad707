import PagedHeap.Proofs.Heap.Counting
import PagedHeap.Proofs.Process.Separation

/-!
# Blocks are conserved

A page is a run from when it is opened until all its blocks have come home.  In between each of
its blocks is with the client, or in one node of one list of one cache, or at home, and the header
of the page counts those that are not at home.  The page goes back to the supplier in the step in
which the last of them comes home.
-/

namespace PagedHeap

/-- The blocks of a run are its slots from the first on. -/
theorem isBlock_slot {m : Memory} {c : Category} {page i : Nat} (hmod : page % pageSize = 0)
    (hcategory : m.runCategory page = c.val) (hfirst : 1 ≤ i) (hlast : i ≤ c.blocksPerPage) :
    IsBlock m c (page + i * c.blockSize) ∧ pageOf (page + i * c.blockSize) = page := by
  have hslot : page + i * c.blockSize ∈ (wholeRun c page).blocks c := by
    obtain ⟨j, rfl⟩ : ∃ j, i = j + 1 := ⟨i - 1, (Nat.sub_add_cancel hfirst).symm⟩
    refine List.mem_map.2 ⟨j, List.mem_range.2 hlast, ?_⟩
    simp only [wholeRun, Nat.succ_mul]
    omega
  obtain ⟨hpage, hne, hoffset⟩ := mem_wholeRun hmod hslot
  refine ⟨⟨?_, hne, hoffset⟩, hpage⟩
  rwa [hpage]

namespace Heap

variable {h : Heap} {spans : Place → Category → List Span} {live foreign : Set Nat} {page : Nat}

/-- The start of a run is no pointer. -/
theorem Sound.run_notMem (hsound : h.Sound spans live foreign)
    (hpage : page ∈ pagesOf (usedBlocks spans live)) : page ∉ live := by
  intro hin
  obtain ⟨x, hx, rfl⟩ := id hpage
  have hoffset : pageOffset (pageOf x) = 0 := pageOf_mod x
  obtain ⟨n, hsize⟩ := (hsound.sizes _ hoffset).1 hin
  have hextent := SizeTable.bytesAt_subset_extent hsize
    (mem_bytesAt_self _ (hsound.large.spread.size_pos _ n hsize))
  have hapart := (Set.disjoint_union_right.1 hsound.large.apart).1
  exact Set.disjoint_left.1 hapart hextent ⟨x, hx, (pageOf_pageOf x).symm⟩

/-- A run is in use, and it is not with the supplier. -/
theorem Sound.run_lent (hsound : h.Sound spans live foreign)
    (hpage : page ∈ pagesOf (usedBlocks spans live)) :
    bytesAt page pageSize ⊆ h.kernel.inUse \ Ranges.bytes h.supplier.cache.ranges := by
  intro y hy
  have hout := Set.mem_union_right h.table.storageBytes
    (Set.mem_union_right (SizeTable.extent h.table.get?)
      (Set.mem_union_left foreign (pageBytes_subset_runBytes hpage hy)))
  exact ⟨hsound.large.paging.used (.inl hout), Set.disjoint_left.1 hsound.large.paging.apart hout⟩

/-- The header of a run counts the blocks that the client has and those that are cached. -/
theorem Sound.runLive_eq (hsound : h.Sound spans live foreign)
    (hpage : page ∈ pagesOf (usedBlocks spans live)) :
    h.kernel.memory.runLive page =
      (onPage live page).ncard + (onPage {x | h.Cached x} page).ncard := by
  have hheld : onPage (heldBlocks live) page = onPage live page := by
    ext x
    refine ⟨fun hx => ⟨hx.1.1, hx.2⟩, fun hx => ⟨⟨hx.1, fun hoffset => ?_⟩, hx.2⟩⟩
    -- A pointer to the start of the page would be a large allocation in it.
    have hself := pageOf_add_pageOffset x
    rw [hoffset, Nat.add_zero, hx.2] at hself
    exact hsound.run_notMem hpage (hself ▸ hx.1)
  have hcached : {x | h.Cached x} = cachedIn spans := by
    ext x
    exact hsound.cached_iff
  have hapart : Disjoint (cachedIn spans) (heldBlocks live) :=
    Set.disjoint_left.2 fun x hx hin => hsound.cached_notMem x hx hin.1
  rw [hsound.marked.counted page hpage, usedBlocks, ncard_onPage_union hapart, hheld, hcached,
    Nat.add_comm]

theorem Sound.runLive_pos (hsound : h.Sound spans live foreign)
    (hpage : page ∈ pagesOf (usedBlocks spans live)) : 0 < h.kernel.memory.runLive page := by
  rw [hsound.marked.counted page hpage, Set.ncard_pos (finite_onPage _ page)]
  obtain ⟨x, hx, hself⟩ := hpage
  exact ⟨x, hx, hself⟩

end Heap

/-- A lock that is held is no matter of counters. -/
theorem Heap.LockEnds.ne_underflow {h : Heap} {e : Ending} (hends : h.LockEnds e) (run : Nat) :
    e ≠ .corrupted (.counterUnderflow run) := by
  obtain ⟨-, rfl⟩ := hends
  cases h.build.threading with
  | exclusive => exact fun heq => Corruption.noConfusion (Ending.corrupted.inj heq)
  | shared => exact fun heq => Ending.noConfusion heq

namespace Process

/-- The pages that are runs. -/
def runs (p : Process) : Set Nat := pagesOf p.used

/-- The places where a block of category `c` can be, each to the exclusion of the others. -/
inductive Placed (p : Process) (c : Category) (x : Nat) : Prop where
  | held (hlive : x ∈ p.live) (hcached : ¬p.heap.Cached x) (hhome : x ∉ p.home)
  | cached {place : Place} {node : Nat} (hon : p.heap.OnSpan place c node x)
      (honce : ∀ place' c' node', p.heap.OnSpan place' c' node' x →
        place' = place ∧ c' = c ∧ node' = node)
      (hlive : x ∉ p.live) (hhome : x ∉ p.home)
  | home (hhome : x ∈ p.home) (hlive : x ∉ p.live) (hcached : ¬p.heap.Cached x)

/-- The page is a run of category `c`, and none of its blocks is lost or in two places. -/
structure Run (p : Process) (c : Category) (page : Nat) : Prop where
  category : p.heap.kernel.memory.runCategory page = c.val
  placed : ∀ i, 1 ≤ i → i ≤ c.blocksPerPage → p.Placed c (page + i * c.blockSize)
  counted : p.heap.kernel.memory.runLive page =
    (onPage p.live page).ncard + (onPage {x | p.heap.Cached x} page).ncard
  positive : 0 < p.heap.kernel.memory.runLive page
  lent : Disjoint (bytesAt page pageSize) (Ranges.bytes p.heap.supplier.cache.ranges)

/-- The runs are in order, and the supplier counts each of them once. -/
structure Conserved (p : Process) : Prop where
  runs : ∀ page ∈ p.runs, ∃ c, p.Run c page
  counted : p.heap.supplier.liveBytes.toNat = p.heap.table.total + p.runs.ncard * pageSize

/-- A step opens whole runs only, and what it closes is the supplier's. -/
structure Turns (p p' : Process) : Prop where
  opened : ∀ x ∈ p'.used, x ∉ p.used → pageOf x ∉ p.runs ∧
    ∀ c y, IsBlock p'.heap.kernel.memory c y → pageOf y = pageOf x → y ∈ p'.used
  closed : ∀ page ∈ p.runs, page ∉ p'.runs → ∀ y ∈ bytesAt page pageSize,
    y ∈ p'.heap.kernel.inUse → arenaBase ≤ y →
      y ∈ Ranges.bytes p'.heap.supplier.cache.ranges ∨
        y ∈ SizeTable.extent p'.heap.table.get? ∨ y ∈ p'.heap.table.storageBytes
  counted : p'.heap.supplier.liveBytes.toNat + p.heap.table.total +
      (p.runs \ p'.runs).ncard * pageSize =
    p.heap.supplier.liveBytes.toNat + p'.heap.table.total + (p'.runs \ p.runs).ncard * pageSize

variable {p p' : Process} {spans spans' : Place → Category → List Span} {foreign : Set Nat}
  {passed? granted? : Option Nat}

theorem Orderly.placed {c : Category} {x : Nat} (horderly : p.Orderly spans foreign)
    (hblock : IsBlock p.heap.kernel.memory c x) (hrun : pageOf x ∈ p.runs) : p.Placed c x := by
  have hsound := horderly.sound
  rcases horderly.accounts.whole c x hblock hrun with hused | hhome
  · have hnot := Set.disjoint_left.1 horderly.accounts.apart hused
    rcases hused with hcached | hheld
    · obtain ⟨place, d, node, hon⟩ := id hcached
      obtain rfl : c = d := by
        obtain ⟨s, hs, -, hx⟩ := hsound.onSpan_iff.1 hon
        have hlisted := (hsound.holds place d).linked.shaped (mem_blocksOf.2 ⟨s, hs, hx⟩)
        exact hblock.category_eq hlisted rfl
      exact .cached hon (fun _ _ _ hon' => hsound.onSpan_unique hon hon')
        (hsound.cached_notMem x (hsound.cached_iff.1 hcached)) hnot
    · refine .held hheld.1 (fun hcached => ?_) hnot
      exact hsound.cached_notMem x (hsound.cached_iff.1 hcached) hheld.1
  · have hnot : x ∉ p.used := fun hused => Set.disjoint_left.1 horderly.accounts.apart hused hhome
    exact .home hhome (fun hlive => hnot (.inr ⟨hlive, hblock.offset_ne⟩))
      fun hcached => hnot (.inl hcached)

theorem Orderly.run {page : Nat} (horderly : p.Orderly spans foreign) (hpage : page ∈ p.runs) :
    ∃ c, p.Run c page := by
  have hsound := horderly.sound
  have hpage' : page ∈ pagesOf (Heap.usedBlocks spans p.live) := hsound.used_eq ▸ hpage
  obtain ⟨x, hx, rfl⟩ := id hpage'
  obtain ⟨c, hblock⟩ := hsound.marked.shaped x hx
  refine ⟨c, hblock.category, fun i hfirst hlast => ?_, hsound.runLive_eq hpage',
    hsound.runLive_pos hpage', Set.disjoint_left.2 fun y hy => (hsound.run_lent hpage' hy).2⟩
  obtain ⟨hslot, hself⟩ := isBlock_slot (pageOf_mod x) hblock.category hfirst hlast
  apply horderly.placed hslot
  rwa [hself]

theorem Orderly.liveBytes_eq (horderly : p.Orderly spans foreign) :
    p.heap.supplier.liveBytes.toNat = p.heap.table.total + p.runs.ncard * pageSize := by
  rw [runs, used, horderly.sound.used_eq]
  exact horderly.sound.liveBytes_eq

theorem Orderly.conserved (horderly : p.Orderly spans foreign) : p.Conserved :=
  ⟨fun _ hpage => horderly.run hpage, horderly.liveBytes_eq⟩

theorem Orderly.finite_runs (horderly : p.Orderly spans foreign) : p.runs.Finite := by
  rw [runs, used, horderly.sound.used_eq]
  exact horderly.sound.finite_runs

theorem Orderly.turns (horderly : p.Orderly spans foreign) (horderly' : p'.Orderly spans' foreign)
    (hrecycles : Recycles p.heap.kernel.memory p.used p'.heap.kernel.memory p'.used) :
    p.Turns p' where
  opened x hx hnot := ⟨(hrecycles.fresh x hx).resolve_left hnot, hrecycles.whole x hx hnot⟩
  closed page hpage hgone y hy huse hbase := by
    have hself : pageOf y = page := by
      obtain ⟨x, -, rfl⟩ := id hpage
      exact (mem_pageBytes (pageOf_mod x)).1 hy
    have hnotForeign : y ∉ foreign := by
      have hrun : y ∈ runBytes (Heap.usedBlocks spans p.live) := by
        rw [← horderly.sound.used_eq]
        exact pageBytes_subset_runBytes hpage hy
      exact Set.disjoint_left.1 horderly.sound.apart hrun
    have hnotRun : y ∉ runBytes (Heap.usedBlocks spans' p'.live) := by
      intro hrun
      rw [← horderly'.sound.used_eq] at hrun
      exact hgone (hself ▸ hrun)
    rcases horderly'.sound.large.paging.exact y huse hbase with hout | hranges
    · rcases hout with hstorage | hextent | hrun | hforeign
      · exact .inr (.inr hstorage)
      · exact .inr (.inl hextent)
      · exact absurd hrun hnotRun
      · exact absurd hforeign hnotForeign
    · exact .inl hranges
  counted := by
    have hunion : (p.runs \ p'.runs).ncard + p'.runs.ncard =
        (p'.runs \ p.runs).ncard + p.runs.ncard := by
      rw [Set.ncard_sdiff_add_ncard _ _ horderly.finite_runs horderly'.finite_runs,
        Set.ncard_sdiff_add_ncard _ _ horderly'.finite_runs horderly.finite_runs, Set.union_comm]
    have hbytes := congrArg (· * pageSize) hunion
    simp only [Nat.add_mul] at hbytes
    rw [horderly.liveBytes_eq, horderly'.liveBytes_eq]
    omega

/-- What happens to blocks in a process. -/
theorem Reachable.blocks_conserved (hreach : p.Reachable) :
    p.Conserved ∧ (∀ passed? granted? p', p.Work passed? granted? p' → p.Turns p') ∧
      ∀ e, p.Fails e → ∀ run, e ≠ .corrupted (.counterUnderflow run) := by
  obtain ⟨spans, foreign, horderly⟩ := hreach.orderly
  refine ⟨horderly.conserved, fun passed? granted? p' hwork => ?_, fun e hfails run => ?_⟩
  · obtain ⟨spans', hevolves⟩ := hwork.evolves horderly.sound
    have horderly' := horderly.next hevolves.sound hevolves.recycles p'.loans
    rw [← hwork.heap_next] at horderly'
    have hrecycles := hevolves.recycles
    rw [← horderly.sound.used_eq, ← hevolves.sound.used_eq] at hrecycles
    exact horderly.turns horderly' hrecycles
  · rcases hfails.ends horderly.sound with hlock | ⟨r, hends⟩
    · exact hlock.ne_underflow run
    · cases hends with
      | stuck hends =>
          rcases hends with hlock | ⟨-, size, rfl⟩
          · exact hlock.ne_underflow run
          · exact fun heq => Ending.noConfusion heq
      | claim => exact fun heq => Corruption.noConfusion (Ending.corrupted.inj heq)
      | shrink => exact fun heq => Ending.noConfusion heq

theorem blocks_conserved_first : ∃ p p' : Process, p.Reachable ∧
    (∃ c, p.Run c 0x200000007000) ∧ p.Work none (some 0x200000006080) p' ∧ p.Turns p' := by
  have hboot : (new .standard (.boot 8 none)).Reachable := reachable_boot .standard (by decide)
  have hfirst : (new .standard (.boot 8 none)).granted? 0 (.malloc 100) = some 0x200000007080 := by
    decide +kernel
  have hsecond : ((new .standard (.boot 8 none)).serve 0 (.malloc 100)).granted? 1 (.malloc 100) =
      some 0x200000006080 := by
    decide +kernel
  have hreach := hboot.serve (passed_malloc _ 100) (t := 0)
  have hwork := Work.of_granted (passed_malloc _ 100) hsecond
  have hrun : 0x200000007000 ∈ ((new .standard (.boot 8 none)).serve 0 (.malloc 100)).runs :=
    ⟨0x200000007080, .inr ⟨mem_live_serve hfirst, by decide⟩, by decide⟩
  obtain ⟨hconserved, hturns, -⟩ := hreach.blocks_conserved
  exact ⟨_, _, hreach, hconserved.runs _ hrun, hwork, hturns _ _ _ hwork⟩

end Process
end PagedHeap
