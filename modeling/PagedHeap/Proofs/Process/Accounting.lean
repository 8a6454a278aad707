import PagedHeap.Proofs.Process.Conservation

/-!
# What the supplier has lent to a process

The supplier of a process counts the bytes that it has lent.  They are those of the large
allocations that the client has, each with the size that it is told, and a page for each run.  The
table of sizes has one entry for each of these large allocations and no other.

So nothing is counted as lent once the client has given up what it had and the caches are empty.
A cache is emptied by a flush, and by the end of its thread, and neither puts anything into
another.
-/

namespace PagedHeap
namespace Heap

open SizeTable

/-- The size of the allocation at `x`, as the client is told. -/
def usableSize (h : Heap) (x : Nat) : Nat :=
  match allocatedSize (some x) h with
  | .ok n _ => n
  | .error _ _ => 0

/-- The caches can be emptied, that of a thread by itself while it is not lent. -/
structure Flushes (h : Heap) : Prop where
  own : ∀ t, h.build.threading = .shared → (h.thread t).busy = false →
    Action.Ensures (flushOwn t) h (fun _ h' => h.Empties (.thread t) h') Action.never
  fallback : Action.Ensures flushFallback h (fun _ h' => h.Empties .fallback h')
    (fun e _ => h.LockEnds e)
  exit : ∀ t, Action.Ensures (finishExit t) h (fun _ h' => h.Empties (.thread t) h') Action.never

variable {h : Heap} {spans : Place → Category → List Span} {live foreign : Set Nat} {x n : Nat}

theorem usableSize_eq (hn : h.Occupies x n) : h.usableSize x = n := by
  rw [usableSize, allocatedSize_eq hn]

theorem Sound.flushes (hsound : h.Sound spans live foreign) : h.Flushes where
  own t hshared hfree := by
    apply (hsound.ensures_flushOwn t).weaken
    intro _ h' hpost
    obtain ⟨spans', hsteady, hspans⟩ := hpost
    rw [hspans hshared hfree] at hsteady
    exact hsteady.empties hsound
  fallback := by
    apply hsound.ensures_flushFallback.imp
    exact fun _ _ hsteady => hsteady.empties hsound
  exit t := (hsound.ensures_finishExit t).weaken fun _ _ hsteady => hsteady.empties hsound

theorem Sound.valid_table (hsound : h.Sound spans live foreign) : h.table.Valid :=
  hsound.large.table

theorem Sound.spread_table (hsound : h.Sound spans live foreign) : Spread h.table.get? :=
  hsound.large.spread

/-- The large allocations are those with an entry in the table. -/
theorem Sound.mem_pages (hsound : h.Sound spans live foreign) :
    x ∈ h.table.pages ↔ x ∈ live ∧ pageOffset x = 0 := by
  rw [hsound.valid_table.mem_pages]
  constructor
  · intro hentry
    obtain ⟨size, hsize⟩ := id hentry
    have hoffset := hsound.spread_table.page_mod x size hsize
    exact ⟨(hsound.sizes x hoffset).2 hentry, hoffset⟩
  · exact fun hx => (hsound.sizes x hx.2).1 hx.1

theorem Sound.total_eq (hsound : h.Sound spans live foreign) :
    h.table.total = ∑ x ∈ h.table.pages, h.usableSize x := by
  apply Finset.sum_congr rfl
  intro x hx
  obtain ⟨size, hsize⟩ := hsound.valid_table.mem_pages.1 hx
  rw [sizeAt_of_get? hsize, usableSize_eq (.inl ⟨(hsound.mem_pages.1 hx).2, hsize⟩)]

/-- An entry tells the size of a large allocation. -/
theorem Sound.entry_iff (hsound : h.Sound spans live foreign) :
    ⟨x, n⟩ ∈ entries h.table.slots ↔
      x ∈ live ∧ pageOffset x = 0 ∧ allocatedSize (some x) h = .ok n h := by
  rw [hsound.valid_table.mem_entries]
  constructor
  · intro hsize
    obtain ⟨hlive, hoffset⟩ := hsound.mem_pages.1 (hsound.valid_table.mem_pages.2 ⟨n, hsize⟩)
    exact ⟨hlive, hoffset, allocatedSize_eq (.inl ⟨hoffset, hsize⟩)⟩
  · intro hx
    obtain ⟨hlive, hoffset, hasked⟩ := hx
    obtain ⟨size, hsize⟩ := (hsound.sizes x hoffset).1 hlive
    have hn : h.Occupies x size := .inl ⟨hoffset, hsize⟩
    rw [(hn.eq_of_asked hasked).1]
    exact hsize

end Heap

namespace Process

/-- What is counted as lent is accounted for: by the large allocations of the client, which are
those with an entry in the table, and by the runs. -/
structure Accounted (p : Process) : Prop where
  liveBytes_eq : ∃ large : Finset Nat, (∀ x, x ∈ large ↔ x ∈ p.live ∧ pageOffset x = 0) ∧
    p.heap.supplier.liveBytes.toNat =
      ∑ x ∈ large, p.heap.usableSize x + p.runs.ncard * pageSize
  runs : p.runs.Finite ∧ ∀ page, page ∈ p.runs ↔
    ∃ x, pageOf x = page ∧ (p.heap.Cached x ∨ x ∈ p.live ∧ pageOffset x ≠ 0)
  entry_iff : ∀ x n, ⟨x, n⟩ ∈ SizeTable.entries p.heap.table.slots ↔
    x ∈ p.live ∧ pageOffset x = 0 ∧ Heap.allocatedSize (some x) p.heap = .ok n p.heap
  entries_once : (SizeTable.entries p.heap.table.slots).Pairwise fun e e' => e.page ≠ e'.page
  len_eq : p.heap.table.len = (SizeTable.entries p.heap.table.slots).length
  rounded : ∀ x ∈ p.live, pageOffset x = 0 →
    0 < p.heap.usableSize x ∧ p.heap.usableSize x % pageSize = 0
  settled : p.live = ∅ → (∀ place, p.heap.cacheAt place = .empty) →
    p.heap.supplier.liveBytes = 0 ∧ p.heap.table.len = 0
  flushes : p.heap.Flushes

variable {p : Process} {spans : Place → Category → List Span} {foreign : Set Nat}

theorem mem_runs {page : Nat} : page ∈ p.runs ↔
    ∃ x, pageOf x = page ∧ (p.heap.Cached x ∨ x ∈ p.live ∧ pageOffset x ≠ 0) := by
  constructor
  · intro hpage
    obtain ⟨x, hx, hself⟩ := hpage
    exact ⟨x, hself, hx⟩
  · intro hpage
    obtain ⟨x, hself, hx⟩ := hpage
    exact ⟨x, hx, hself⟩

theorem Orderly.settled (horderly : p.Orderly spans foreign) (hlive : p.live = ∅)
    (hcaches : ∀ place, p.heap.cacheAt place = .empty) :
    p.heap.supplier.liveBytes = 0 ∧ p.heap.table.len = 0 := by
  have hsound := horderly.sound
  have hpages : p.heap.table.pages = ∅ := by
    refine Finset.eq_empty_of_forall_notMem fun x hx => ?_
    have hin := (hsound.mem_pages.1 hx).1
    rw [hlive] at hin
    exact hin
  have hruns : p.runs = ∅ := by
    refine Set.eq_empty_of_forall_notMem fun page hpage => ?_
    obtain ⟨x, -, hcached | ⟨hin, -⟩⟩ := mem_runs.1 hpage
    · obtain ⟨place, c, hx⟩ := hsound.cached_iff.1 hcached
      rw [hsound.spans_of_empty (hcaches place)] at hx
      exact absurd hx List.not_mem_nil
    · rw [hlive] at hin
      exact hin
  constructor
  · apply UInt64.toNat_inj.1
    rw [horderly.liveBytes_eq, hruns, Set.ncard_empty, SizeTable.total, hpages]
    rfl
  · rw [← hsound.valid_table.card_pages, hpages, Finset.card_empty]

theorem Orderly.accounted (horderly : p.Orderly spans foreign) : p.Accounted := by
  have hsound := horderly.sound
  refine ⟨⟨p.heap.table.pages, fun x => hsound.mem_pages, ?_⟩,
    ⟨horderly.finite_runs, fun page => mem_runs⟩, fun x n => hsound.entry_iff,
    hsound.valid_table.pairwise_entries,
    hsound.valid_table.len_eq.trans (SizeTable.length_entries _).symm, fun x hx hoffset => ?_,
    horderly.settled, hsound.flushes⟩
  · rw [horderly.liveBytes_eq, hsound.total_eq]
  · obtain ⟨size, hsize⟩ := (hsound.sizes x hoffset).1 hx
    rw [Heap.usableSize_eq (.inl ⟨hoffset, hsize⟩)]
    exact ⟨hsound.spread_table.size_pos x size hsize, hsound.spread_table.size_mod x size hsize⟩

/-- Whatever has happened in a process, what its supplier counts as lent is accounted for. -/
theorem Reachable.lent_accounted (hreach : p.Reachable) : p.Accounted := by
  obtain ⟨spans, foreign, horderly⟩ := hreach.orderly
  exact horderly.accounted

/-- A thread has ten pages and another a block; with the page of the block, eleven are lent. -/
theorem accounted_mixed : ∃ p : Process, p.Reachable ∧ 0x200000004080 ∈ p.live ∧
    SizeTable.entries p.heap.table.slots = [⟨0x200000006000, 10 * pageSize⟩] ∧
    p.heap.supplier.liveBytes.toNat = 11 * pageSize ∧ p.Accounted := by
  have hboot : (new .standard (.boot 16 none)).Reachable := reachable_boot .standard (by decide)
  have hblock : ((new .standard (.boot 16 none)).serve 0 (.malloc 40000)).granted? 1 (.malloc 100) =
      some 0x200000004080 := by
    decide +kernel
  have hlarge := hboot.serve (passed_malloc _ 40000) (t := 0)
  have hboth := hlarge.serve (passed_malloc _ 100) (t := 1)
  exact ⟨_, hboth, mem_live_serve hblock, by decide +kernel, by decide +kernel, hboth.lent_accounted⟩

end Process
end PagedHeap
