import PagedHeap.Proofs.Heap.Lists
import PagedHeap.Proofs.Process.Conservation

/-!
# Lists that are full

However many threads allocate and free, and whatever they have lent or flushed, no list has more
blocks on it than the ceiling allows, and the number beside it is theirs.  Who frees a block whose
list is full sends the blocks on the list back to their runs, and the block stays as the only one
there.  Its page does not go to the supplier, even if it is the last block of the page that is not
home.
-/

namespace PagedHeap

namespace Heap

variable {h h' : Heap} {spans : Place → Category → List Span} {live foreign : Set Nat}
  {place : Place} {c : Category} {x page : Nat}

/-- The header of a run counts the blocks of it that are used. -/
theorem Sound.runLive_eq_used (hsound : h.Sound spans live foreign)
    (hpage : page ∈ pagesOf (h.used live)) :
    h.kernel.memory.runLive page = (onPage (h.used live) page).ncard := by
  rw [hsound.used_eq] at hpage ⊢
  exact hsound.marked.counted page hpage

/-- What was used of a page is used still, or left the list. -/
theorem PutsOn.ncard_onPage (hputs : h.PutsOn place c x h') (hsound : h.Sound spans live foreign)
    (hx : x ∈ live) (hoffset : pageOffset x ≠ 0) (page : Nat) :
    (onPage (h'.used (live \ {x})) page).ncard + (onPage (h.surplus place c) page).ncard =
      (onPage (h.used live) page).ncard := by
  obtain ⟨hused, hapart⟩ := hputs.used_eq hsound hx hoffset
  rw [hused, ncard_onPage_union hapart]

end Heap

namespace Process

open Heap

/-- The block `x` was freed onto a list.  The surplus of that went back to its runs, each of which
counts it off or, if that was all of it, is no run any more. -/
structure Shelves (p : Process) (place : Place) (c : Category) (x : Nat) (p' : Process) :
    Prop where
  puts : p.heap.PutsOn place c x p'.heap
  alone : (p.heap.cacheAt place).count c = cacheCeiling →
    p'.heap.listed place c = {x} ∧ (p'.heap.cacheAt place).count c = 1
  used_eq : p.used = p'.used ∪ p.heap.surplus place c
  home : ∀ y ∈ p.heap.surplus place c, y ∉ p'.used ∧ (pageOf y ∈ p'.runs → y ∈ p'.home)
  lowered : ∀ page ∈ p'.runs, page ∈ p.runs ∧
    p'.heap.kernel.memory.runLive page + (onPage (p.heap.surplus place c) page).ncard =
      p.heap.kernel.memory.runLive page
  closed : ∀ page ∈ p.runs, page ∉ p'.runs →
    (onPage (p.heap.surplus place c) page).ncard = p.heap.kernel.memory.runLive page
  kept : pageOf x ∈ p'.runs ∧ bytesAt (pageOf x) pageSize ⊆
    p'.heap.kernel.inUse \ Ranges.bytes p'.heap.supplier.cache.ranges

/-- What a process has on its lists, and what becomes of it. -/
structure Listed (p : Process) : Prop where
  bounded : ∀ place c, (p.heap.listed place c).Finite ∧
    (p.heap.listed place c).ncard = (p.heap.cacheAt place).count c ∧
      (p.heap.cacheAt place).count c ≤ cacheCeiling
  told : ∀ t number, Action.Ensures (cachedCountOf t number) p.heap
    (fun n? h => h = p.heap ∧ n? = (Category.ofNat? number).bind fun c =>
      (p.heap.countedPlace? t).map fun place => (p.heap.listed place c).ncard)
    (fun e _ => p.heap.LockEnds e)
  freed : ∀ t r x c, r.frees = true → r.passed? = some x → x ∈ p.live →
    IsBlock p.heap.kernel.memory c x →
      Action.Ensures (Heap.serve t r) p.heap
        (fun a h => ∃ loan h₁, Heap.borrow t p.heap = .ok loan h₁ ∧
          p.Shelves (placeOf t loan) c x
            (p.next h (after r.passed? r.frees a.granted? p.live) p.loans))
        (fun e _ => p.heap.ServeEnds r e)

variable {p p' : Process} {spans spans' : Place → Category → List Span} {foreign : Set Nat}
  {place : Place} {c : Category} {t x : Nat} {h : Heap}

theorem Orderly.shelves {new : List Span} (horderly : p.Orderly spans foreign) (hx : x ∈ p.live)
    (hblock : IsBlock p.heap.kernel.memory c x)
    (hfiles : p.heap.Files spans p.live foreign place c x new h) :
    p.Shelves place c x (p.next h (p.live \ {x}) p.loans) := by
  have hsound := horderly.sound
  have hsound' := hfiles.releases.sound
  have hputs := hfiles.putsOn hsound
  obtain ⟨hused, hapart⟩ := hputs.used_eq hsound hx hblock.offset_ne
  have hcounts := hputs.ncard_onPage hsound hx hblock.offset_ne
  -- No run is opened, and that of the block is a run still because the block is on the list.
  have hruns : pagesOf (h.used (p.live \ {x})) ⊆ p.runs := by
    rw [runs, used, hused]
    exact Set.image_mono Set.subset_union_left
  have hfreed : x ∈ h.used (p.live \ {x}) := .inl ((hputs.cached_iff hsound).2 (.inl rfl))
  have hgone : ∀ y ∈ p.heap.surplus place c, y ∈ p.used ∧ y ∉ h.used (p.live \ {x}) := by
    intro y hy
    rw [used, hused]
    exact ⟨.inr hy, Set.disjoint_right.1 hapart hy⟩
  refine
    { puts := hputs
      alone := hputs.alone hsound'
      used_eq := hused
      home := fun y hy => ⟨(hgone y hy).2, fun hrun => ⟨.inr (hgone y hy), hrun⟩⟩
      lowered := fun page hpage => ⟨hruns hpage, ?lowered⟩
      closed := fun page hpage hclosed => ?closed
      kept := ⟨mem_pagesOf hfreed, ?lent⟩ }
  case lowered =>
    have hafter := hsound'.runLive_eq_used hpage
    rw [hsound.runLive_eq_used (hruns hpage), ← hcounts page, ← hafter]
    rfl
  case closed =>
    have hnone : (onPage (h.used (p.live \ {x})) page).ncard = 0 :=
      ncard_onPage_eq_zero.2 hclosed
    rw [hsound.runLive_eq_used hpage, ← hcounts page, hnone, Nat.zero_add]
  case lent =>
    rw [hsound'.used_eq] at hfreed
    exact hsound'.run_lent (mem_pagesOf hfreed)

theorem Orderly.listed (horderly : p.Orderly spans foreign) : p.Listed where
  bounded place c := horderly.sound.counts_listed place c
  told t number := by
    apply (ensures_cachedCountOf p.heap t number).imp
    rintro n? _ ⟨rfl, rfl⟩
    refine ⟨rfl, ?_⟩
    simp only [(horderly.sound.counts_listed _ _).2.1]
  freed t r x c hfrees hpassed hx hblock := by
    apply (horderly.sound.ensures_serve_filed t hfrees hpassed hx hblock).imp
    rintro a h ⟨hnone, place, new, hfiles, loan, h₁, hborrow, rfl⟩
    have hafter : after r.passed? r.frees a.granted? p.live = p.live \ {x} := by
      rw [hfrees, hpassed, hnone]
      exact others_some x p.live
    rw [hafter]
    exact ⟨loan, h₁, hborrow, horderly.shelves hx hblock hfiles⟩

/-- Whatever has happened in a process, its lists are within bounds. -/
theorem Reachable.lists_bounded (hreach : p.Reachable) : p.Listed := by
  obtain ⟨spans, foreign, horderly⟩ := hreach.orderly
  exact horderly.listed

/-! ## A thread that frees blocks of others -/

/-- The second thread allocates a block, which is to be `x`, and the first thread frees it. -/
@[irreducible] def handOver (x : Nat) (p : Process) : Process :=
  (p.serve 1 (.malloc 16)).serve 0 (.reclaim (some x))

theorem Reachable.handOver (hreach : p.Reachable)
    (hgranted : p.granted? 1 (.malloc 16) = some x) : (p.handOver x).Reachable := by
  rw [Process.handOver]
  apply (hreach.serve (passed_malloc _ 16)).serve
  rintro y ⟨⟩
  exact mem_live_serve hgranted

theorem mem_live_handOver {y : Nat} (hy : y ∈ p.live) (hne : x ≠ y) : y ∈ (p.handOver x).live := by
  rw [handOver]
  apply mem_live_serve_of_ne
  · exact mem_live_serve_of_ne hy (by simp [HeapRequest.passed?])
  · exact fun heq => hne (Option.some.inj heq)

/-- The first thread has allocated one block, the rest of whose run is in its cache, and then freed
two blocks of the second thread. -/
@[irreducible] def stocked : Process :=
  (((new .standard (.boot 8 none)).serve 0 (.malloc 16)).handOver 0x200000006010).handOver
    0x200000006020

theorem reachable_stocked : stocked.Reachable := by
  rw [stocked]
  have hboot : (new .standard (.boot 8 none)).Reachable := reachable_boot .standard (by decide)
  have hfirst := hboot.serve (passed_malloc _ 16) (t := 0)
  exact (hfirst.handOver (by decide +kernel)).handOver (by decide +kernel)

theorem mem_live_stocked : 0x200000007010 ∈ stocked.live := by
  rw [stocked]
  have hfirst : 0x200000007010 ∈ ((new .standard (.boot 8 none)).serve 0 (.malloc 16)).live :=
    mem_live_serve (by decide +kernel)
  exact mem_live_handOver (mem_live_handOver hfirst (by decide)) (by decide)

/-- The thread frees its own block when the list is full, and the run of that comes home but for the
block itself. -/
theorem lists_bounded_stocked : (stocked.heap.cacheAt (.thread 0)).count 0 = cacheCeiling ∧
    ∃ p', stocked.Work (some 0x200000007010) none p' ∧
      stocked.Shelves (.thread 0) 0 0x200000007010 p' ∧
      p'.heap.listed (.thread 0) 0 = {0x200000007010} ∧
      p'.heap.kernel.memory.runLive 0x200000007000 = 1 := by
  have hfull : (stocked.heap.cacheAt (.thread 0)).count 0 = cacheCeiling := by decide +kernel
  have hblock : IsBlock stocked.heap.kernel.memory 0 0x200000007010 :=
    ⟨by decide +kernel, by decide, by decide⟩
  have hborrow : Action.Ensures (Heap.borrow 0) stocked.heap (fun loan _ => loan = .ownCache)
      Action.never := by
    decide +kernel
  have hserve : Action.Ensures (Heap.serve 0 (.reclaim (some 0x200000007010))) stocked.heap
      (fun a h => a.granted? = none ∧ h.kernel.memory.runLive 0x200000007000 = 1)
      Action.never := by
    decide +kernel
  obtain ⟨a, h, hrun, hnone, hcount⟩ := hserve.exists_ok
  have hfreed := reachable_stocked.lists_bounded.freed 0 (.reclaim (some 0x200000007010))
    0x200000007010 0 rfl rfl mem_live_stocked hblock
  obtain ⟨loan, h₁, hlent, hshelves⟩ := hfreed.of_ok hrun
  obtain rfl := hborrow.of_ok hlent
  have hpassed : ∀ x, (HeapRequest.reclaim (some 0x200000007010)).passed? = some x →
      x ∈ stocked.live := by
    rintro x ⟨⟩
    exact mem_live_stocked
  refine ⟨hfull, _, ?_, hshelves, (hshelves.alone hfull).1, hcount⟩
  rw [← hnone]
  exact .serve hpassed hrun

end Process
end PagedHeap
