import PagedHeap.Proofs.Site.Books

/-!
# Requests that fail

A request for memory may fail early or late: no range is found at all, or there is no room for its
entry when a range has been taken and its ends have gone back.  Each way out undoes another amount
of work.

What is the same for all of them is that only the supplier is left changed.  All that is out of its
hands is as it was: tables and their storage, large allocations, runs with their headers and free
blocks, and pages with clients.  Since the supplier knows of all that is used of the arena, what the
request obtained on the way and is still in use can only be in its cache.
-/

namespace PagedHeap
namespace Site

open SizeTable

/-- An owner was asked for memory by a client that keeps the rules, and there was none. -/
inductive Refuses (p : Site) : Owner → Site → Prop where
  | heap {t : Nat} {r : HeapRequest} {a : Answer} {h : Heap}
      (hpassed : ∀ x, r.passed? = some x → x ∈ p.live) (hrefused : r.Refused a)
      (hrun : Heap.serve t r p.heap = .ok a h) :
      Refuses p .heap { p.next { p.machine with heap := h } with
        live := after r.passed? r.frees a.granted? p.live }
  | pages {s : Nat} {r : PageRequest} {a : Answer} {m : Machine}
      (hallowed : r.Allowed (p.party s).paging (p.pages s)) (hrefused : r.Refused a)
      (hrun : Machine.servePages s r p.machine = .ok a m) :
      Refuses p (.supplier s) ((p.next m).rebook s (p.blocks s) (p.pages s \ r.passed ∪ r.granted a))
  | blocks {i : Nat} {r : BlockRequest} {a : Answer} {m : Machine}
      (hallowed : ∀ x, r.passed? = some x → x ∈ p.blocks (p.desk i)) (hrefused : r.Refused a)
      (hrun : Machine.serveBlocks (p.desk i) i r p.machine = .ok a m) :
      Refuses p (.supplier (p.desk i)) ((p.next m).rebook (p.desk i)
        (after r.passed? r.frees a.granted? (p.blocks (p.desk i))) (p.pages (p.desk i)))
  | large {s : Nat} {r : LargeRequest} {a : Answer} {m : Machine}
      (hallowed : r.Allowed (p.party s).table) (hrefused : r.Refused a)
      (hrun : Machine.serveLarge s r p.machine = .ok a m) :
      Refuses p (.supplier s) ((p.next m).rebook s (p.blocks s) (p.pages s))

/-- The lists of free blocks of an owner are as they were. -/
def SameLists (p p' : Site) : Owner → Prop
  | .heap => ∀ place (c : Category),
      SameList p.kernel.memory ((p.heap.cacheAt place).list c)
        p'.kernel.memory ((p'.heap.cacheAt place).list c)
  | .supplier s => ∀ i (c : Category),
      SameList p.kernel.memory (((p.party s).caches i).list c)
        p'.kernel.memory (((p'.party s).caches i).list c)

/-- An owner has lent out what it had lent out, with the content that it had, and its table, its
count, the headers of its runs and its lists of free blocks are as they were. -/
structure SameFor (p p' : Site) (o : Owner) : Prop where
  table : p'.table o = p.table o
  lentOut : p'.lentOut o = p.lentOut o
  content : ∀ y ∈ p.lentOut o, p'.kernel.memory.byteAt y = p.kernel.memory.byteAt y
  liveBytes : (p'.paging o).supplier.liveBytes = (p.paging o).supplier.liveBytes
  used : p'.used o = p.used o
  category : ∀ page ∈ pagesOf (p.used o),
    p'.kernel.memory.runCategory page = p.kernel.memory.runCategory page
  counter : ∀ page ∈ pagesOf (p.used o),
    p'.kernel.memory.runLive page = p.kernel.memory.runLive page
  lists : p.SameLists p' o

/-- The clients of all owners have what they had. -/
structure SameClients (p p' : Site) : Prop where
  live : p'.live = p.live
  loans : p'.loans = p.loans
  blocks : p'.blocks = p.blocks
  pages : p'.pages = p.pages
  desk : p'.desk = p.desk

/-- All clients have what they had, and all owners know what they knew. -/
structure Unchanged (p p' : Site) : Prop where
  clients : p.SameClients p'
  sizes : ∀ x ∈ p.live, ∀ n, p.heap.Occupies x n → p'.heap.Occupies x n
  owners : ∀ o, p.SameFor p' o

/-- What an owner obtained of the arena and is still in use is in its cache. -/
def Recovers (p : Site) (o : Owner) (p' : Site) : Prop :=
  ∃ made, p'.kernel.calls = made ++ p.kernel.calls ∧ p'.record = made ++ p.record ∧
    ∀ call ∈ made, ∀ y ∈ call.gained, arenaBase ≤ y → y ∈ p'.kernel.inUse → y ∈ p'.cached o

variable {p p' : Site} {o : Owner} {passed foreign foreign' : Set Nat} {s : Nat} {m : Machine}
  {n : Party}

/-! ## The owner that was asked -/

/-- A request that fails is answered like any other. -/
theorem Refuses.work (hrefuses : p.Refuses o p') : ∃ passed, p.Work o passed p' := by
  cases hrefuses with
  | heap hpassed _ hrun => exact ⟨_, .heap (.serve hpassed hrun)⟩
  | pages hallowed _ hrun => exact ⟨_, .pages hallowed hrun⟩
  | blocks hallowed _ hrun => exact ⟨_, .blocks hallowed hrun⟩
  | large hallowed _ hrun => exact ⟨_, .large hallowed hrun⟩

theorem Refuses.clients (hrefuses : p.Refuses o p') : p.SameClients p' := by
  cases hrefuses with
  | heap _ hrefused _ => exact ⟨Heap.after_refused hrefused p.live, rfl, rfl, rfl, rfl⟩
  | pages _ hrefused _ =>
      obtain ⟨hpassed, hgranted, -⟩ := hrefused.nothing
      refine ⟨rfl, rfl, Function.update_eq_self _ _, ?_, rfl⟩
      rw [hpassed, hgranted, Set.sdiff_empty, Set.union_empty]
      exact Function.update_eq_self _ _
  | blocks _ hrefused _ =>
      cases hrefused
      exact ⟨rfl, rfl, Function.update_eq_self _ _, Function.update_eq_self _ _, rfl⟩
  | large _ _ _ => exact ⟨rfl, rfl, Function.update_eq_self _ _, Function.update_eq_self _ _, rfl⟩

/-- The supplier of the owner that was asked has changed, and nothing that is out of its hands. -/
structure Rests (p : Site) (foreign : Set Nat) (o : Owner) (p' : Site) : Prop where
  stays : p.Stays p' foreign foreign o
  large : (p.largeHeap o).Rests (p.pagesOut o ∪ foreign) (p.pagesOut o).ncard (p'.largeHeap o)

theorem Rests.spares (h : p.Rests foreign o p') :
    (p.paging o).Keeps (p.storage o ∪ (p.lentOut o ∪ foreign)) (p'.paging o) := by
  rw [lentOut, Set.union_assoc]
  exact h.large.spares

theorem rests_heap {spans : Place → Category → List Span}
    (hsound : p.heap.Sound spans p.live foreign) (hrests : p.heap.Rests spans p.live foreign p'.heap)
    (hlive : p'.live = p.live) : p.Rests foreign .heap p' := by
  refine ⟨⟨hlive, hrests.caches, spans, hsound, ?_⟩, ?_⟩
  · rw [hlive]
    exact (hrests.steady hsound).sound
  · rw [pagesOut, hsound.used_eq, (ncard_runBytes hsound.finite_runs).2]
    exact hrests.large

theorem rests_supplier {spans : Nat → Category → List Span}
    (hsound : (p.party s).Sound spans (p.blocks s) (p.pages s) foreign)
    (hparty : p'.party s = n) (hrests : (p.party s).Rests spans (p.blocks s) (p.pages s) foreign n)
    (hclients : p.SameClients p') : p.Rests foreign (.supplier s) p' := by
  have hblocks := congrFun hclients.blocks s
  have hpages := congrFun hclients.pages s
  rw [← hparty] at hrests
  refine ⟨⟨hblocks, hpages, hrests.caches_eq, spans, hsound, ?_⟩, ?_⟩
  · rw [hblocks, hpages]
    exact hrests.sound hsound
  · rw [pagesOut, hsound.pagesOut_eq, hsound.ncard_pagesOut, Set.union_assoc]
    exact hrests.large

theorem Refuses.rests (hrefuses : p.Refuses o p') (h : p.SoundFor foreign o) :
    p.Rests foreign o p' := by
  have hclients := hrefuses.clients
  cases hrefuses with
  | heap hpassed hrefused hrun =>
      obtain ⟨spans, hsound⟩ := h
      exact rests_heap hsound (hsound.rests_serve hpassed hrefused hrun) hclients.live
  | pages hallowed hrefused hrun =>
      obtain ⟨spans, hsound⟩ := h
      obtain ⟨g, hserved, hturns⟩ := turns_servePages hrun
      exact rests_supplier hsound hturns.party
        (hsound.rests_servePages hallowed hrefused hserved) hclients
  | blocks _ hrefused hrun =>
      obtain ⟨spans, hsound⟩ := h
      obtain ⟨b, hserved, hturns⟩ := turns_serveBlocks hrun
      exact rests_supplier hsound hturns.party (hsound.rests_serveBlocks hrefused hserved) hclients
  | large hallowed hrefused hrun =>
      obtain ⟨spans, hsound⟩ := h
      obtain ⟨l, hserved, hturns⟩ := turns_serveLarge hrun
      exact rests_supplier hsound hturns.party
        (hsound.rests_serveLarge hallowed hrefused hserved) hclients

/-! ## What is as it was -/

theorem Stays.lists (h : p.Stays p' foreign foreign' o) : p.SameLists p' o := by
  cases o with
  | heap =>
      obtain ⟨-, hcaches, spans, hsound, hsound'⟩ := h
      intro place c
      refine (hsound.holds place c).sameList (hsound'.holds place c) ?_
      rw [hcaches]
  | supplier s =>
      obtain ⟨-, -, hcaches, spans, hsound, hsound'⟩ := h
      intro i c
      refine (hsound.holds i c).sameList (hsound'.holds i c) ?_
      rw [hcaches]

/-- The pages of runs are lent out. -/
theorem pageBytes_subset_lentOut {page : Nat} (hpage : page ∈ pagesOf (p.used o)) :
    bytesAt page pageSize ⊆ p.lentOut o := by
  intro y hy
  have hrun : y ∈ runBytes (p.used o) := pageBytes_subset_runBytes hpage hy
  cases o with
  | heap => exact .inr hrun
  | supplier s => exact .inr (.inl hrun)

theorem Stays.same (h : p.Stays p' foreign foreign' o) (htable : p'.table o = p.table o)
    (hcontent : ∀ y ∈ p.lentOut o, p'.kernel.memory.byteAt y = p.kernel.memory.byteAt y)
    (hsound : p.Orderly) (hsound' : p'.Orderly) : p.SameFor p' o := by
  have hlent : p'.lentOut o = p.lentOut o := by
    rw [lentOut, lentOut, htable, h.pagesOut_eq]
  have hheader : ∀ page ∈ pagesOf (p.used o), ∀ y ∈ bytesAt page 8,
      p'.kernel.memory.byteAt y = p.kernel.memory.byteAt y := by
    intro page hpage y hy
    have hpart : bytesAt page 8 ⊆ bytesAt page pageSize :=
      bytesAt_subset (Nat.le_refl _) (Nat.add_le_add_left (by decide) _)
    exact hcontent y (pageBytes_subset_lentOut hpage (hpart hy))
  refine ⟨htable, hlent, hcontent, ?_, h.used_eq, fun page hpage => ?_, fun page hpage => ?_,
    h.lists⟩
  · -- Both counts are of the same bytes.
    apply UInt64.toNat_inj.1
    rw [(hsound'.sound o).parts.balanced.liveBytes_eq, (hsound.sound o).parts.balanced.liveBytes_eq,
      hlent]
  · exact Memory.runCategory_congr fun y hy => hheader page hpage y
      (bytesAt_subset (Nat.le_refl _) (Nat.add_le_add_left (by decide) _) hy)
  · exact Memory.runLive_congr fun y hy => hheader page hpage y
      (bytesAt_subset (Nat.le_add_right _ _) (by omega) hy)

theorem SameFor.occupies {x size : Nat} (h : p.SameFor p' .heap) (hx : x ∈ p.live)
    (hn : p.heap.Occupies x size) : p'.heap.Occupies x size := by
  rcases hn with ⟨hoffset, hsize⟩ | ⟨c, hblock, rfl⟩
  · refine .inl ⟨hoffset, ?_⟩
    rw [show p'.heap.table = p.heap.table from h.table]
    exact hsize
  · have hused : x ∈ p.used .heap := .inr ⟨hx, hblock.offset_ne⟩
    exact .inr ⟨c, hblock.of_runCategory (h.category _ (mem_pagesOf hused)), rfl⟩

theorem Rests.same (hrests : p.Rests (p.foreign o) o p') (hacts : p.Acts o passed (p.foreign o) p')
    (h : p.Orderly) (o' : Owner) : p.SameFor p' o' := by
  have horderly := hacts.orderly h
  by_cases ho : o' = o
  · subst ho
    refine hrests.stays.same hrests.large.table_eq (fun y hy => ?_) h horderly
    rw [← paging_kernel p o', ← paging_kernel p' o']
    exact hrests.spares.byteAt y (.inr (.inl hy))
  · have hunmoved := hacts.unmoved o' ho
    have hparts := hacts.sound.parts
    have hstays := (h.sound o').stays hunmoved hparts.valid
      ((h.own_subset_foreign ho).trans hparts.used.2) (hacts.content h ho)
    exact hstays.same hunmoved.table_eq (fun y hy => hacts.content h ho y (.inr (.inl hy))) h horderly

/-! ## What was obtained on the way -/

theorem Rests.recovers (hrests : p.Rests (p.foreign o) o p')
    (hacts : p.Acts o passed (p.foreign o) p') (h : p.Orderly) : p.Recovers o p' := by
  have hused : p.storage o ∪ (p.lentOut o ∪ p.foreign o) ⊆ (p.paging o).kernel.inUse :=
    Set.subset_union_left.trans (h.sound o).parts.paging.used
  obtain ⟨-, made, hmade, hapart⟩ := hrests.spares.passage.gained_apart hused
  have hcalls : p'.kernel.calls = made ++ p.kernel.calls := by
    rw [← paging_kernel p o, ← paging_kernel p' o]
    exact hmade
  refine ⟨made, hcalls, ?_, fun call hcall y hy hbase huse => ?_⟩
  · rw [hacts.record_eq, hcalls, Call.since_append]
  · -- What is in use afterwards was kept, and not obtained, or it is in the cache.
    have hsame := hrests.same hacts h o
    have hnot := Set.disjoint_left.1 (hapart call hcall) hy
    rcases hacts.sound.parts.exact huse hbase with (hin | hin | hin) | hin
    · rw [storage, hsame.table] at hin
      exact absurd (.inl hin) hnot
    · rw [hsame.lentOut] at hin
      exact absurd (.inr (.inl hin)) hnot
    · exact hin
    · exact absurd (.inr (.inr hin)) hnot

/-- Whatever has happened on a machine, a request for memory that fails leaves everything as it was
but the cache of the supplier, and that has all that was obtained on the way and not given back. -/
theorem Reachable.refused_unchanged (hreach : p.Reachable) (hrefuses : p.Refuses o p') :
    p.Unchanged p' ∧ p.Recovers o p' := by
  have horderly := hreach.orderly
  obtain ⟨passed, hwork⟩ := hrefuses.work
  have hacts := hwork.acts (horderly.sound o)
  have hrests := hrefuses.rests (horderly.sound o)
  have hsame := hrests.same hacts horderly
  exact ⟨⟨hrefuses.clients, fun x hx _ hn => (hsame .heap).occupies hx hn, hsame⟩,
    hrests.recovers hacts horderly⟩

/-- A range is taken and its ends go back, and then there is no room for its entry. -/
theorem refused_over_aligned : ∃ p p' : Site, p.Reachable ∧ p.Refuses .heap p' ∧
    bytesAt 0x200000007000 4096 ⊆ p.lentOut (.supplier 0) ∧
    p'.kernel.calls = [.mapAny 0 4096 none, .mapAny 0 28672 (some 0x200000000000),
      .mapAny 0 4096 (some 0x200000007000)] ∧
    (p'.paging .heap).cached = [⟨0x200000000000, 28672, true, false⟩] ∧
    p.Unchanged p' ∧ p.Recovers .heap p' := by
  -- A client of a private supplier has one of eight pages.
  have hgot : small.answer? 0 (.allocate 4096) = some (.pointer (some 0x200000007000)) := by
    decide +kernel
  have hgranted : bytesAt 0x200000007000 4096 ⊆ (small.servePages 0 (.allocate 4096)).pages 0 :=
    granted_subset_pages hgot
  have hreach := reachable_small.servePages (s := 0) (r := .allocate 4096) ⟨by decide, by decide⟩
  have hanswer : Action.Ensures (Heap.serve 0 (.allocate 8192 { align := 16384 }))
      (small.servePages 0 (.allocate 4096)).heap
      (fun a h => a = .pointer none ∧ h.kernel.calls = [.mapAny 0 4096 none,
        .mapAny 0 28672 (some 0x200000000000), .mapAny 0 4096 (some 0x200000007000)] ∧
        h.paging.cached = [⟨0x200000000000, 28672, true, false⟩]) Action.never := by
    decide +kernel
  obtain ⟨a, h, hrun, rfl, hcalls, hcached⟩ := hanswer.exists_ok
  have hpassed : ∀ x, (HeapRequest.allocate 8192 { align := 16384 }).passed? = some x →
      x ∈ (small.servePages 0 (.allocate 4096)).live := fun _ hx => nomatch hx
  have hrefuses : Refuses _ .heap _ := .heap hpassed ⟨rfl, rfl⟩ hrun
  obtain ⟨hunchanged, hrecovers⟩ := hreach.refused_unchanged hrefuses
  exact ⟨_, _, hreach, hrefuses, hgranted.trans (Set.subset_union_right.trans
    Set.subset_union_right), hcalls, hcached, hunchanged, hrecovers⟩

end Site
end PagedHeap
