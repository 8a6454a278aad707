import PagedHeap.Proofs.Site.Stacks

/-!
# Ranges in a cache that do not touch

A supplier joins what it gets back with the cached ranges that it touches, unless it is told not
to.  The large allocator tells it so where pages are handed back next to some that are lent, and
there is nothing to join with then.  So two cached ranges of one kind touch only after a client of
the supplier forbade to join pages that it handed back.
-/

namespace PagedHeap
namespace Site

open Ranges SizeTable

/-- A step in which no client hands back pages that are not to be joined with what is cached.  All
requests to the heap, for blocks and for large allocations are such, whatever the answer. -/
inductive Merging (p : Site) : Site → Prop where
  | heap {passed : Set Nat} {p' : Site} (hwork : p.Work .heap passed p') : Merging p p'
  | pages {s : Nat} {r : PageRequest} {a : Answer} {m : Machine}
      (hallowed : r.Allowed (p.party s).paging (p.pages s)) (hmerges : ¬r.Parts)
      (hrun : Machine.servePages s r p.machine = .ok a m) :
      Merging p ((p.next m).rebook s (p.blocks s) (p.pages s \ r.passed ∪ r.granted a))
  | blocks {i : Nat} {r : BlockRequest} {a : Answer} {p' : Site} (hasks : p.Asks i r a p') :
      Merging p p'
  | large {s : Nat} {r : LargeRequest} {a : Answer} {m : Machine}
      (hallowed : r.Allowed (p.party s).table)
      (hrun : Machine.serveLarge s r p.machine = .ok a m) :
      Merging p ((p.next m).rebook s (p.blocks s) (p.pages s))
  | store {o : Owner} {m : Memory}
      (hsame : ∀ y, y ∉ p.held o → m.byteAt y = p.kernel.memory.byteAt y) :
      Merging p (p.withKernel { p.kernel with memory := m })
  | assign {i s : Nat} (hempty : p.machine.privateCache i = .empty) :
      Merging p { p with desk := Function.update p.desk i s }
  | environment {k : Kernel} {others : Set Nat} (hvalid : k.Valid)
      (huse : ∀ o, p.own o ⊆ k.inUse)
      (hsame : ∀ o, ∀ y ∈ p.own o, k.memory.byteAt y = p.kernel.memory.byteAt y)
      (hothers : others ⊆ k.inUse) (hapart : ∀ o, Disjoint (p.own o) others)
      (hexact : ∀ x ∈ k.inUse, arenaBase ≤ x → x ∉ others → ∃ o, x ∈ p.own o) :
      Merging p { p.withKernel k with others := others }

/-- The sites that are reached without a client that forbids to join. -/
inductive Merged : Site → Prop where
  | start (build : Build) {k : Kernel} (suppliers : List PageConfig) (hvalid : k.Valid) :
      Merged (new build k suppliers)
  | step {p p' : Site} (hmerged : Merged p) (hstep : p.Merging p') : Merged p'

variable {p p' : Site} {o : Owner} {passed foreign : Set Nat}

theorem Merging.step (hstep : p.Merging p') : p.Step p' := by
  cases hstep with
  | heap hwork => exact .work hwork
  | pages hallowed _ hrun => exact .work (.pages hallowed hrun)
  | blocks hasks => exact hasks.step
  | large hallowed hrun => exact .work (.large hallowed hrun)
  | store hsame => exact .store hsame
  | assign hempty => exact .assign hempty
  | environment hvalid huse hsame hothers hapart hexact =>
      exact .environment hvalid huse hsame hothers hapart hexact

theorem Merged.reachable (hmerged : p.Merged) : p.Reachable := by
  induction hmerged with
  | start build suppliers hvalid => exact .start build suppliers hvalid
  | step _ hstep ih => exact ih.step hstep.step

/-! ## Steps -/

/-- If the cached ranges of an owner do not touch, they do not afterwards. -/
def KeepsCoalesced (p p' : Site) (o : Owner) : Prop :=
  Coalesced (p.paging o).cached → Coalesced (p'.paging o).cached

theorem Unmoved.keepsCoalesced (h : p.Unmoved p' o) : p.KeepsCoalesced p' o := by
  intro hcoalesced
  rwa [Paging.cached, h.supplier_eq]

theorem keepsCoalesced_of_evolves {s : Nat} {m : Machine} {n : Party}
    {spans : Nat → Category → List Span} {blocks pages blocks' pages' : Set Nat} {parted : Prop}
    (hturns : p.Turns s m n) (hmerges : ¬parted)
    (hevolves : (p.party s).Evolves blocks pages foreign passed n spans blocks' pages' parted) :
    p.KeepsCoalesced ((p.next m).rebook s blocks' pages') (.supplier s) := by
  rw [← hturns.party] at hevolves
  exact hevolves.keeps.coalesced hmerges

/-- The other owners have what they had. -/
theorem Work.keepsCoalesced {o' : Owner} (hwork : p.Work o passed p') (h : p.Orderly)
    (hself : p.KeepsCoalesced p' o) : p.KeepsCoalesced p' o' := by
  by_cases ho : o' = o
  · rwa [ho]
  · exact ((hwork.acts (h.sound o)).unmoved o' ho).keepsCoalesced

/-- An owner whose clients do not forbid it joins what it gets back. -/
theorem Merging.keepsCoalesced (hstep : p.Merging p') (h : p.Orderly) (o : Owner) :
    p.KeepsCoalesced p' o := by
  cases hstep with
  | heap hwork =>
      refine hwork.keepsCoalesced h ?_
      obtain ⟨spans, hsound⟩ := h.sound .heap
      cases hwork with
      | heap hserved =>
          obtain ⟨_, hevolves⟩ := hserved.evolves hsound
          exact hevolves.frames.keeps.coalesced id
  | @pages s r a m hallowed hmerges hrun =>
      refine (Work.pages hallowed hrun).keepsCoalesced h ?_
      obtain ⟨spans, hsound⟩ := h.sound (.supplier s)
      obtain ⟨n, hturns, hevolves⟩ := evolves_servePages hsound hallowed hrun
      exact keepsCoalesced_of_evolves hturns hmerges hevolves
  | @blocks i r a _ hasks =>
      cases hasks with
      | answer hallowed hrun =>
          refine (Work.blocks hallowed hrun).keepsCoalesced h ?_
          obtain ⟨spans, hsound⟩ := h.sound (.supplier (p.desk i))
          obtain ⟨b, hturns, new, hevolves, -⟩ := stacked_serveBlocks hsound hallowed hrun
          exact keepsCoalesced_of_evolves hturns id hevolves
  | @large s r a m hallowed hrun =>
      refine (Work.large hallowed hrun).keepsCoalesced h ?_
      obtain ⟨spans, hsound⟩ := h.sound (.supplier s)
      obtain ⟨n, hturns, hevolves⟩ := evolves_serveLarge hsound hallowed hrun
      exact keepsCoalesced_of_evolves hturns id hevolves
  | store hsame => exact (unmoved_withKernel p _ o).keepsCoalesced
  | @assign i s hempty =>
      cases o with
      | heap => exact id
      | supplier u =>
          intro hcoalesced
          rwa [paging, party_assign hempty]
  | @environment k others hvalid huse hsame hothers hapart hexact =>
      have hunmoved : p.Unmoved { p.withKernel k with others := others } o :=
        unmoved_withKernel p k o
      exact hunmoved.keepsCoalesced

/-! ## Runs -/

theorem coalesced_new (build : Build) {k : Kernel} (suppliers : List PageConfig) (o : Owner) :
    Coalesced ((new build k suppliers).paging o).cached := by
  cases o with
  | heap => exact coalesced_nil
  | supplier s =>
      obtain ⟨config, hnew⟩ := privateHeap_new build k suppliers s
      show Coalesced ((Machine.new build k suppliers).privateHeap s).supplier.cache.ranges
      rw [hnew]
      exact coalesced_nil

/-- Unless a client forbids a supplier to join the pages that it hands back, no cached range ends
where another of its kind starts. -/
theorem Merged.coalesced (hmerged : p.Merged) (o : Owner) : Coalesced (p.paging o).cached := by
  induction hmerged with
  | start build suppliers hvalid => exact coalesced_new build suppliers o
  | step hmerged hstep ih => exact hstep.keepsCoalesced hmerged.reachable.orderly o ih

/-- A client gets two pages that are aligned to four.  Those in front of them and behind them go
back, and the two ranges are cached apart until the client is done. -/
theorem coalesced_over_aligned : ∃ p p' : Site, p.Merged ∧ p'.Merged ∧
    (p.paging (.supplier 0)).cached = [⟨0x200000003000, 4096, true, false⟩,
      ⟨0x200000006000, 8192, true, false⟩] ∧
    Coalesced (p.paging (.supplier 0)).cached ∧
    (p'.paging (.supplier 0)).cached = [⟨0x200000003000, 20480, false, false⟩] ∧
    Coalesced (p'.paging (.supplier 0)).cached := by
  have haligns : Action.Ensures (Machine.serveLarge 0 (.allocate 8192 16384)) small.machine
      (fun _ m => (m.privateHeap 0).supplier.cache.ranges =
          [⟨0x200000003000, 4096, true, false⟩, ⟨0x200000006000, 8192, true, false⟩] ∧
        (m.privateHeap 0).table.get? 0x200000004000 = some 8192 ∧
        Action.Ensures (Machine.serveLarge 0 (.free 0x200000004000 none)) m
          (fun _ m' => (m'.privateHeap 0).supplier.cache.ranges =
            [⟨0x200000003000, 20480, false, false⟩]) Action.never) Action.never := by
    decide +kernel
  obtain ⟨a, m, hrun, hcached, hentry, hfrees⟩ := haligns.exists_ok
  obtain ⟨a', m', hrun', hcached'⟩ := hfrees.exists_ok
  have hstart : small.Merged :=
    .start .standard [{}] (Kernel.valid_boot (by decide) fun _ hnone => nomatch hnone)
  have hallowed : (LargeRequest.allocate 8192 16384).Allowed (small.party 0).table := by
    refine ⟨fun x hx => (nomatch hx), fun len align hwants => ?_⟩
    cases hwants
    decide
  have hmerged := hstart.step (.large hallowed hrun)
  have hallowed' : (LargeRequest.free 0x200000004000 none).Allowed (m.privateHeap 0).table := by
    refine ⟨fun x hx => ?_, fun len align hwants => (nomatch hwants)⟩
    cases hx
    exact ⟨8192, hentry⟩
  have hmerged' := hmerged.step (.large (s := 0) hallowed' hrun')
  exact ⟨_, _, hmerged, hmerged', hcached, hmerged.coalesced (.supplier 0), hcached',
    hmerged'.coalesced (.supplier 0)⟩

end Site
end PagedHeap
