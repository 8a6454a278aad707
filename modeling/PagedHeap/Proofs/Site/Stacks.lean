import PagedHeap.Proofs.Block.Stacks
import PagedHeap.Proofs.Site.Order

/-!
# Private caches as stacks

What a private cache has is read off memory, from the heads of its lists along the nodes.  The
stacks that are found there change with the requests of the clients of that cache, as stacks do,
and with nothing else that happens on the machine.

So the requests to a cache and their answers, one after the other, are a run of its stacks.
-/

namespace PagedHeap

/-- The rows from a link on, as memory has them, of at most `rounds` nodes. -/
def rowsFrom (m : Memory) : Nat → Option Nat → List Span
  | 0, _ => []
  | _ + 1, none => []
  | rounds + 1, some node => spanAt m node :: rowsFrom m rounds (m.loadNode node).next?

theorem Chain.rowsFrom_eq {m : Memory} {rounds : Nat} {head? : Option Nat} {spans : List Span}
    (h : Chain m head? spans) (hrounds : spans.length ≤ rounds) :
    rowsFrom m rounds head? = spans := by
  induction rounds generalizing head? spans with
  | zero => exact (List.length_eq_zero_iff.1 (Nat.le_zero.1 hrounds)).symm
  | succ rounds ih =>
      cases spans with
      | nil =>
          obtain rfl : head? = none := h
          rfl
      | cons s spans =>
          obtain ⟨rfl, hcount, hrest⟩ := h
          show spanAt m s.first :: rowsFrom m rounds (m.loadNode s.first).next? = s :: spans
          rw [ih hrest (Nat.le_of_succ_le_succ hrounds), spanAt, hcount]

/-- A list has no more nodes than it counts blocks. -/
theorem Holds.rowsFrom_eq {m : Memory} {c : Category} {l : FreeList} {spans : List Span}
    (h : Holds m c l spans) : rowsFrom m l.count l.head? = spans := by
  refine h.linked.chain.rowsFrom_eq ?_
  rw [h.count_eq]
  exact h.linked.length_le

namespace Site

/-- A list of a private cache. -/
def list (p : Site) (i : Nat) (c : Category) : FreeList := (p.machine.privateCache i).list c

/-- A private cache, on the supplier of its desk. -/
def blockHeap (p : Site) (i : Nat) : BlockHeap :=
  ⟨(p.party (p.desk i)).paging, p.machine.privateCache i⟩

/-- The stacks that a private cache is, as memory has them. -/
def stacked (p : Site) (i : Nat) : Stacks := fun c =>
  blocksOf c (rowsFrom p.kernel.memory (p.list i c).count (p.list i c).head?)

/-- The clients of a private cache ask for something, and are answered.  What they pass is a block
that they have. -/
inductive Asks (p : Site) (i : Nat) : BlockRequest → Answer → Site → Prop where
  | answer {r : BlockRequest} {a : Answer} {m : Machine}
      (hallowed : ∀ x, r.passed? = some x → x ∈ p.blocks (p.desk i))
      (hrun : Machine.serveBlocks (p.desk i) i r p.machine = .ok a m) :
      Asks p i r a ((p.next m).rebook (p.desk i)
        (after r.passed? r.frees a.granted? (p.blocks (p.desk i))) (p.pages (p.desk i)))

variable {p p' : Site} {o : Owner} {passed foreign foreign' : Set Nat} {i s : Nat}
  {r : BlockRequest} {a : Answer} {c : Category}

theorem Asks.step (hasks : p.Asks i r a p') : p.Step p' := by
  cases hasks with
  | answer hallowed hrun => exact .work (.blocks hallowed hrun)

theorem caches_of_desk (hdesk : p.desk i = s) :
    (p.party s).caches i = p.machine.privateCache i := if_pos hdesk

/-- The stacks of a cache have the blocks of its rows. -/
theorem stacked_eq {spans : Nat → Category → List Span} {blocks pages : Set Nat}
    (hsound : (p.party s).Sound spans blocks pages foreign) (hdesk : p.desk i = s) :
    p.stacked i = Stacks.ofSpans (spans i) := by
  funext c
  have hholds := hsound.holds i c
  rw [caches_of_desk hdesk] at hholds
  exact congrArg (blocksOf c) hholds.rowsFrom_eq

theorem Turns.stacked_eq {m : Machine} {n : Party} {spans : Nat → Category → List Span}
    {blocks pages blocks' pages' : Set Nat} (hturns : p.Turns s m n)
    (hsound : n.Sound spans blocks pages foreign) (hdesk : p.desk i = s) :
    ((p.next m).rebook s blocks' pages').stacked i = Stacks.ofSpans (spans i) := by
  rw [← hturns.party] at hsound
  exact Site.stacked_eq (p := (p.next m).rebook s blocks' pages') hsound hdesk

/-! ## Steps -/

/-- A cache serves its clients as stacks would. -/
theorem Asks.stacked_step (hasks : p.Asks i r a p')
    (h : p.SoundFor foreign (.supplier (p.desk i))) :
    Stacks.Step (IsBlock p.kernel.memory) (p.stacked i) r a (p'.stacked i) := by
  cases hasks with
  | answer hallowed hrun =>
      obtain ⟨spans, hsound⟩ := h
      obtain ⟨b, hturns, new, hevolves, hstep⟩ := stacked_serveBlocks hsound hallowed hrun
      rw [stacked_eq hsound rfl, hturns.stacked_eq hevolves.sound rfl, Function.update_self]
      exact hstep

/-- An owner that has what it had has the stacks that it had. -/
theorem Stays.stacked_eq (h : p.Stays p' foreign foreign' (.supplier (p.desk i)))
    (hdesk : p'.desk = p.desk) : p'.stacked i = p.stacked i := by
  obtain ⟨-, -, -, spans, hsound, hsound'⟩ := h
  rw [Site.stacked_eq hsound rfl, Site.stacked_eq hsound' (congrFun hdesk i)]

/-- What another owner does is nothing to a cache. -/
theorem Acts.stacked_eq (hacts : p.Acts o passed (p.foreign o) p') (h : p.Orderly)
    (hne : .supplier (p.desk i) ≠ o) (hdesk : p'.desk = p.desk) : p'.stacked i = p.stacked i := by
  have hparts := hacts.sound.parts
  have hstays := (h.sound (.supplier (p.desk i))).stays (hacts.unmoved _ hne) hparts.valid
    ((h.own_subset_foreign hne).trans hparts.used.2) (hacts.content h hne)
  exact hstays.stacked_eq hdesk

theorem Work.desk_eq (hwork : p.Work o passed p') : p'.desk = p.desk := by
  cases hwork <;> rfl

/-- Work at the desk of a cache that is none for its own clients leaves its stacks alone. -/
theorem Work.stacked_at_desk (hwork : p.Work o passed p') (ho : o = .supplier (p.desk i))
    (h : p.SoundFor foreign (.supplier (p.desk i))) (hother : ∀ r a, ¬p.Asks i r a p') :
    p'.stacked i = p.stacked i := by
  obtain ⟨spans, hsound⟩ := h
  have hbefore := stacked_eq hsound rfl
  cases hwork with
  | heap hwork => exact absurd ho (by simp)
  | @pages s r a m hallowed hrun =>
      obtain rfl := Owner.supplier.inj ho
      obtain ⟨n, hturns, hevolves⟩ := evolves_servePages hsound hallowed hrun
      rw [hbefore, hturns.stacked_eq hevolves.sound rfl]
  | @blocks j r a m hallowed hrun =>
      have hdesk : p.desk j = p.desk i := Owner.supplier.inj ho
      have hne : i ≠ j := by
        rintro rfl
        exact hother r a (.answer hallowed hrun)
      rw [← hdesk] at hsound
      obtain ⟨b, hturns, new, hevolves, -⟩ := stacked_serveBlocks hsound hallowed hrun
      rw [hbefore, hturns.stacked_eq hevolves.sound hdesk.symm, Function.update_of_ne hne]
  | @large s r a m hallowed hrun =>
      obtain rfl := Owner.supplier.inj ho
      obtain ⟨n, hturns, hevolves⟩ := evolves_serveLarge hsound hallowed hrun
      rw [hbefore, hturns.stacked_eq hevolves.sound rfl]

/-- Whatever else happens on the machine, the stacks of a cache stay. -/
theorem Step.stacked_eq (hstep : p.Step p') (h : p.Orderly) (hother : ∀ r a, ¬p.Asks i r a p') :
    p'.stacked i = p.stacked i := by
  cases hstep with
  | @work o passed _ hwork =>
      by_cases ho : o = .supplier (p.desk i)
      · exact hwork.stacked_at_desk ho (h.sound _) hother
      · exact (hwork.acts (h.sound o)).stacked_eq h (Ne.symm ho) hwork.desk_eq
  | @store o m hsame =>
      by_cases ho : o = .supplier (p.desk i)
      · -- What the clients have is in no list.
        subst ho
        obtain ⟨spans, hsound⟩ := h.sound (.supplier (p.desk i))
        have hafter := Site.stacked_eq (p := p.withKernel { p.kernel with memory := m })
          (i := i) (hsound.withMemory hsame) rfl
        rw [hafter, Site.stacked_eq hsound rfl]
      · exact (acts_store (h.sound o) hsame).stacked_eq h (Ne.symm ho) rfl
  | assign hempty => rfl
  | @environment k others hvalid huse hsame hothers hapart hexact =>
      have hstays : p.Stays { p.withKernel k with others := others } _ _ _ :=
        (h.sound (.supplier (p.desk i))).stays
          (unmoved_withKernel p k (.supplier (p.desk i))) hvalid (huse _) (hsame _)
      exact hstays.stacked_eq rfl

/-! ## Runs -/

/-- The requests to a private cache that were answered since the start, the latest first. -/
inductive Logged (i : Nat) : List Stacks.Entry → Site → Prop where
  | start (build : Build) {k : Kernel} (suppliers : List PageConfig) (hvalid : k.Valid) :
      Logged i [] (new build k suppliers)
  | asked {log : List Stacks.Entry} {p p' : Site} {r : BlockRequest} {a : Answer}
      (hlog : Logged i log p) (hasks : p.Asks i r a p') :
      Logged i (⟨IsBlock p.kernel.memory, r, a⟩ :: log) p'
  | other {log : List Stacks.Entry} {p p' : Site} (hlog : Logged i log p) (hstep : p.Step p')
      (hother : ∀ r a, ¬p.Asks i r a p') : Logged i log p'

variable {log : List Stacks.Entry}

theorem Logged.reachable (hlog : Logged i log p) : p.Reachable := by
  induction hlog with
  | start build suppliers hvalid => exact .start build suppliers hvalid
  | asked _ hasks ih => exact ih.step hasks.step
  | other _ hstep _ ih => exact ih.step hstep

/-- What was asked of a cache in a run can be told. -/
theorem Reachable.exists_logged (hreach : p.Reachable) (i : Nat) : ∃ log, Logged i log p := by
  induction hreach with
  | start build suppliers hvalid => exact ⟨[], .start build suppliers hvalid⟩
  | @step p p' _ hstep ih =>
      obtain ⟨log, hlog⟩ := ih
      by_cases hasked : ∃ r a, p.Asks i r a p'
      · obtain ⟨r, a, hasks⟩ := hasked
        exact ⟨_, .asked hlog hasks⟩
      · exact ⟨log, .other hlog hstep fun r a hasks => hasked ⟨r, a, hasks⟩⟩

theorem stacked_new (build : Build) (k : Kernel) (suppliers : List PageConfig) (i : Nat) :
    (new build k suppliers).stacked i = fun _ => [] := by
  have hempty : (new build k suppliers).machine.privateCache i = .empty := by
    simp [new, Machine.privateCache, Machine.new]
  funext c
  rw [stacked, list, hempty, BlockCache.list_empty]
  rfl

/-- What was asked of a cache, with the answers, is a run of its stacks. -/
theorem Logged.replays (hlog : Logged i log p) : Stacks.Replays log (p.stacked i) := by
  induction hlog with
  | start build suppliers hvalid =>
      rw [stacked_new]
      exact .start
  | asked hlog hasks ih => exact .step ih (hasks.stacked_step (hlog.reachable.orderly.sound _))
  | other hlog hstep hother ih =>
      rw [hstep.stacked_eq hlog.reachable.orderly hother]
      exact ih

/-! ## Lists in memory -/

/-- A list of a private cache has just the blocks of its stack: it counts them, none of them is in
it twice, and its nodes are a chain that ends, in which none comes twice.  The row of a node is in
one page. -/
structure Chained (p : Site) (i : Nat) (c : Category) : Prop where
  count_eq : (p.list i c).count = (p.stacked i c).length
  nodup : (p.stacked i c).Nodup
  chain : ∃ spans, Chain p.kernel.memory (p.list i c).head? spans ∧
    (spans.map Span.first).Nodup ∧ blocksOf c spans = p.stacked i c ∧
      ∀ s ∈ spans, 0 < s.count ∧
        bytesAt s.first (s.count * c.blockSize) ⊆ bytesAt (pageOf s.first) pageSize

/-- A flush is answered.  It visits the nodes of a list that was detached before, and gives every
block of the stack back once.  The page of a node is still lent when the node is read, and no node
is read in a page that went back to the supplier. -/
def Flushes (p : Site) (i : Nat) (c : Category) : Prop :=
  ∃ visits b', Machine.serveBlocks (p.desk i) i (.flush c.val) p.machine =
      .ok .done ((Machine.blockPart (p.desk i) i).write b' p.machine) ∧
    BlockHeap.Walk ((p.blockHeap i).detached c) (p.list i c).head? visits b' ∧
    (visits.flatMap fun v => v.span.blocks c) = p.stacked i c ∧
    BlockHeap.Careful visits ∧ ∀ v ∈ visits, v.Lent

theorem SoundFor.chained (h : p.SoundFor foreign (.supplier (p.desk i))) (c : Category) :
    p.Chained i c := by
  obtain ⟨spans, hsound⟩ := h
  have hholds := hsound.holds i c
  rw [caches_of_desk rfl] at hholds
  have hstacked : p.stacked i c = blocksOf c (spans i c) :=
    congrFun (stacked_eq hsound rfl) c
  refine ⟨?_, ?_, spans i c, hholds.linked.chain, hholds.linked.nodup_first, hstacked.symm,
    fun s hs => ⟨(hholds.linked.rows s hs).positive, (hholds.linked.rows s hs).bytes_subset⟩⟩
  · rw [hstacked]
    exact hholds.count_eq
  · rw [hstacked]
    exact hholds.linked.nodup

/-- What a cache serves is served on the machine. -/
theorem serveBlocks_eq_ok {b : BlockHeap} (hserved : BlockHeap.serve r (p.blockHeap i) = .ok a b) :
    Machine.serveBlocks (p.desk i) i r p.machine =
      .ok a ((Machine.blockPart (p.desk i) i).write b p.machine) := by
  have hread : (Machine.blockPart (p.desk i) i).read p.machine = p.blockHeap i := rfl
  rw [Machine.serveBlocks, Action.within, hread, hserved]

theorem SoundFor.flushes (h : p.SoundFor foreign (.supplier (p.desk i))) (c : Category) :
    p.Flushes i c := by
  obtain ⟨spans, hsound⟩ := h
  have hstacked : p.stacked i c = blocksOf c (spans i c) :=
    congrFun (stacked_eq hsound rfl) c
  have hblocks := hsound.blockHeap i
  rw [Party.blockHeap, caches_of_desk rfl] at hblocks
  obtain ⟨visits, b', hrun, hwalk, halong⟩ := (hblocks.stocks c).exists_flush
  refine ⟨visits, b', serveBlocks_eq_ok ?_, hwalk, ?_, halong.careful, halong.pages_lent⟩
  · rw [BlockHeap.serve, Action.bind_eq_ok_iff]
    refine ⟨c, p.blockHeap i, ?_, Action.bind_eq_ok_iff.2 ⟨(), b', hrun, rfl⟩⟩
    rw [BlockHeap.demandCategory, Category.ofNat?_val]
    rfl
  · rw [hstacked, ← halong.spans_eq, blocksOf, List.flatMap_map]

/-- A request that the clients may make is answered. -/
theorem SoundFor.exists_asks (h : p.SoundFor foreign (.supplier (p.desk i)))
    (hallowed : ∀ x, r.passed? = some x → x ∈ p.blocks (p.desk i)) (hknown : ¬r.Unknown) :
    ∃ a p', p.Asks i r a p' := by
  obtain ⟨spans, hsound⟩ := h
  have hserves : Action.Ensures (BlockHeap.serve r) ((p.party (p.desk i)).blockHeap i)
      (fun _ _ => True) Action.never :=
    (hsound.ensures_serveBlocks i hallowed).mono (fun _ _ _ => trivial)
      fun _ _ hunknown => hknown hunknown
  obtain ⟨a, b, hserved, -⟩ := hserves.exists_ok
  rw [Party.blockHeap, caches_of_desk rfl] at hserved
  exact ⟨a, _, .answer hallowed (serveBlocks_eq_ok hserved)⟩

/-- A private cache is a stack of single blocks for each category.  All requests that its clients
may make are answered, and the answers are those of the stacks. -/
structure KeepsStacks (p : Site) (i : Nat) : Prop where
  replays : ∀ log, Logged i log p → Stacks.Replays log (p.stacked i)
  answers : ∀ r, (∀ x, r.passed? = some x → x ∈ p.blocks (p.desk i)) → ¬r.Unknown →
    ∃ a p', p.Asks i r a p'
  step : ∀ r a p', p.Asks i r a p' →
    Stacks.Step (IsBlock p.kernel.memory) (p.stacked i) r a (p'.stacked i)
  chained : ∀ c, p.Chained i c
  flushes : ∀ c, p.Flushes i c

/-- Whatever has happened on a machine, what was asked of a private cache was answered as by
stacks, and memory has these stacks in its lists. -/
theorem Reachable.cache_keeps_stacks (hreach : p.Reachable) (i : Nat) :
    (∃ log, Logged i log p) ∧ p.KeepsStacks i := by
  have hsound := hreach.orderly.sound (.supplier (p.desk i))
  exact ⟨hreach.exists_logged i, fun _ hlog => hlog.replays,
    fun _ hallowed hknown => hsound.exists_asks hallowed hknown,
    fun _ _ _ hasks => hasks.stacked_step hsound, hsound.chained, hsound.flushes⟩

/-- A page is carved for the first block of a category, and all its other slots are stacked. -/
theorem cache_keeps_stacks_carved : ∃ p p' : Site, p.Reachable ∧
    p.Asks 0 (.allocate 2) (.pointer (some 0x200000007040)) p' ∧
      ((∃ log, Logged 0 log p') ∧ p'.KeepsStacks 0) ∧
      p'.stacked 0 2 = (slots 2 0x200000007000).tail := by
  have hcarves : Action.Ensures (Machine.serveBlocks 0 0 (.allocate 2)) small.machine
      (fun a m => a = .pointer (some 0x200000007040) ∧
        blocksOf 2 (rowsFrom m.heap.kernel.memory ((m.privateCache 0).list 2).count
          ((m.privateCache 0).list 2).head?) = (slots 2 0x200000007000).tail) Action.never := by
    decide +kernel
  obtain ⟨_, m, hrun, rfl, hstacked⟩ := hcarves.exists_ok
  have hasks : small.Asks 0 (.allocate 2) (.pointer (some 0x200000007040)) _ :=
    .answer (fun _ hnone => nomatch hnone) hrun
  exact ⟨small, _, reachable_small, hasks,
    (reachable_small.step hasks.step).cache_keeps_stacks 0, hstacked⟩

end Site
end PagedHeap
