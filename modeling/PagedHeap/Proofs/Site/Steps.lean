import PagedHeap.Proofs.Site.Owners

/-!
# A site step by step

In a step an owner does some work for its clients, or a client stores to what it has, or a private
cache with nothing in it goes to another desk, or others do what they like with the kernel and
with memory that is nobody's here.  Others may take pages and give them up, and move the program
break, as long as they leave the owners what they have.

Whatever is done by an owner or a client is an act of one owner: it alone changes its books, and
nothing is directed at what is foreign to it.
-/

namespace PagedHeap
namespace Site

open SizeTable

/-- The process that the heap serves; the blocks that came home are not in these books. -/
def process (p : Site) : Process := ⟨p.machine.heap, p.live, ∅, p.loans⟩

/-- A site on which nothing was allocated.  All that is in use, others use. -/
def new (build : Build) (k : Kernel) (suppliers : List PageConfig) : Site where
  machine := .new build k suppliers
  live := ∅
  loans := []
  blocks _ := ∅
  pages _ := ∅
  desk _ := 0
  others := k.inUse
  record := []

/-- The site with another kernel. -/
def withKernel (p : Site) (k : Kernel) : Site :=
  { p with machine := { p.machine with heap := { p.machine.heap with kernel := k } } }

/-- The machine goes on, and the calls that are made for it are on record. -/
def next (p : Site) (m : Machine) : Site :=
  { p with machine := m, record := Call.since p.kernel.calls m.heap.kernel.calls ++ p.record }

/-- The clients of a private supplier have other blocks and pages. -/
def rebook (p : Site) (s : Nat) (blocks pages : Set Nat) : Site :=
  { p with
    blocks := Function.update p.blocks s blocks
    pages := Function.update p.pages s pages }

@[simp]
theorem blocks_rebook (p : Site) (s : Nat) (blocks pages : Set Nat) :
    (p.rebook s blocks pages).blocks s = blocks := Function.update_self ..

@[simp]
theorem pages_rebook (p : Site) (s : Nat) (blocks pages : Set Nat) :
    (p.rebook s blocks pages).pages s = pages := Function.update_self ..

/-- The bytes of the allocation that is passed to the heap. -/
def heapPassed (p : Site) (passed? : Option Nat) : Set Nat :=
  {y | ∃ x, passed? = some x ∧ y ∈ p.heap.body x}

/-- An owner does some work for its clients.  What they pass is theirs, and what is said to be zero
is. -/
inductive Work (p : Site) : Owner → Set Nat → Site → Prop where
  | heap {passed? granted? : Option Nat} {q : Process}
      (hwork : p.process.Work passed? granted? q) :
      Work p .heap (p.heapPassed passed?)
        { p.next { p.machine with heap := q.heap } with live := q.live, loans := q.loans }
  | pages {s : Nat} {r : PageRequest} {a : Answer} {m : Machine}
      (hallowed : r.Allowed (p.party s).paging (p.pages s))
      (hrun : Machine.servePages s r p.machine = .ok a m) :
      Work p (.supplier s) r.passed
        ((p.next m).rebook s (p.blocks s) (p.pages s \ r.passed ∪ r.granted a))
  | blocks {i : Nat} {r : BlockRequest} {a : Answer} {m : Machine}
      (hallowed : ∀ x, r.passed? = some x → x ∈ p.blocks (p.desk i))
      (hrun : Machine.serveBlocks (p.desk i) i r p.machine = .ok a m) :
      Work p (.supplier (p.desk i)) ((p.party (p.desk i)).blockPassed r)
        ((p.next m).rebook (p.desk i)
          (after r.passed? r.frees a.granted? (p.blocks (p.desk i))) (p.pages (p.desk i)))
  | large {s : Nat} {r : LargeRequest} {a : Answer} {m : Machine}
      (hallowed : r.Allowed (p.party s).table)
      (hrun : Machine.serveLarge s r p.machine = .ok a m) :
      Work p (.supplier s) ((p.party s).largePassed r)
        ((p.next m).rebook s (p.blocks s) (p.pages s))

/-- A step of an owner, of a client, or of others. -/
inductive Step (p : Site) : Site → Prop where
  | work {o : Owner} {passed : Set Nat} {p' : Site} (hwork : p.Work o passed p') : Step p p'
  | store {o : Owner} {m : Memory}
      (hsame : ∀ y, y ∉ p.held o → m.byteAt y = p.kernel.memory.byteAt y) :
      Step p (p.withKernel { p.kernel with memory := m })
  | assign {i s : Nat} (hempty : p.machine.privateCache i = .empty) :
      Step p { p with desk := Function.update p.desk i s }
  | environment {k : Kernel} {others : Set Nat} (hvalid : k.Valid)
      (huse : ∀ o, p.own o ⊆ k.inUse)
      (hsame : ∀ o, ∀ y ∈ p.own o, k.memory.byteAt y = p.kernel.memory.byteAt y)
      (hothers : others ⊆ k.inUse) (hapart : ∀ o, Disjoint (p.own o) others)
      (hexact : ∀ x ∈ k.inUse, arenaBase ≤ x → x ∉ others → ∃ o, x ∈ p.own o) :
      Step p { p.withKernel k with others := others }

/-- The sites that are reached from one on which nothing was allocated. -/
inductive Reachable : Site → Prop where
  | start (build : Build) {k : Kernel} (suppliers : List PageConfig) (hvalid : k.Valid) :
      Reachable (new build k suppliers)
  | step {p p' : Site} (hreach : Reachable p) (hstep : p.Step p') : Reachable p'

/-- An owner did something, and nothing was directed at what is foreign to it, or at what its
clients have besides what they `passed`. -/
structure Acts (p : Site) (o : Owner) (passed foreign : Set Nat) (p' : Site) : Prop where
  sound : p'.SoundFor foreign o
  keeps : (p.paging o).Keeps (p.held o \ passed ∪ foreign) (p'.paging o) True
  unmoved : ∀ o', o' ≠ o → p.Unmoved p' o'
  others_eq : p'.others = p.others
  record_eq : p'.record = Call.since p.kernel.calls p'.kernel.calls ++ p.record

variable {p p' : Site} {o : Owner} {passed foreign : Set Nat} {s i x : Nat}

/-! ## Work -/

theorem getD_insert {β : Type} (t : Std.TreeMap Nat β) (i j : Nat) (b d : β) :
    ((t.insert i b)[j]?).getD d = if j = i then b else (t[j]?).getD d := by
  rw [Std.TreeMap.getElem?_insert]
  by_cases hj : j = i
  · subst hj
    simp
  · have hne : compare i j ≠ .eq := by simpa using fun heq : i = j => hj heq.symm
    simp [hj, hne]

/-- On the machine as it is now, the party of supplier `s` is `n`, and all others have what they
had. -/
structure Turns (p : Site) (s : Nat) (m : Machine) (n : Party) : Prop where
  party : (p.next m).party s = n
  heap : m.heap = { p.machine.heap with kernel := m.heap.kernel }
  others : ∀ u, u ≠ s → (p.next m).party u =
    { p.party u with paging := { (p.party u).paging with kernel := m.heap.kernel } }

variable {m : Machine} {h : PrivateHeap} {n : Party}

/-- The supplier `s` was given a new state, and caches at its desk may have changed. -/
theorem turns_of_supplier (hheap : m.heap = { p.machine.heap with kernel := m.heap.kernel })
    (hheaps : m.privateHeaps = p.machine.privateHeaps.insert s h)
    (hcaches : ∀ i, p.desk i ≠ s → m.privateCache i = p.machine.privateCache i) :
    p.Turns s m ⟨⟨m.heap.kernel, h.supplier⟩, h.table,
      fun i => if p.desk i = s then m.privateCache i else .empty⟩ := by
  have hsupplier : ∀ u, m.privateHeap u = if u = s then h else p.machine.privateHeap u := by
    intro u
    rw [Machine.privateHeap, hheaps]
    exact getD_insert ..
  refine ⟨?_, hheap, fun u hu => ?_⟩
  · have hself := (hsupplier s).trans (if_pos rfl)
    show (⟨⟨m.heap.kernel, (m.privateHeap s).supplier⟩, (m.privateHeap s).table,
      fun i => if p.desk i = s then m.privateCache i else .empty⟩ : Party) = _
    rw [hself]
  · -- The caches at the desk of another supplier are none of those at this one.
    have hsame : (fun i => if p.desk i = u then m.privateCache i else .empty) =
        fun i => if p.desk i = u then p.machine.privateCache i else .empty := by
      funext i
      by_cases hi : p.desk i = u
      · rw [if_pos hi, if_pos hi, hcaches i (hi ▸ hu)]
      · rw [if_neg hi, if_neg hi]
    show (⟨⟨m.heap.kernel, (m.privateHeap u).supplier⟩, (m.privateHeap u).table,
      fun i => if p.desk i = u then m.privateCache i else .empty⟩ : Party) = _
    rw [hsame, hsupplier u, if_neg hu]
    rfl

/-- A request for pages was served by the supplier, as its party has it. -/
theorem turns_servePages {r : PageRequest} {a : Answer}
    (hrun : Machine.servePages s r p.machine = .ok a m) :
    ∃ g, Paging.serve r (p.party s).paging = .ok a g ∧
      p.Turns s m { p.party s with paging := g } := by
  obtain ⟨g, hserved, rfl⟩ := Action.exists_of_within hrun
  exact ⟨g, hserved, turns_of_supplier
    (h := { p.machine.privateHeap s with supplier := g.supplier }) rfl rfl fun _ _ => rfl⟩

theorem turns_serveLarge {r : LargeRequest} {a : Answer}
    (hrun : Machine.serveLarge s r p.machine = .ok a m) :
    ∃ l, LargeHeap.serve r (p.party s).largeHeap = .ok a l ∧
      p.Turns s m ((p.party s).withLarge l) := by
  obtain ⟨l, hserved, rfl⟩ := Action.exists_of_within hrun
  exact ⟨l, hserved, turns_of_supplier (h := ⟨l.paging.supplier, l.table⟩) rfl rfl fun _ _ => rfl⟩

theorem turns_serveBlocks {r : BlockRequest} {a : Answer}
    (hrun : Machine.serveBlocks (p.desk i) i r p.machine = .ok a m) :
    ∃ b, BlockHeap.serve r ((p.party (p.desk i)).blockHeap i) = .ok a b ∧
      p.Turns (p.desk i) m ((p.party (p.desk i)).withBlocks i b) := by
  have hread : (Machine.blockPart (p.desk i) i).read p.machine =
      (p.party (p.desk i)).blockHeap i := by
    have hself : (p.party (p.desk i)).caches i = p.machine.privateCache i := if_pos rfl
    rw [Party.blockHeap, hself]
    rfl
  obtain ⟨b, hserved, rfl⟩ := Action.exists_of_within hrun
  rw [hread] at hserved
  have hcache : ∀ j, ((Machine.blockPart (p.desk i) i).write b p.machine).privateCache j =
      if j = i then b.cache else p.machine.privateCache j :=
    fun j => getD_insert p.machine.privateCaches i j b.cache BlockCache.empty
  -- At this desk one cache has changed.
  have hcaches : (fun j => if p.desk j = p.desk i
      then ((Machine.blockPart (p.desk i) i).write b p.machine).privateCache j else .empty) =
      Function.update (p.party (p.desk i)).caches i b.cache := by
    funext j
    rw [hcache]
    by_cases hj : j = i
    · rw [hj, Function.update_self, if_pos rfl, if_pos rfl]
    · rw [Function.update_of_ne hj, if_neg hj]
      rfl
  refine ⟨b, hserved, ?_⟩
  rw [Party.withBlocks, ← hcaches]
  exact turns_of_supplier
    (h := { p.machine.privateHeap (p.desk i) with supplier := b.paging.supplier }) rfl rfl
    fun j hj => (hcache j).trans (if_neg fun heq => hj (congrArg p.desk heq))

/-- A request for pages that keeps the rules makes of the party what it is on the machine as it is
now. -/
theorem evolves_servePages {spans : Nat → Category → List Span} {r : PageRequest} {a : Answer}
    (hsound : (p.party s).Sound spans (p.blocks s) (p.pages s) foreign)
    (hallowed : r.Allowed (p.party s).paging (p.pages s))
    (hrun : Machine.servePages s r p.machine = .ok a m) :
    ∃ n, p.Turns s m n ∧ (p.party s).Evolves (p.blocks s) (p.pages s) foreign r.passed n spans
      (p.blocks s) (p.pages s \ r.passed ∪ r.granted a) r.Parts := by
  obtain ⟨g, hserved, hturns⟩ := turns_servePages hrun
  exact ⟨_, hturns, (hsound.ensures_servePages hallowed).of_ok hserved⟩

theorem evolves_serveLarge {spans : Nat → Category → List Span} {r : LargeRequest} {a : Answer}
    (hsound : (p.party s).Sound spans (p.blocks s) (p.pages s) foreign)
    (hallowed : r.Allowed (p.party s).table)
    (hrun : Machine.serveLarge s r p.machine = .ok a m) :
    ∃ n, p.Turns s m n ∧ (p.party s).Evolves (p.blocks s) (p.pages s) foreign
      ((p.party s).largePassed r) n spans (p.blocks s) (p.pages s) := by
  obtain ⟨l, hserved, hturns⟩ := turns_serveLarge hrun
  exact ⟨_, hturns, (hsound.ensures_serveLarge hallowed).of_ok hserved⟩

/-- A request for blocks is served at the desk of the cache, as by stacks. -/
theorem stacked_serveBlocks {spans : Nat → Category → List Span} {r : BlockRequest} {a : Answer}
    (hsound : (p.party (p.desk i)).Sound spans (p.blocks (p.desk i)) (p.pages (p.desk i)) foreign)
    (hallowed : ∀ x, r.passed? = some x → x ∈ p.blocks (p.desk i))
    (hrun : Machine.serveBlocks (p.desk i) i r p.machine = .ok a m) :
    ∃ b, p.Turns (p.desk i) m ((p.party (p.desk i)).withBlocks i b) ∧
      (p.party (p.desk i)).Stacked spans (p.blocks (p.desk i)) (p.pages (p.desk i)) foreign i r
        a b := by
  obtain ⟨b, hserved, hturns⟩ := turns_serveBlocks hrun
  exact ⟨b, hturns, (hsound.ensures_serveBlocks i hallowed).of_ok hserved⟩

theorem acts_of_supplier {spans : Nat → Category → List Span} {blocks pages : Set Nat}
    {parted : Prop} (hturns : p.Turns s m n)
    (hevolves : (p.party s).Evolves (p.blocks s) (p.pages s) foreign passed n spans blocks pages
      parted) :
    p.Acts (.supplier s) passed foreign ((p.next m).rebook s blocks pages) := by
  rw [← hturns.party] at hevolves
  refine ⟨?_, hevolves.keeps.weaken fun _ => trivial, fun o hne => ?_, rfl, rfl⟩
  · refine ⟨spans, ?_⟩
    rw [blocks_rebook, pages_rebook]
    exact hevolves.sound
  · cases o with
    | heap => exact ⟨hturns.heap, rfl⟩
    | supplier u =>
        have hu : u ≠ s := fun heq => hne (by rw [heq])
        exact ⟨hturns.others u hu, Function.update_of_ne hu _ _, Function.update_of_ne hu _ _⟩

theorem Work.acts (hwork : p.Work o passed p') (h : p.SoundFor foreign o) :
    p.Acts o passed foreign p' := by
  cases hwork with
  | @heap passed? granted? q hwork =>
      obtain ⟨spans, hsound⟩ := h
      obtain ⟨spans', hevolves⟩ := hwork.evolves hsound
      have hkeeps := hevolves.frames.keeps.weaken fun _ => True.intro
      refine ⟨⟨spans', hevolves.sound⟩, hkeeps.mono fun y hy => ?_, fun o hne => ?_, rfl, rfl⟩
      · rcases hy with ⟨⟨x, hx, hbody⟩, hnot⟩ | hforeign
        · exact .inl ⟨x, ⟨hx, fun heq => hnot ⟨x, heq, hbody⟩⟩, hbody⟩
        · exact .inr hforeign
      · cases o with
        | heap => exact absurd rfl hne
        | supplier s => exact ⟨rfl, rfl, rfl⟩
  | pages hallowed hrun =>
      obtain ⟨spans, hsound⟩ := h
      obtain ⟨n, hturns, hevolves⟩ := evolves_servePages hsound hallowed hrun
      exact acts_of_supplier hturns hevolves
  | blocks hallowed hrun =>
      obtain ⟨spans, hsound⟩ := h
      obtain ⟨b, hturns, new, hevolves, -⟩ := stacked_serveBlocks hsound hallowed hrun
      exact acts_of_supplier hturns hevolves
  | large hallowed hrun =>
      obtain ⟨spans, hsound⟩ := h
      obtain ⟨n, hturns, hevolves⟩ := evolves_serveLarge hsound hallowed hrun
      exact acts_of_supplier hturns hevolves

/-! ## Steps of clients -/

theorem Unmoved.refl (p : Site) (o : Owner) : p.Unmoved p o := by
  cases o with
  | heap => exact ⟨rfl, rfl⟩
  | supplier s => exact ⟨rfl, rfl, rfl⟩

theorem unmoved_withKernel (p : Site) (k : Kernel) (o : Owner) : p.Unmoved (p.withKernel k) o := by
  cases o with
  | heap => exact ⟨rfl, rfl⟩
  | supplier s => exact ⟨rfl, rfl, rfl⟩

theorem record_of_calls_eq (record : List Call) {before after : List Call} (heq : after = before) :
    record = Call.since before after ++ record := by
  have hnone : Call.since before ([] ++ before) = [] := Call.since_append [] before
  rw [heq]
  rw [List.nil_append] at hnone
  rw [hnone, List.nil_append]

/-- A store of a client is something that an owner did, with all that its clients have passed. -/
theorem acts_store {n : Memory} (h : p.SoundFor foreign o)
    (hsame : ∀ y, y ∉ p.held o → n.byteAt y = p.kernel.memory.byteAt y) :
    p.Acts o (p.held o) foreign (p.withKernel { p.kernel with memory := n }) := by
  refine ⟨?_, ?_, fun o' _ => unmoved_withKernel p _ o', rfl, record_of_calls_eq p.record rfl⟩
  · cases o with
    | heap =>
        obtain ⟨spans, hsound⟩ := h
        exact ⟨spans, hsound.withMemory (Set.Subset.refl _) hsame⟩
    | supplier s =>
        obtain ⟨spans, hsound⟩ := h
        exact ⟨spans, hsound.withMemory hsame⟩
  · -- No call is made, and what is foreign is with no client.
    have hapart : Disjoint (p.held o) foreign := h.parts.lentOut.mono_left h.parts.held
    have hkept : ∀ y ∈ p.held o \ p.held o ∪ foreign, n.byteAt y = p.kernel.memory.byteAt y := by
      intro y hy
      rw [Set.sdiff_self, Set.empty_union] at hy
      exact hsame y fun hin => Set.disjoint_left.1 hapart hin hy
    cases o with
    | heap => exact .of_store hkept
    | supplier s => exact .of_store hkept

/-- A cache with nothing in it may go from desk to desk. -/
theorem party_assign (hempty : p.machine.privateCache i = .empty) (u : Nat) :
    ({ p with desk := Function.update p.desk i s } : Site).party u = p.party u := by
  have hcaches : (fun j => if Function.update p.desk i s j = u
      then p.machine.privateCache j else .empty) =
      fun j => if p.desk j = u then p.machine.privateCache j else .empty := by
    funext j
    by_cases hj : j = i
    · rw [hj, hempty, ite_self, ite_self]
    · rw [Function.update_of_ne hj]
  show (⟨⟨p.kernel, (p.machine.privateHeap u).supplier⟩, (p.machine.privateHeap u).table,
    fun j => if Function.update p.desk i s j = u then p.machine.privateCache j else .empty⟩ :
      Party) = _
  rw [hcaches]
  rfl

theorem acts_assign (h : p.SoundFor foreign .heap) (hempty : p.machine.privateCache i = .empty) :
    p.Acts .heap ∅ foreign { p with desk := Function.update p.desk i s } := by
  refine ⟨h, .refl _ _, fun o hne => ?_, rfl, record_of_calls_eq p.record rfl⟩
  cases o with
  | heap => exact absurd rfl hne
  | supplier u => exact ⟨party_assign hempty u, rfl, rfl⟩

/-! ## Requests one after the other -/

/-- The site after a request for pages, if that is answered. -/
def servePages (s : Nat) (r : PageRequest) (p : Site) : Site :=
  match Machine.servePages s r p.machine with
  | .ok a m => (p.next m).rebook s (p.blocks s) (p.pages s \ r.passed ∪ r.granted a)
  | .error _ _ => p

/-- The answer to a request for pages. -/
def answer? (s : Nat) (r : PageRequest) (p : Site) : Option Answer :=
  match Machine.servePages s r p.machine with
  | .ok a _ => some a
  | .error _ _ => none

theorem work_servePages {r : PageRequest} {a : Answer} (hanswer : p.answer? s r = some a)
    (hallowed : r.Allowed (p.party s).paging (p.pages s)) :
    p.Work (.supplier s) r.passed (p.servePages s r) := by
  unfold answer? at hanswer
  unfold servePages
  cases hrun : Machine.servePages s r p.machine with
  | ok a m => exact .pages hallowed hrun
  | error e m =>
      simp only [hrun] at hanswer
      exact absurd hanswer (by simp)

/-- What the clients have after a request. -/
theorem pages_servePages {r : PageRequest} {a : Answer} (hanswer : p.answer? s r = some a) :
    (p.servePages s r).pages s = p.pages s \ r.passed ∪ r.granted a := by
  unfold answer? at hanswer
  unfold servePages
  cases hrun : Machine.servePages s r p.machine with
  | ok a' m =>
      simp only [hrun, Option.some.injEq] at hanswer ⊢
      rw [← hanswer, pages_rebook]
  | error e m =>
      simp only [hrun] at hanswer
      exact absurd hanswer (by simp)

theorem granted_subset_pages {r : PageRequest} {a : Answer} (hanswer : p.answer? s r = some a) :
    r.granted a ⊆ (p.servePages s r).pages s := by
  rw [pages_servePages hanswer]
  exact Set.subset_union_right

/-- The clients of another supplier have what they had. -/
theorem pages_servePages_of_ne {u : Nat} (r : PageRequest) (hne : u ≠ s) :
    (p.servePages s r).pages u = p.pages u := by
  unfold servePages
  cases Machine.servePages s r p.machine with
  | ok a m => exact Function.update_of_ne hne _ _
  | error e m => rfl

theorem Reachable.servePages {r : PageRequest} (hreach : p.Reachable)
    (hallowed : r.Allowed (p.party s).paging (p.pages s)) : (p.servePages s r).Reachable := by
  unfold Site.servePages
  cases hrun : Machine.servePages s r p.machine with
  | ok a m => exact hreach.step (.work (.pages hallowed hrun))
  | error e m => exact hreach

/-- The site after a request for a large allocation, if that is answered. -/
def serveLarge (s : Nat) (r : LargeRequest) (p : Site) : Site :=
  match Machine.serveLarge s r p.machine with
  | .ok _ m => (p.next m).rebook s (p.blocks s) (p.pages s)
  | .error _ _ => p

theorem Reachable.serveLarge {r : LargeRequest} (hreach : p.Reachable)
    (hallowed : r.Allowed (p.party s).table) : (p.serveLarge s r).Reachable := by
  unfold Site.serveLarge
  cases hrun : Machine.serveLarge s r p.machine with
  | ok a m => exact hreach.step (.work (.large hallowed hrun))
  | error e m => exact hreach

/-- The site after a client stored a byte in a range. -/
def fillBytes (address len : Nat) (byte : UInt8) (p : Site) : Site :=
  p.withKernel (p.kernel.fillBytes address len byte)

theorem step_fillBytes {address len : Nat} (byte : UInt8) (hheld : bytesAt address len ⊆ p.held o) :
    p.Step (p.fillBytes address len byte) := by
  refine .store (o := o) fun y hy => ?_
  rw [Memory.byteAt_fill, if_neg fun hin => hy (hheld (mem_bytesAt.2 hin))]

/-- A small machine with a private supplier. -/
def small : Site := new .standard (.boot 8 none) [{}]

theorem reachable_small : small.Reachable :=
  .start .standard [{}] (Kernel.valid_boot (by decide) fun _ hnone => nomatch hnone)

end Site
end PagedHeap
