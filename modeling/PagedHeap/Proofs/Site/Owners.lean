import PagedHeap.Proofs.Heap.Counting
import PagedHeap.Proofs.Private.Serving
import PagedHeap.Proofs.Process.Steps

/-!
# All who have memory on a machine

On a machine the process-wide heap and any number of private suppliers stand side by side, and
there are others that no supplier knows of.  A site is a machine with the books of all their
clients.

An owner has bytes in three places: lent out to clients, cached, and as the storage of the table.
Each owner sees the rest of memory as foreign, so what holds of one owner and what is foreign to
it is put together here to what holds of all of them.
-/

namespace PagedHeap

/-- Who has memory on a machine: the process-wide heap, or a private supplier. -/
inductive Owner where
  | heap
  | supplier (s : Nat)
  deriving DecidableEq

/-- A machine with its books.  The clients of the heap have the pointers `live`, and the caches
`loans` are lent; those of a private supplier have `blocks`, and the bytes of `pages`.  A private
cache works on the supplier of its `desk`, since its blocks are to go home there.  Bytes that
`others` use are in nobody's books, and `record` is what calls were made for the machine, the
latest first. -/
structure Site where
  machine : Machine
  live : Set Nat
  loans : List (Nat × Loan)
  blocks : Nat → Set Nat
  pages : Nat → Set Nat
  desk : Nat → Nat
  others : Set Nat
  record : List Call

namespace Site

open SizeTable

/-- The process-wide heap. -/
def heap (p : Site) : Heap := p.machine.heap

/-- The kernel. -/
def kernel (p : Site) : Kernel := p.machine.heap.kernel

/-- A private supplier, with the caches at its desk. -/
def party (p : Site) (s : Nat) : Party where
  paging := ⟨p.kernel, (p.machine.privateHeap s).supplier⟩
  table := (p.machine.privateHeap s).table
  caches i := if p.desk i = s then p.machine.privateCache i else .empty

/-- The supplier of an owner at work. -/
def paging (p : Site) : Owner → Paging
  | .heap => p.heap.paging
  | .supplier s => (p.party s).paging

/-- The table of an owner. -/
def table (p : Site) : Owner → SizeTable
  | .heap => p.heap.table
  | .supplier s => (p.party s).table

/-- The bytes that the clients of an owner have. -/
def held (p : Site) : Owner → Set Nat
  | .heap => p.heap.bodies p.live
  | .supplier s => (p.party s).held (p.blocks s) (p.pages s)

/-- The blocks of an owner that have not come home. -/
def used (p : Site) : Owner → Set Nat
  | .heap => p.heap.used p.live
  | .supplier s => (p.party s).used (p.blocks s)

/-- The pages that the supplier of an owner has handed out for other than large allocations, and not
got back. -/
def pagesOut (p : Site) : Owner → Set Nat
  | .heap => runBytes (p.heap.used p.live)
  | .supplier s => (p.party s).pagesOut (p.blocks s) (p.pages s)

/-- The bytes of the ranges that the supplier of an owner has handed out and not got back. -/
def lentOut (p : Site) (o : Owner) : Set Nat := extent (p.table o).get? ∪ p.pagesOut o

/-- The bytes of the ranges that an owner has in its cache. -/
def cached (p : Site) (o : Owner) : Set Nat := Ranges.bytes (p.paging o).cached

/-- The bytes that the table of an owner is stored in. -/
def storage (p : Site) (o : Owner) : Set Nat := (p.table o).storageBytes

/-- All bytes of an owner. -/
def own (p : Site) (o : Owner) : Set Nat := p.storage o ∪ (p.lentOut o ∪ p.cached o)

/-- What is in use, and not by an owner. -/
def foreign (p : Site) (o : Owner) : Set Nat := p.kernel.inUse \ p.own o

/-- An owner is sound, with some bytes in foreign hands. -/
def SoundFor (p : Site) (foreign : Set Nat) : Owner → Prop
  | .heap => ∃ spans, p.heap.Sound spans p.live foreign
  | .supplier s => ∃ spans, (p.party s).Sound spans (p.blocks s) (p.pages s) foreign

/-- The parts of an owner are apart, and the supplier finds everything where it is to be.  It counts
what it has lent out. -/
structure Parts (p : Site) (o : Owner) (foreign : Set Nat) : Prop where
  paging : (p.paging o).Sound (p.storage o ∪ (p.lentOut o ∪ foreign)) (p.lentOut o).ncard
  storage : Disjoint (p.storage o) (p.lentOut o ∪ foreign)
  lentOut : Disjoint (p.lentOut o) foreign
  held : p.held o ⊆ p.lentOut o

variable {p p' : Site} {o : Owner} {foreign foreign' : Set Nat} {s x : Nat}

/-- The large allocations of an owner. -/
def largeHeap (p : Site) (o : Owner) : LargeHeap := ⟨p.paging o, p.table o⟩

theorem own_eq (p : Site) (o : Owner) : p.own o = (p.largeHeap o).own (p.pagesOut o) := by
  rw [own, lentOut, Set.union_assoc]
  rfl

theorem SoundFor.large (h : p.SoundFor foreign o) :
    (p.largeHeap o).Sound (p.pagesOut o ∪ foreign) (p.pagesOut o).ncard ∧
      Disjoint (p.pagesOut o) foreign := by
  cases o with
  | heap =>
      obtain ⟨spans, hsound⟩ := h
      rw [pagesOut, hsound.used_eq, (ncard_runBytes hsound.finite_runs).2]
      exact ⟨hsound.large, hsound.apart⟩
  | supplier s =>
      obtain ⟨spans, hsound⟩ := h
      rw [pagesOut, hsound.pagesOut_eq, hsound.ncard_pagesOut, Set.union_assoc]
      exact ⟨hsound.large, Set.disjoint_union_left.2
        ⟨hsound.apart.mono_right Set.subset_union_right, hsound.pages_apart⟩⟩

theorem SoundFor.held_subset (h : p.SoundFor foreign o) : p.held o ⊆ p.lentOut o := by
  cases o with
  | heap =>
      obtain ⟨spans, hsound⟩ := h
      intro y hy
      rw [lentOut, pagesOut, hsound.used_eq]
      obtain ⟨x, hx, hbody⟩ := hy
      rcases hsound.body_cases hx hbody with ⟨hpage, -⟩ | ⟨-, hin⟩
      · exact .inr hpage
      · exact .inl hin
  | supplier s =>
      obtain ⟨spans, hsound⟩ := h
      exact hsound.held_subset

/-- No byte is lent out for a large allocation and otherwise. -/
theorem SoundFor.ncard_lentOut (h : p.SoundFor foreign o) :
    (p.lentOut o).ncard = (p.table o).total + (p.pagesOut o).ncard :=
  h.large.1.ncard_lent

theorem SoundFor.parts (h : p.SoundFor foreign o) : p.Parts o foreign := by
  obtain ⟨hlarge, hapart⟩ := h.large
  have hextent := Set.disjoint_union_right.1 hlarge.apart
  have hall : p.lentOut o ∪ foreign = extent (p.table o).get? ∪ (p.pagesOut o ∪ foreign) := by
    rw [lentOut, Set.union_assoc]
  refine ⟨?_, ?_, Set.disjoint_union_left.2 ⟨hextent.2, hapart⟩, h.held_subset⟩
  · rw [hall, h.ncard_lentOut]
    exact hlarge.paging
  · rw [hall]
    exact hlarge.storage_apart

theorem paging_kernel (p : Site) (o : Owner) : (p.paging o).kernel = p.kernel := by
  cases o with
  | heap => rfl
  | supplier s => rfl

theorem Parts.apart (h : p.Parts o foreign) : Disjoint (p.own o) foreign := by
  have hout := Set.disjoint_union_left.1 h.paging.apart
  have hout' := Set.disjoint_union_left.1 hout.2
  exact Set.disjoint_union_left.2 ⟨(Set.disjoint_union_right.1 h.storage).2,
    Set.disjoint_union_left.2 ⟨h.lentOut, hout'.2.symm⟩⟩

theorem Parts.cached (h : p.Parts o foreign) :
    Disjoint (p.storage o) (p.cached o) ∧ Disjoint (p.lentOut o) (p.cached o) := by
  have hout := Set.disjoint_union_left.1 h.paging.apart
  exact ⟨hout.1, (Set.disjoint_union_left.1 hout.2).1⟩

theorem Parts.used (h : p.Parts o foreign) :
    p.own o ⊆ p.kernel.inUse ∧ foreign ⊆ p.kernel.inUse := by
  have hused := h.paging.used
  rw [paging_kernel] at hused
  constructor
  · intro x hx
    rcases hx with hx | hx | hx
    · exact hused (.inl (.inl hx))
    · exact hused (.inl (.inr (.inl hx)))
    · exact hused (.inr hx)
  · exact fun x hx => hused (.inl (.inr (.inr hx)))

/-- In the arena there is nothing else. -/
theorem Parts.exact (h : p.Parts o foreign) (hx : x ∈ p.kernel.inUse) (hbase : arenaBase ≤ x) :
    x ∈ p.own o ∪ foreign := by
  rw [← paging_kernel p o] at hx
  rcases h.paging.exact x hx hbase with (hstorage | hlent | hforeign) | hcached
  · exact .inl (.inl hstorage)
  · exact .inl (.inr (.inl hlent))
  · exact .inr hforeign
  · exact .inl (.inr (.inr hcached))

theorem Parts.valid (h : p.Parts o foreign) : p.kernel.Valid := by
  rw [← paging_kernel p o]
  exact h.paging.kernel

/-! ## Owners that have what they had -/

/-- An owner is sound before and after, and has the same clients and the same lists of free
blocks. -/
def Stays (p p' : Site) (foreign foreign' : Set Nat) : Owner → Prop
  | .heap => p'.live = p.live ∧ (∀ place, p'.heap.cacheAt place = p.heap.cacheAt place) ∧
      ∃ spans, p.heap.Sound spans p.live foreign ∧ p'.heap.Sound spans p'.live foreign'
  | .supplier s => p'.blocks s = p.blocks s ∧ p'.pages s = p.pages s ∧
      (p'.party s).caches = (p.party s).caches ∧
      ∃ spans, (p.party s).Sound spans (p.blocks s) (p.pages s) foreign ∧
        (p'.party s).Sound spans (p'.blocks s) (p'.pages s) foreign'

theorem Stays.sound (h : p.Stays p' foreign foreign' o) : p'.SoundFor foreign' o := by
  cases o with
  | heap =>
      obtain ⟨-, -, spans, -, hsound⟩ := h
      exact ⟨spans, hsound⟩
  | supplier s =>
      obtain ⟨-, -, -, spans, -, hsound⟩ := h
      exact ⟨spans, hsound⟩

theorem Stays.used_eq (h : p.Stays p' foreign foreign' o) : p'.used o = p.used o := by
  cases o with
  | heap =>
      obtain ⟨hlive, -, spans, hsound, hsound'⟩ := h
      rw [used, used, hsound.used_eq, hsound'.used_eq, hlive]
  | supplier s =>
      obtain ⟨hblocks, -, -, spans, hsound, hsound'⟩ := h
      rw [used, used, hsound.used_eq, hsound'.used_eq, hblocks]

theorem Stays.pagesOut_eq (h : p.Stays p' foreign foreign' o) : p'.pagesOut o = p.pagesOut o := by
  have hused := h.used_eq
  cases o with
  | heap => exact congrArg runBytes hused
  | supplier s => exact congrArg₂ (fun used pages => runBytes used ∪ pages) hused h.2.1

/-- An owner has what it had, and the kernel is as it is now. -/
def Unmoved (p : Site) (p' : Site) : Owner → Prop
  | .heap => p'.heap = { p.heap with kernel := p'.kernel } ∧ p'.live = p.live
  | .supplier s =>
      p'.party s = { p.party s with paging := { (p.party s).paging with kernel := p'.kernel } } ∧
        p'.blocks s = p.blocks s ∧ p'.pages s = p.pages s

theorem Unmoved.supplier_eq (h : p.Unmoved p' o) : (p'.paging o).supplier = (p.paging o).supplier := by
  cases o with
  | heap =>
      rw [paging, h.1]
      rfl
  | supplier s =>
      rw [paging, h.1]
      rfl

theorem Unmoved.table_eq (h : p.Unmoved p' o) : p'.table o = p.table o := by
  cases o with
  | heap =>
      rw [table, h.1]
      rfl
  | supplier s =>
      rw [table, h.1]
      rfl

/-- An owner that does nothing has the lists that it had, if the memory that it needs is left
alone. -/
theorem SoundFor.stays (h : p.SoundFor foreign o) (hunmoved : p.Unmoved p' o)
    (hvalid : p'.kernel.Valid) (huse : p.own o ⊆ p'.kernel.inUse)
    (hsame : ∀ y ∈ p.own o, p'.kernel.memory.byteAt y = p.kernel.memory.byteAt y) :
    p.Stays p' foreign (p'.kernel.inUse \ p.own o) o := by
  rw [own_eq] at huse hsame ⊢
  cases o with
  | heap =>
      obtain ⟨spans, hsound⟩ := h
      obtain ⟨hheap, hlive⟩ := hunmoved
      refine ⟨hlive, fun place => ?_, spans, hsound, ?_⟩
      · rw [hheap]
        cases place with
        | fallback => rfl
        | thread t => rfl
      · rw [hlive, hheap]
        exact hsound.environment hvalid huse hsame
  | supplier s =>
      obtain ⟨spans, hsound⟩ := h
      obtain ⟨hparty, hblocks, hpages⟩ := hunmoved
      refine ⟨hblocks, hpages, ?_, spans, hsound, ?_⟩
      · rw [hparty]
      · rw [hblocks, hpages, hparty]
        exact hsound.environment hvalid huse hsame

/-- An owner that does nothing is sound, if the memory that it needs is left alone. -/
theorem SoundFor.unmoved (h : p.SoundFor foreign o) (hunmoved : p.Unmoved p' o)
    (hvalid : p'.kernel.Valid) (huse : p.own o ⊆ p'.kernel.inUse)
    (hsame : ∀ y ∈ p.own o, p'.kernel.memory.byteAt y = p.kernel.memory.byteAt y) :
    p'.SoundFor (p'.foreign o) o ∧ p'.own o = p.own o := by
  have hstays := h.stays hunmoved hvalid huse hsame
  have hcached : p'.cached o = p.cached o := by
    rw [cached, cached, Paging.cached, Paging.cached, hunmoved.supplier_eq]
  have hown : p'.own o = p.own o := by
    rw [own, own, storage, storage, lentOut, lentOut, hunmoved.table_eq, hstays.pagesOut_eq,
      hcached]
  refine ⟨?_, hown⟩
  rw [Site.foreign, hown]
  exact hstays.sound

end Site
end PagedHeap
