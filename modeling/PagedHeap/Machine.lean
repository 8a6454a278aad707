import PagedHeap.Interface.Request

/-!
# A machine

A machine has one kernel and one memory.  On it stands the heap that all threads of the
process share.  Beside the heap there can be private suppliers, each with large
allocations of its own, and private caches of blocks that work on any of them.

The requests to the private parts are data here, as those to the heap are elsewhere.
The requests of the client to memory itself, and what others do to the kernel, are plain
functions on the kernel.
-/

namespace PagedHeap

/-- A supplier apart from the heap, with the sizes of its large allocations. -/
structure PrivateHeap where
  supplier : PageSupplier
  table : SizeTable

namespace PrivateHeap

/-- A private heap that has done nothing yet. -/
def new (config : PageConfig) : PrivateHeap := ⟨PageSupplier.new config, SizeTable.empty⟩

end PrivateHeap

/-- What a client asks of a page supplier. -/
inductive PageRequest where
  | allocate (size : Nat)
  | reclaim (address size : Nat) (opts : ReclaimOptions)
  | extend (address old new : Nat)
  | trim (pad : Nat)
  | look
  deriving DecidableEq, Repr

/-- What a client asks of a cache of blocks.  Categories are numbers here; one that does not
exist fails a check. -/
inductive BlockRequest where
  | allocate (category : Nat)
  | free (block : Nat)
  | flush (category : Nat)
  | flushAll
  | count (category : Nat)
  | size (block : Nat)
  | category (block : Nat)
  deriving DecidableEq, Repr

/-- What a client asks of the large allocations on a supplier. -/
inductive LargeRequest where
  | allocate (size align : Nat)
  | resize (address size align : Nat)
  | free (address : Nat) (claimed : Option Nat)
  | size (address : Nat)
  | trim (pad : Nat)
  deriving DecidableEq, Repr

namespace Paging

/-- Serve a request. -/
def serve : PageRequest → Action Paging Answer
  | .allocate size => .pointer <$> allocate size
  | .reclaim address size opts => (fun _ => .done) <$> reclaim address size opts
  | .extend address old new => .flag <$> extendInPlace address old new
  | .trim pad => .size <$> trim pad
  | .look => return .done

end Paging

namespace BlockHeap

/-- The category of a number; where there is none a check fails. -/
def demandCategory (check : Violation) (number : Nat) : Action BlockHeap Category :=
  match Category.ofNat? number with
  | some c => return c
  | none => Action.halt (.violated check)

/-- Serve a request. -/
def serve : BlockRequest → Action BlockHeap Answer
  | .allocate number => do return .pointer (← allocate (← demandCategory .assertion number))
  | .free block => (fun _ => .done) <$> free block
  | .flush number => do
      flush (← demandCategory .index number)
      return .done
  | .flushAll => (fun _ => .done) <$> flushAll
  | .count number => do return .size (← list (← demandCategory .index number)).count
  | .size block => .size <$> Action.within kernelPart (Kernel.blockSize block)
  | .category block =>
      (fun c => .size c.val) <$> Action.within kernelPart (Kernel.blockCategory block)

end BlockHeap

namespace LargeHeap

/-- Serve a request. -/
def serve : LargeRequest → Action LargeHeap Answer
  | .allocate size align => .pointer <$> allocate size align
  | .resize address size align => .pointer <$> resize address size align
  | .free address claimed => (fun _ => .done) <$> free address claimed
  | .size address => .size <$> sizeOf address
  | .trim pad => .size <$> trim pad

end LargeHeap

namespace Kernel

/-- Someone else uses `count` pages of the arena, from page `index` of it on. -/
def occupy (index count : Nat) (k : Kernel) : Kernel :=
  { k with free := k.free.erase (firstPage + index) (firstPage + index + count) }

/-- Someone else gives up `count` pages of the arena, from page `index` of it on. -/
def vacate (index count : Nat) (k : Kernel) : Kernel :=
  k.freePages (k.inArena (firstPage + index) count)

/-- The client stores a byte in a range. -/
def fillBytes (address len : Nat) (byte : UInt8) (k : Kernel) : Kernel :=
  { k with memory := k.memory.fill address len byte }

/-- The client reads a range. -/
def readBytes (address len : Nat) (k : Kernel) : ByteRuns :=
  (k.memory.read address len).compact

/-- The client overwrites the category in the header of the run of an address. -/
def pokeCategory (address category : Nat) (k : Kernel) : Kernel :=
  { k with memory := k.memory.setRunCategory (pageOf address) category }

/-- The client overwrites the live count in the header of the run of an address. -/
def pokeLive (address live : Nat) (k : Kernel) : Kernel :=
  { k with memory := k.memory.setRunLive (pageOf address) live }

/-- Start a new record of calls. -/
def forgetCalls (k : Kernel) : Kernel := { k with calls := [] }

end Kernel

/-- A machine: the heap of all threads, and private suppliers and caches by number. -/
structure Machine where
  heap : Heap
  privateHeaps : Std.TreeMap Nat PrivateHeap
  privateCaches : Std.TreeMap Nat BlockCache

namespace Machine

/-- A machine on which nothing was allocated, with private suppliers numbered from zero. -/
def new (build : Build) (kernel : Kernel) (suppliers : List PageConfig) : Machine where
  heap := Heap.new build kernel
  privateHeaps :=
    suppliers.zipIdx.foldl (fun m (config, i) => m.insert i (PrivateHeap.new config)) ∅
  privateCaches := ∅

/-- A private supplier; those not named at the start have the plain configuration. -/
def privateHeap (p : Machine) (s : Nat) : PrivateHeap :=
  (p.privateHeaps[s]?).getD (PrivateHeap.new {})

/-- A private cache; it is empty at first use. -/
def privateCache (p : Machine) (c : Nat) : BlockCache :=
  (p.privateCaches[c]?).getD BlockCache.empty

/-- The heap. -/
def heapPart : Focus Machine Heap where
  read p := p.heap
  write h p := { p with heap := h }

/-- The kernel. -/
def kernelPart : Focus Machine Kernel := heapPart.comp Heap.kernelPart

/-- The pages of a private supplier. -/
def pagingPart (s : Nat) : Focus Machine Paging where
  read p := ⟨p.heap.kernel, (p.privateHeap s).supplier⟩
  write g p :=
    { p with
      heap := { p.heap with kernel := g.kernel }
      privateHeaps :=
        p.privateHeaps.insert s { p.privateHeap s with supplier := g.supplier } }

/-- The large allocations on a private supplier. -/
def largePart (s : Nat) : Focus Machine LargeHeap where
  read p := ⟨⟨p.heap.kernel, (p.privateHeap s).supplier⟩, (p.privateHeap s).table⟩
  write l p :=
    { p with
      heap := { p.heap with kernel := l.paging.kernel }
      privateHeaps := p.privateHeaps.insert s ⟨l.paging.supplier, l.table⟩ }

/-- A private cache at work on a private supplier. -/
def blockPart (s c : Nat) : Focus Machine BlockHeap where
  read p := ⟨⟨p.heap.kernel, (p.privateHeap s).supplier⟩, p.privateCache c⟩
  write b p :=
    { p with
      heap := { p.heap with kernel := b.paging.kernel }
      privateHeaps :=
        p.privateHeaps.insert s { p.privateHeap s with supplier := b.paging.supplier }
      privateCaches := p.privateCaches.insert c b.cache }

/-- Serve a request to the heap, on behalf of thread `t`. -/
def serveHeap (t : Nat) (r : HeapRequest) : Action Machine Answer :=
  Action.within heapPart (Heap.serve t r)

/-- Serve a request to the pages of a private supplier. -/
def servePages (s : Nat) (r : PageRequest) : Action Machine Answer :=
  Action.within (pagingPart s) (Paging.serve r)

/-- Serve a request to a private cache on a private supplier. -/
def serveBlocks (s c : Nat) (r : BlockRequest) : Action Machine Answer :=
  Action.within (blockPart s c) (BlockHeap.serve r)

/-- Serve a request to the large allocations on a private supplier. -/
def serveLarge (s : Nat) (r : LargeRequest) : Action Machine Answer :=
  Action.within (largePart s) (LargeHeap.serve r)

/-- The counters of a private supplier. -/
def privateCounters (p : Machine) (s : Nat) : List Nat := (p.privateHeap s).supplier.counters

end Machine
end PagedHeap
