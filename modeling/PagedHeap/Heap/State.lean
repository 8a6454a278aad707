import Std.Data.TreeMap
import PagedHeap.Block.Heap
import PagedHeap.Build
import PagedHeap.Large.Heap
import PagedHeap.Lock

/-!
# The process-wide heap

One heap serves all threads of a process.  It has a page supplier, the table of large
sizes, a cache of blocks for every thread and one more, behind a lock, that serves
whenever a thread cannot use its own.

`Heap` puts these beside the kernel.  The foci below say where the lower layers work.
-/

namespace PagedHeap

/-- The life of a thread, as its cache sees it; a thread goes through it in this order. -/
inductive ThreadStatus where
  | initial
  | settingUp
  | ready
  | tearingDown
  | dead
  deriving DecidableEq, Repr

/-- What the heap knows of a thread. -/
structure ThreadState where
  status : ThreadStatus
  /-- The cache is borrowed. -/
  busy : Bool
  cache : BlockCache

namespace ThreadState

/-- A thread that has not allocated yet. -/
def fresh : ThreadState := ⟨.initial, false, BlockCache.empty⟩

end ThreadState

/-- The error numbers that the heap sets. -/
inductive ErrorNumber where
  | noMemory
  | invalidArgument
  deriving DecidableEq, Repr

namespace ErrorNumber

/-- The number itself. -/
def code : ErrorNumber → Nat
  | noMemory => 12
  | invalidArgument => 22

end ErrorNumber

/-- What the heap reports while it goes on. -/
inductive LogRecord where
  | failed (error : AllocError)
  | trimmed (released : Nat)
  deriving DecidableEq, Repr

namespace LogRecord

/-- The text of a record. -/
def text : LogRecord → String
  | failed error => "runalloc: " ++ error.message
  | trimmed released => "runalloc: trim released " ++ toString released ++ " bytes"

end LogRecord

/-- The state of the process-wide heap. -/
structure Heap where
  build : Build
  kernel : Kernel
  supplier : PageSupplier
  table : SizeTable
  /-- The cache for threads that cannot use their own. -/
  fallback : BlockCache
  /-- The lock of the fallback cache is held. -/
  fallbackHeld : Bool
  /-- How far the first thread of the process is with setting up. -/
  bootstrap : ThreadStatus
  /-- The threads that have allocated; all others are fresh. -/
  threads : Std.TreeMap Nat ThreadState
  /-- The records logged so far, the latest first. -/
  log : List LogRecord
  /-- The error number set last, if any was. -/
  errorNumber? : Option ErrorNumber

namespace Heap

/-- The heap of a process that has not allocated yet. -/
def new (build : Build) (kernel : Kernel) : Heap where
  build := build
  kernel := kernel
  supplier := PageSupplier.new build.pageConfig
  table := SizeTable.empty
  fallback := BlockCache.empty
  fallbackHeld := false
  bootstrap := .initial
  threads := ∅
  log := []
  errorNumber? := none

/-- What the heap knows of thread `t`. -/
def thread (h : Heap) (t : Nat) : ThreadState :=
  (h.threads[t]?).getD ThreadState.fresh

/-- Replace what the heap knows of thread `t`. -/
def setThread (t : Nat) (s : ThreadState) (h : Heap) : Heap :=
  { h with threads := h.threads.insert t s }

theorem thread_setThread (h : Heap) (t u : Nat) (s : ThreadState) :
    (h.setThread t s).thread u = if u = t then s else h.thread u := by
  unfold thread setThread
  rw [Std.TreeMap.getElem?_insert]
  by_cases hu : u = t
  · subst hu
    simp
  · have : compare t u ≠ .eq := by simpa using fun h' : t = u => hu h'.symm
    simp [hu, this]

/-- The kernel. -/
def kernelPart : Focus Heap Kernel where
  read h := h.kernel
  write k h := { h with kernel := k }

/-- The page supplier. -/
def pagingPart : Focus Heap Paging where
  read h := ⟨h.kernel, h.supplier⟩
  write p h := { h with kernel := p.kernel, supplier := p.supplier }

/-- The large allocations. -/
def largePart : Focus Heap LargeHeap where
  read h := ⟨⟨h.kernel, h.supplier⟩, h.table⟩
  write l h :=
    { h with kernel := l.paging.kernel, supplier := l.paging.supplier, table := l.table }

/-- The blocks, on the fallback cache. -/
def fallbackPart : Focus Heap BlockHeap where
  read h := ⟨⟨h.kernel, h.supplier⟩, h.fallback⟩
  write b h :=
    { h with kernel := b.paging.kernel, supplier := b.paging.supplier, fallback := b.cache }

/-- The blocks, on the cache of thread `t`. -/
def threadPart (t : Nat) : Focus Heap BlockHeap where
  read h := ⟨⟨h.kernel, h.supplier⟩, (h.thread t).cache⟩
  write b h :=
    setThread t { h.thread t with cache := b.cache }
      { h with kernel := b.paging.kernel, supplier := b.paging.supplier }

/-- End the process because the heap is broken. -/
def corrupted {α : Type} (fault : Corruption) : Action Heap α :=
  Action.within kernelPart (Kernel.corrupted fault)

/-- Log a record. -/
def logRecord (r : LogRecord) : Action Heap Unit :=
  modify fun h => { h with log := r :: h.log }

/-- Set the error number. -/
def setErrorNumber (e : ErrorNumber) : Action Heap Unit :=
  modify fun h => { h with errorNumber? := some e }

/-- The counters of the process-wide supplier. -/
def counters (h : Heap) : List Nat := h.supplier.counters

end Heap
end PagedHeap
