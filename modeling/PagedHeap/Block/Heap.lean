import PagedHeap.Block.Format
import PagedHeap.Block.LiveCount
import PagedHeap.Page.Supplier

/-!
# Blocks

Small allocations are blocks of seven sizes, cut from pages that hold blocks of one
size each.  Free blocks wait in a cache with one list per category.  An empty list is
filled from a fresh page: its first block is handed out and the rest become one node.

A block freed goes on top of its list.  A list that is full is flushed before that:
every span is given back to its run, and a run whose last block comes home gives its
page back to the supplier.
-/

namespace PagedHeap

/-- The free blocks of one category: the first node, and how many blocks there are. -/
structure FreeList where
  head? : Option Nat := none
  count : Nat := 0
  deriving DecidableEq, Repr

/-- Free blocks by category. -/
structure BlockCache where
  lists : Vector FreeList 7

namespace BlockCache

/-- No free blocks. -/
def empty : BlockCache := ⟨Vector.replicate 7 {}⟩

/-- The list of a category. -/
def list (b : BlockCache) (c : Category) : FreeList := b.lists[c]

/-- The number of free blocks of a category. -/
def count (b : BlockCache) (c : Category) : Nat := (b.list c).count

/-- Replace the list of a category. -/
def setList (b : BlockCache) (c : Category) (l : FreeList) : BlockCache :=
  ⟨b.lists.set c l⟩

@[simp]
theorem list_empty (c : Category) : empty.list c = {} := Vector.getElem_replicate _

theorem list_setList (b : BlockCache) (c d : Category) (l : FreeList) :
    (b.setList c l).list d = if c = d then l else b.list d := by
  simp only [list, setList, Fin.getElem_fin, Vector.getElem_set, Fin.ext_iff]

end BlockCache

namespace Kernel

/-- The category of a block, checked against the header of its run. -/
def blockCategory (block : Nat) : Action Kernel Category := do
  let run := pageOf block
  let number := (← get).memory.runCategory run
  match Category.ofNat? number with
  | none => corrupted (.badCategory run number)
  | some c =>
      if pageOffset block = 0 ∨ pageOffset block % c.blockSize ≠ 0 then
        corrupted (.misalignedBlock block c.blockSize)
      else return c

/-- The size of a block. -/
def blockSize (block : Nat) : Action Kernel Nat :=
  return (← blockCategory block).blockSize

end Kernel

/-- A cache of blocks at work on a page supplier. -/
structure BlockHeap where
  paging : Paging
  cache : BlockCache

namespace BlockHeap

/-- The supplier below. -/
def pagingPart : Focus BlockHeap Paging where
  read h := h.paging
  write p h := { h with paging := p }

/-- The kernel below. -/
def kernelPart : Focus BlockHeap Kernel := pagingPart.comp Paging.kernelPart

theorem pagingPart_lawful : pagingPart.Lawful := ⟨fun _ _ => rfl, fun _ => rfl, fun _ _ _ => rfl⟩

theorem kernelPart_lawful : kernelPart.Lawful :=
  pagingPart_lawful.comp Paging.kernelPart_lawful

/-- Memory as it is. -/
def memory : Action BlockHeap Memory :=
  return (← get).paging.kernel.memory

/-- Store to memory. -/
def updateMemory (f : Memory → Memory) : Action BlockHeap Unit :=
  Action.within kernelPart (modify fun k => { k with memory := f k.memory })

/-- The list of a category. -/
def list (c : Category) : Action BlockHeap FreeList :=
  return (← get).cache.list c

/-- Replace the list of a category. -/
def setList (c : Category) (l : FreeList) : Action BlockHeap Unit :=
  modify fun h => { h with cache := h.cache.setList c l }

/-- End the process because the heap is broken. -/
def corrupted {α : Type} (fault : Corruption) : Action BlockHeap α :=
  Action.within kernelPart (Kernel.corrupted fault)

/-- What the list goes on with when its first block is taken: the rest of the span, which
becomes a node of its own, or the next node. -/
def behindFirst (c : Category) (block : Nat) (node : Node) : Action BlockHeap (Option Nat) := do
  if 1 < node.count then
    let rest := block + c.blockSize
    updateMemory (·.storeNode rest { node with count := node.count - 1 })
    return some rest
  else return node.next?

/-- Take one block off the front of a list. -/
def pop (c : Category) : Action BlockHeap (Option Nat) := do
  let l ← list c
  match l.head? with
  | none => return none
  | some block =>
      let head? ← behindFirst c block ((← memory).loadNode block)
      let count ← Action.checked (Word.sub? l.count 1)
      setList c { head? := head?, count := count }
      return some block

/-- Put `count` blocks in a row, the first at `first`, on top of a list. -/
def push (c : Category) (first count : Nat) : Action BlockHeap Unit := do
  let l ← list c
  updateMemory (·.storeNode first { next? := l.head?, count := count })
  Action.require .arithmetic (decide (l.count + count < LiveCount.modulus))
  setList c { head? := some first, count := l.count + count }

/-- Give `count` blocks back to the run that `block` lies in.  The page of a run whose last
block comes home goes back to the supplier. -/
def releaseBlocks (block count : Nat) : Action BlockHeap Unit := do
  let run := pageOf block
  match LiveCount.release ((← memory).runLive run) count with
  | none => corrupted (.counterUnderflow run)
  | some left =>
      updateMemory (·.setRunLive run left)
      if left = 0 then Action.within pagingPart (Paging.reclaim run pageSize {})

/-- Give back the blocks of every node from `node?` on.  A chain without a ring has fewer
nodes than there are addresses; `rounds` is the bound, and a longer walk never ends. -/
def releaseChain : Nat → Option Nat → Action BlockHeap Unit
  | _, none => return ()
  | 0, some _ => Action.halt .stalled
  | rounds + 1, some block => do
      let node := (← memory).loadNode block
      releaseBlocks block node.count
      releaseChain rounds node.next?

/-- Give every free block of a category back to its run. -/
def flush (c : Category) : Action BlockHeap Unit := do
  -- The list is detached first; what is released does not come back to it.
  let l ← list c
  setList c {}
  releaseChain Word.limit l.head?

/-- Flush several categories. -/
def flushEach : List Category → Action BlockHeap Unit
  | [] => return ()
  | c :: rest => do
      flush c
      flushEach rest

/-- Flush every category. -/
def flushAll : Action BlockHeap Unit := flushEach Category.all

/-- Make a page a run.  Its first block is answered, and the rest become one node. -/
def openRun (c : Category) (page : Nat) : Action BlockHeap Nat := do
  updateMemory fun m => (m.setRunCategory page c.val).setRunLive page c.blocksPerPage
  -- The header takes the first slot of the page.
  let first := page + c.blockSize
  push c (first + c.blockSize) (c.blocksPerPage - 1)
  return first

/-- Allocate a block; there is none when the supplier has no page. -/
def allocate (c : Category) : Action BlockHeap (Option Nat) := do
  match ← pop c with
  | some block => return some block
  | none =>
      match ← Action.within pagingPart (Paging.allocate pageSize) with
      | none => return none
      | some page => some <$> openRun c page

/-- Free a block. -/
def free (block : Nat) : Action BlockHeap Unit := do
  let c ← Action.within kernelPart (Kernel.blockCategory block)
  let count := (← list c).count
  -- A full list is emptied before the push, so the block freed stays cached.
  Action.onlyIf (decide (cacheCeiling ≤ count)) (flush c)
  push c block 1

end BlockHeap
end PagedHeap
