import PagedHeap.Large.SizeTable
import PagedHeap.Page.Supplier

/-!
# Large allocations

A large allocation is a range of whole pages, straight from the page supplier.  Its
size is kept in a table, so nothing is stored in the range itself and its start is page
aligned.  The table's own storage is mapped apart from the supplier, whose counters do
not show it.

An alignment above a page is met by taking more than is needed and handing back both
ends.
-/

namespace PagedHeap

/-- An allocator of large ranges: the supplier it takes them from and the table of their
sizes. -/
structure LargeHeap where
  paging : Paging
  table : SizeTable

namespace LargeHeap

/-- The supplier below. -/
def pagingPart : Focus LargeHeap Paging where
  read h := h.paging
  write p h := { h with paging := p }

/-- The kernel below. -/
def kernelPart : Focus LargeHeap Kernel := pagingPart.comp Paging.kernelPart

theorem pagingPart_lawful : pagingPart.Lawful := ⟨fun _ _ => rfl, fun _ => rfl, fun _ _ _ => rfl⟩

theorem kernelPart_lawful : kernelPart.Lawful :=
  pagingPart_lawful.comp Paging.kernelPart_lawful

/-- Work on the supplier. -/
def onPages {α : Type} (action : Action Paging α) : Action LargeHeap α :=
  Action.within pagingPart action

/-- Change the table. -/
def updateTable (f : SizeTable → SizeTable) : Action LargeHeap Unit :=
  modify fun h => { h with table := f h.table }

/-- End the process because the heap is broken. -/
def corrupted {α : Type} (fault : Corruption) : Action LargeHeap α :=
  Action.within kernelPart (Kernel.corrupted fault)

/-- Double the table in fresh storage, and unmap the storage before. -/
def growTable : Action LargeHeap Bool := do
  let t := (← get).table
  let bytes ← Action.checked (Word.mul? t.nextCapacity SizeTable.slotWidth)
  match ← onPages (Paging.map 0 bytes) with
  | none => return false
  | some storage =>
      updateTable fun t => t.rehash t.nextCapacity storage
      Action.onlyIf (t.storage != 0)
        (onPages (Paging.unmap t.storage (t.capacity * SizeTable.slotWidth)))
      return true

/-- Make room in the table for one more entry. -/
def ensureRoom : Action LargeHeap Bool := do
  if (← get).table.needsRoom then growTable else return true

/-- Record the size of a new allocation; this fails when the table has to grow and cannot. -/
def recordSize (address len : Nat) : Action LargeHeap Bool := do
  let room ← ensureRoom
  Action.onlyIf room (updateTable (·.add address len))
  return room

/-- Hand back what was taken around the `len` bytes at `start`.  The ends are zero, and they
stay apart from the range between them, which is about to be used. -/
def returnEnds (raw total start len : Nat) : Action LargeHeap Unit := do
  let head := start - raw
  let tail ← Action.checked (Word.sub? (total - head) len)
  Action.onlyIf (decide (0 < head))
    (onPages (Paging.reclaim raw head { clean := true, noMergeRight := true }))
  Action.onlyIf (decide (0 < tail))
    (onPages (Paging.reclaim (start + len) tail { clean := true, noMergeLeft := true }))

/-- Get `total` bytes, which is enough for `len` at a multiple of `align`, and keep those. -/
def takeAround (len align : Nat) : Option Nat → Action LargeHeap (Option Nat)
  | none => return none
  | some total => do
      match ← onPages (Paging.allocate total) with
      | none => return none
      | some raw =>
          let start ← Action.checked (Word.alignUp? raw align)
          returnEnds raw total start len
          return some start

/-- Get a range of `len` bytes at a multiple of `align`, an alignment above a page. -/
def takeOverAligned (len align : Nat) : Action LargeHeap (Option Nat) :=
  takeAround len align (Word.add? len (align - pageSize))

/-- Get a range of `len` bytes, whole pages, at a multiple of `align`. -/
def takeRange (len align : Nat) : Action LargeHeap (Option Nat) := do
  if align ≤ pageSize then onPages (Paging.allocate len) else takeOverAligned len align

/-- Allocate `size` bytes, rounded up to pages, at a multiple of `align`, a power of two.
The memory is zeroed. -/
def allocate (size align : Nat) : Action LargeHeap (Option Nat) := do
  Action.require .assertion (decide (0 < size) && Word.isPowerOfTwo align)
  match pageCeil? size with
  | none => return none
  | some len =>
      match ← takeRange len align with
      | none => return none
      | some address =>
          if ← recordSize address len then return some address
          else
            -- Nobody could free a range without a record, so it is not handed out.
            onPages (Paging.reclaim address len { clean := true })
            return none

/-- The rounded size of an allocation. -/
def sizeOf (address : Nat) : Action LargeHeap Nat := do
  match (← get).table.get? address with
  | some size => return size
  | none => corrupted (.unknownLargePointer address)

/-- A claimed size above the allocated one means that the heap is broken. -/
def checkClaim (address actual : Nat) : Option Nat → Action LargeHeap Unit
  | none => return ()
  | some given =>
      Action.onlyIf (decide (actual < given)) (corrupted (.sizeMismatch address given actual))

/-- Free an allocation, which may be claimed to have a size. -/
def free (address : Nat) (claimed : Option Nat) : Action LargeHeap Unit := do
  let actual ← sizeOf address
  checkClaim address actual claimed
  updateTable fun t => (t.remove address).2
  onPages (Paging.reclaim address actual {})

/-- Copy memory. -/
def copy (source target len : Nat) : Action LargeHeap Unit :=
  Action.within kernelPart
    (modify fun k => { k with memory := k.memory.copy source target len })

/-- Resize an allocation.  It stays where it is when it shrinks and when it can grow in
place; otherwise its content moves to a new range at a multiple of `align`.  There is no
answer, and the allocation is as it was, when memory runs out. -/
def resize (address size align : Nat) : Action LargeHeap (Option Nat) := do
  match pageCeil? size with
  | none => return none
  | some len =>
      let old ← sizeOf address
      if len = old then return some address
      else if len < old then
        -- The end stays apart from the range in front of it, which is in use.
        updateTable fun t => (t.set address len).2
        onPages (Paging.reclaim (address + len) (old - len) { noMergeLeft := true })
        return some address
      else if ← onPages (Paging.extendInPlace address old len) then
        updateTable fun t => (t.set address len).2
        return some address
      else
        match ← allocate len align with
        | none => return none
        | some moved =>
            copy address moved old
            free address none
            return some moved

/-- Give cached pages back to the kernel, keeping at most `pad` bytes. -/
def trim (pad : Nat) : Action LargeHeap Nat :=
  onPages (Paging.trim pad)

end LargeHeap
end PagedHeap
