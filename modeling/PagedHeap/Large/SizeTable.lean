import PagedHeap.Geometry

/-!
# The table of sizes

The size of every large allocation is kept apart from it, in a hash table keyed by the
page-aligned start.  A key goes to the first empty slot from its home on, around the end
of the table if need be.  A removal moves later entries back over the hole, so that no
entry is ever behind an empty slot on its way from home.

The table is never more than half full, so a search meets an empty slot; the number of
slots bounds every search.  Growing is a matter of memory and is done by the allocator,
which hands over storage for `rehash`.
-/

namespace PagedHeap

/-- The start of an allocation and its size. -/
structure SizeEntry where
  page : Nat
  size : Nat
  deriving DecidableEq, Repr

/-- A table of sizes.  `storage` is the address of its slots, zero before there are any. -/
structure SizeTable where
  slots : Array (Option SizeEntry)
  /-- The number of entries. -/
  len : Nat
  storage : Nat
  deriving DecidableEq, Repr

namespace SizeTable

/-- The number of bytes that a slot takes. -/
def slotWidth : Nat := 16

/-- The capacity of the first table: one page of slots. -/
def minCapacity : Nat := pageSize / slotWidth

/-- The multiplier of the hash: 2 ^ 64 divided by the golden ratio. -/
def hashMultiplier : Nat := 0x9E3779B97F4A7C15

/-- A table without slots. -/
def empty : SizeTable := ⟨#[], 0, 0⟩

/-- The number of slots. -/
def capacity (t : SizeTable) : Nat := t.slots.size

/-- The slot where the search for a page starts, in a table of `capacity` slots, a power of
two: the high bits of the hash. -/
def home (capacity page : Nat) : Nat :=
  (page / pageSize * hashMultiplier % 2 ^ 64) >>> (64 - capacity.log2)

/-- The entry in a slot. -/
def entryAt (slots : Array (Option SizeEntry)) (i : Nat) : Option SizeEntry :=
  slots[i]?.join

/-- Search for a page from slot `i` on, through at most `rounds` slots. -/
def probe (slots : Array (Option SizeEntry)) (page : Nat) : Nat → Nat → Option Nat
  | 0, _ => none
  | rounds + 1, i =>
      match entryAt slots i with
      | none => none
      | some entry =>
          if entry.page = page then some i
          else probe slots page rounds ((i + 1) % slots.size)

/-- The slot that holds a page. -/
def find? (t : SizeTable) (page : Nat) : Option Nat :=
  if t.len = 0 then none else probe t.slots page t.capacity (home t.capacity page)

/-- The size recorded for a page. -/
def get? (t : SizeTable) (page : Nat) : Option Nat :=
  (t.find? page).bind fun i => (entryAt t.slots i).map SizeEntry.size

/-- Change the size recorded for a page; the answer is whether there was one. -/
def set (t : SizeTable) (page size : Nat) : Bool × SizeTable :=
  match t.find? page with
  | none => (false, t)
  | some i => (true, { t with slots := t.slots.setIfInBounds i (some ⟨page, size⟩) })

/-- The first empty slot from `i` on, among at most `rounds` slots. -/
def emptyFrom (slots : Array (Option SizeEntry)) : Nat → Nat → Nat
  | 0, i => i
  | rounds + 1, i =>
      match entryAt slots i with
      | none => i
      | some _ => emptyFrom slots rounds ((i + 1) % slots.size)

/-- Put an entry into the first empty slot from its home on. -/
def place (slots : Array (Option SizeEntry)) (entry : SizeEntry) : Array (Option SizeEntry) :=
  slots.setIfInBounds (emptyFrom slots slots.size (home slots.size entry.page)) (some entry)

/-- Whether one more entry would leave the table more than half full. -/
def needsRoom (t : SizeTable) : Bool :=
  decide (t.capacity < (t.len + 1) * 2)

/-- The capacity of the next larger table. -/
def nextCapacity (t : SizeTable) : Nat :=
  if t.capacity = 0 then minCapacity else t.capacity * 2

/-- The same entries in a table of `capacity` slots at `storage`, put there in the order of
their slots. -/
def rehash (t : SizeTable) (capacity storage : Nat) : SizeTable where
  slots := (t.slots.toList.filterMap id).foldl place (Array.replicate capacity none)
  len := t.len
  storage := storage

/-- Add an entry for a page that has none; the table needs room for it. -/
def add (t : SizeTable) (page size : Nat) : SizeTable :=
  { t with slots := place t.slots ⟨page, size⟩, len := t.len + 1 }

/-- How far slot `j` is behind slot `i`, going around the end of the table. -/
def distance (capacity i j : Nat) : Nat := (j + capacity - i) % capacity

/-- Move entries back over the hole, from slot `j` on through at most `rounds` slots.  An
entry may fill the hole if the hole is on its way from home. -/
def closeHole (rounds hole j : Nat) (slots : Array (Option SizeEntry)) :
    Array (Option SizeEntry) :=
  match rounds with
  | 0 => slots.setIfInBounds hole none
  | rounds + 1 =>
      match entryAt slots j with
      | none => slots.setIfInBounds hole none
      | some entry =>
          let n := slots.size
          -- The hole is on the way from home if home is at least as far behind as the hole.
          if distance n hole j ≤ distance n (home n entry.page) j then
            closeHole rounds j ((j + 1) % n) (slots.setIfInBounds hole (some entry))
          else closeHole rounds hole ((j + 1) % n) slots

/-- Remove the entry of a page; the answer is the size that was recorded, if there was one. -/
def remove (t : SizeTable) (page : Nat) : Option Nat × SizeTable :=
  match t.find? page with
  | none => (none, t)
  | some hole =>
      ((entryAt t.slots hole).map SizeEntry.size,
        { t with
          slots := closeHole t.capacity hole ((hole + 1) % t.capacity) t.slots
          len := t.len - 1 })

@[simp] theorem get?_empty (page : Nat) : empty.get? page = none := rfl

end SizeTable
end PagedHeap
