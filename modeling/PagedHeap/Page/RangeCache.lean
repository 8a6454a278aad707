import PagedHeap.Action
import PagedHeap.Word

/-!
# The cache of freed ranges

A page supplier remembers up to eight freed ranges.  A range handed back joins the
cached range that ends where it starts and the one that starts where it ends, unless
the caller forbids it or the two are of different kinds; a range that finds neither a
neighbour nor an empty slot is bounced.

A request is served from the smallest range that holds it, cut off its front.  When the
cache holds too many bytes the largest range goes first.  Where lengths are equal, the
first slot serves a request and the last one is evicted.

The number of cached bytes is counted beside the slots, with checked arithmetic.
-/

namespace PagedHeap

/-- Bytes that a page supplier holds or is handed. -/
structure Range where
  address : Nat
  len : Nat
  /-- Known to be all zero. -/
  clean : Bool
  /-- Lies below the program break: it can be discarded, but not unmapped. -/
  ofBreak : Bool
  deriving DecidableEq, Repr

namespace Range

/-- The address behind the last byte. -/
def stop? (r : Range) : Option Nat := Word.add? r.address r.len

/-- The first `len` bytes. -/
def front (r : Range) (len : Nat) : Range := { r with len := len }

end Range

/-- What the caller says about a range that it hands back. -/
structure ReclaimOptions where
  /-- Keep apart from a cached range that ends where this one starts. -/
  noMergeLeft : Bool := false
  /-- Keep apart from a cached range that starts where this one ends. -/
  noMergeRight : Bool := false
  /-- Make the range ineligible for huge pages. -/
  noHuge : Bool := false
  /-- The range is all zero. -/
  clean : Bool := false
  deriving DecidableEq, Repr

namespace ReclaimOptions

/-- Whether every option of `b` is one of `a`. -/
def contains (a b : ReclaimOptions) : Bool :=
  (a.noMergeLeft || !b.noMergeLeft) && (a.noMergeRight || !b.noMergeRight) &&
    (a.noHuge || !b.noHuge) && (a.clean || !b.clean)

theorem contains_refl (a : ReclaimOptions) : a.contains a = true := by
  obtain ⟨l, r, h, c⟩ := a
  revert l r h c
  decide

end ReclaimOptions

/-- The number of ranges that a supplier remembers. -/
def cacheSlots : Nat := 8

/-- The number of bytes that a supplier keeps in its cache. -/
def cacheLimit : Nat := 1048576

/-- The cached ranges by slot, and how many bytes they have together. -/
structure RangeCache where
  slots : List (Option Range)
  cachedBytes : Nat
  deriving DecidableEq, Repr

namespace RangeCache

/-- A cache with no ranges. -/
def empty : RangeCache := ⟨List.replicate cacheSlots none, 0⟩

/-- The cached ranges in the order of their slots. -/
def ranges (c : RangeCache) : List Range := c.slots.filterMap id

/-- The slot and the range that win among the eligible ones.  A later range takes the place
of an earlier one exactly where `replaces` says so. -/
def choose (eligible : Range → Bool) (replaces : Range → Range → Bool) :
    List (Option Range) → Option (Nat × Range)
  | [] => none
  | none :: rest => (choose eligible replaces rest).map fun (i, r) => (i + 1, r)
  | some r :: rest =>
      match (choose eligible replaces rest).map fun (i, r) => (i + 1, r) with
      | none => if eligible r then some (0, r) else none
      | some (i, later) =>
          if eligible r && !replaces later r then some (0, r) else some (i, later)

/-- The first of the smallest ranges that hold `size` bytes. -/
def bestFit? (c : RangeCache) (size : Nat) : Option (Nat × Range) :=
  choose (fun r => size ≤ r.len) (fun later r => later.len < r.len) c.slots

/-- The last of the largest ranges. -/
def largest? (c : RangeCache) : Option (Nat × Range) :=
  choose (fun _ => true) (fun later r => r.len ≤ later.len) c.slots

/-- The first range that starts at `address` and has at least `len` bytes. -/
def startingAt? (c : RangeCache) (address len : Nat) : Option (Nat × Range) :=
  choose (fun r => r.address == address && decide (len ≤ r.len)) (fun _ _ => false) c.slots

/-- Cut the first `len` bytes off the range in slot `i`. -/
def cutFront (i : Nat) (r : Range) (len : Nat) : Action RangeCache Range := do
  let c ← get
  let cachedBytes ← Action.checked (Word.sub? c.cachedBytes len)
  let address ← Action.checked (Word.add? r.address len)
  -- A range that is used up leaves its slot.
  let rest := if r.len = len then none else some { r with address := address, len := r.len - len }
  set { c with slots := c.slots.set i rest, cachedBytes := cachedBytes : RangeCache }
  return r.front len

/-- Take `size` bytes out of the range that fits best. -/
def take (size : Nat) : Action RangeCache (Option Range) := do
  match (← get).bestFit? size with
  | none => return none
  | some (i, r) => some <$> cutFront i r size

/-- Take `len` bytes out of the cache that start at `address`. -/
def takeAt (address len : Nat) : Action RangeCache (Option Range) := do
  match (← get).startingAt? address len with
  | none => return none
  | some (i, r) => some <$> cutFront i r len

/-- The range in a slot. -/
def slot? (c : RangeCache) (i : Nat) : Option Range := c.slots[i]?.join

/-- The first slot whose range ends at `address` and is of the given kind. -/
def endingAt (address : Nat) (ofBreak : Bool) :
    List (Option Range) → Action RangeCache (Option Nat)
  | [] => return none
  | none :: rest => return (← endingAt address ofBreak rest).map (· + 1)
  | some r :: rest => do
      let stop ← Action.checked r.stop?
      if stop = address ∧ r.ofBreak = ofBreak then return some 0
      else return (← endingAt address ofBreak rest).map (· + 1)

/-- The first slot whose range starts where `range` ends and is of the same kind. -/
def startingBehind (range : Range) (slots : List (Option Range)) :
    Action RangeCache (Option Nat) := do
  let stop ← Action.checked range.stop?
  return slots.findIdx? fun slot =>
    slot.any fun r => r.address == stop && r.ofBreak == range.ofBreak

/-- The slot of the left neighbour of a range that is handed back. -/
def leftNeighbour (range : Range) (opts : ReclaimOptions) :
    Action RangeCache (Option Nat) := do
  if opts.noMergeLeft then return none
  else endingAt range.address range.ofBreak (← get).slots

/-- The slot of the right neighbour of a range that is handed back.  Nothing is looked for
in an empty cache, so there the end of the range need not be a word. -/
def rightNeighbour (range : Range) (opts : ReclaimOptions) :
    Action RangeCache (Option Nat) := do
  let c ← get
  if opts.noMergeRight || c.ranges.isEmpty then return none
  else startingBehind range c.slots

/-- One range made of `range` and the one behind it. -/
def join (range behind : Range) : Action RangeCache Range := do
  let len ← Action.checked (Word.add? range.len behind.len)
  return { range with len := len, clean := range.clean && behind.clean }

/-- Join a range with the one behind it, which leaves its slot. -/
def joinRight (range : Range) : Option Nat → Action RangeCache Range
  | none => return range
  | some j => do
      let c ← get
      match c.slot? j with
      | none => return range
      | some behind =>
          set { c with slots := c.slots.set j none : RangeCache }
          join range behind

/-- Put a range into a slot and count `added` bytes. -/
def fillSlot (i : Nat) (range : Range) (added : Nat) : Action RangeCache Unit := do
  let c ← get
  let cachedBytes ← Action.checked (Word.add? c.cachedBytes added)
  set { slots := c.slots.set i (some range), cachedBytes := cachedBytes : RangeCache }

/-- Put a range into the first empty slot.  Without one it is answered back. -/
def store (range : Range) (added : Nat) : Action RangeCache (Option Range) := do
  match (← get).slots.findIdx? Option.isNone with
  | none => return some range
  | some i =>
      fillSlot i range added
      return none

/-- Put a range behind its left neighbour, or into an empty slot if it has none. -/
def joinLeft (range : Range) (added : Nat) : Option Nat → Action RangeCache (Option Range)
  | none => store range added
  | some i => do
      match (← get).slot? i with
      | none => store range added
      | some left =>
          let joined ← join left range
          fillSlot i joined added
          return none

/-- Put a range into the cache, joined with its neighbours.  A range for which there is no
slot is answered back.  A right neighbour always frees its slot, so a range that comes
back met none and the cache is as it was. -/
def insert (range : Range) (opts : ReclaimOptions) : Action RangeCache (Option Range) := do
  -- Both neighbours are looked for before either is joined.
  let left ← leftNeighbour range opts
  let right ← rightNeighbour range opts
  let joined ← joinRight range right
  -- The bytes of the right neighbour are counted already.
  joinLeft joined range.len left

/-- Take the largest range out of the cache. -/
def evictLargest : Action RangeCache (Option Range) := do
  let c ← get
  match c.largest? with
  | none => return none
  | some (i, r) =>
      let cachedBytes ← Action.checked (Word.sub? c.cachedBytes r.len)
      set { slots := c.slots.set i none, cachedBytes := cachedBytes : RangeCache }
      return some r

/-- Add a range to those taken out; there is room for one more than the cache has slots. -/
def pushEvicted (evicted : List Range) (r : Range) : Action RangeCache (List Range) := do
  Action.require .index (decide (evicted.length < cacheSlots + 1))
  return evicted ++ [r]

/-- Take out largest ranges until at most `limit` bytes are cached.  Every round empties a
slot, so `rounds` is the number of slots. -/
def evictRounds (limit : Nat) : Nat → List Range → Action RangeCache (List Range)
  | 0, evicted => return evicted
  | rounds + 1, evicted => do
      if (← get).cachedBytes ≤ limit then return evicted
      else
        match ← evictLargest with
        | none => return evicted
        | some r => evictRounds limit rounds (← pushEvicted evicted r)

/-- Take out largest ranges until at most `limit` bytes are cached, behind those in
`evicted`. -/
def evictDownTo (limit : Nat) (evicted : List Range) : Action RangeCache (List Range) :=
  evictRounds limit cacheSlots evicted

/-- The list of evicted ranges that starts with a range that found no slot. -/
def bounced : Option Range → Action RangeCache (List Range)
  | none => return []
  | some r => pushEvicted [] r

/-- Take in a range that is handed back.  The answer is the ranges that go back to the
kernel for it: the range itself if it is too large to be cached or finds no slot, and
whatever has to leave for it. -/
def takeIn (range : Range) (opts : ReclaimOptions) : Action RangeCache (List Range) := do
  if cacheLimit < range.len then pushEvicted [] range
  else evictDownTo cacheLimit (← bounced (← insert range opts))

end RangeCache
end PagedHeap
