import PagedHeap.Geometry
import PagedHeap.Kernel.Report
import PagedHeap.Page.RangeCache

/-!
# Page suppliers

A page supplier hands out zeroed ranges of whole pages.  It serves a request from its
cache of freed ranges if it can; otherwise it moves the program break or maps fresh
memory.  What is handed back is cached, and goes back to the kernel when the cache is
full or holds too much.

Requests for a multiple of a huge page are placed on huge-page boundaries, next to the
mapping before, if the supplier is configured for it.

Memory below the program break cannot be unmapped.  It is given back by lowering the
break where a range ends at the top, and otherwise its content is discarded.
-/

namespace PagedHeap

/-- Where a supplier gets its memory from. -/
structure PageConfig where
  /-- Move the program break before mapping. -/
  useBreak : Bool := false
  /-- Align requests for whole huge pages, and ask for huge pages there. -/
  hugePages : Bool := false
  deriving DecidableEq, Repr

/-- Where the mapping before lay, for requests of whole huge pages; `high` is zero as long
as there was none. -/
structure HugeHint where
  low : Nat := 0
  high : Nat := 0
  growingDown : Bool := false
  deriving DecidableEq, Repr

namespace HugeHint

/-- The place next to the mapping before, in the direction of growth; zero is no place. -/
def next (h : HugeHint) (size : Nat) : Nat :=
  if h.high = 0 then 0 else if h.growingDown then h.low - size else h.high

/-- Remember a mapping from `address` up to `stop`. -/
def record (h : HugeHint) (address stop : Nat) : HugeHint where
  low := address
  high := stop
  growingDown := if h.high = 0 then h.growingDown else decide (address < h.low)

end HugeHint

/-- The addresses that a supplier got by moving the break, from the first move on; `floor`
is zero before that. -/
structure BreakRegion where
  floor : Nat := 0
  stop : Nat := 0
  deriving DecidableEq, Repr

namespace BreakRegion

/-- Whether an address was got by moving the break. -/
def contains (b : BreakRegion) (address : Nat) : Bool :=
  b.floor != 0 && b.floor ≤ address && address < b.stop

end BreakRegion

/-- A page supplier.  Its counters wrap around. -/
structure PageSupplier where
  config : PageConfig
  cache : RangeCache
  hint : HugeHint
  region : BreakRegion
  /-- Bytes handed out and not handed back. -/
  liveBytes : UInt64
  /-- How often fresh memory came from the kernel. -/
  kernelMaps : UInt64
  /-- How many ranges went back to the kernel. -/
  kernelUnmaps : UInt64

namespace PageSupplier

/-- A supplier that has done nothing yet. -/
def new (config : PageConfig) : PageSupplier where
  config := config
  cache := RangeCache.empty
  hint := {}
  region := {}
  liveBytes := 0
  kernelMaps := 0
  kernelUnmaps := 0

/-- Whether a request is placed on a huge-page boundary. -/
def wantsHuge (s : PageSupplier) (size : Nat) : Bool :=
  s.config.hugePages && size % hugePageSize == 0

/-- The counters, as they are reported: live and cached bytes, maps and unmaps. -/
def counters (s : PageSupplier) : List Nat :=
  [s.liveBytes.toNat, s.cache.cachedBytes, s.kernelMaps.toNat, s.kernelUnmaps.toNat]

end PageSupplier

/-- A supplier at work: the kernel and its own state. -/
structure Paging where
  kernel : Kernel
  supplier : PageSupplier

namespace Paging

/-- The kernel below a supplier. -/
def kernelPart : Focus Paging Kernel where
  read p := p.kernel
  write k p := { p with kernel := k }

/-- The cache inside a supplier. -/
def cachePart : Focus Paging RangeCache where
  read p := p.supplier.cache
  write c p := { p with supplier := { p.supplier with cache := c } }

theorem kernelPart_lawful : kernelPart.Lawful := ⟨fun _ _ => rfl, fun _ => rfl, fun _ _ _ => rfl⟩

theorem cachePart_lawful : cachePart.Lawful := ⟨fun _ _ => rfl, fun _ => rfl, fun _ _ _ => rfl⟩

/-- Make a kernel call. -/
def call {α : Type} (step : Kernel → α × Kernel) : Action Paging α :=
  Action.within kernelPart (Action.transition step)

/-- Work on the cache. -/
def onCache {α : Type} (action : Action RangeCache α) : Action Paging α :=
  Action.within cachePart action

/-- Change the supplier. -/
def update (f : PageSupplier → PageSupplier) : Action Paging Unit :=
  modify fun p => { p with supplier := f p.supplier }

/-- Store zeros. -/
def zero (address len : Nat) : Action Paging Unit :=
  call fun k => ((), { k with memory := k.memory.clear address len })

/-- Count bytes handed out. -/
def countLive (size : Nat) : Action Paging Unit :=
  update fun s => { s with liveBytes := s.liveBytes + UInt64.ofNat size }

/-- Count bytes handed back. -/
def countReturned (size : Nat) : Action Paging Unit :=
  update fun s => { s with liveBytes := s.liveBytes - UInt64.ofNat size }

/-- Count fresh memory from the kernel. -/
def countMap : Action Paging Unit :=
  update fun s => { s with kernelMaps := s.kernelMaps + 1 }

/-- Count a range that went back to the kernel. -/
def countUnmap : Action Paging Unit :=
  update fun s => { s with kernelUnmaps := s.kernelUnmaps + 1 }

/-- Map memory at any place, or at the hint if it is not zero. -/
def map (hint len : Nat) : Action Paging (Option Nat) :=
  call (Kernel.mapAny hint len)

/-- Unmap memory. -/
def unmap (address len : Nat) : Action Paging Unit :=
  call fun k => ((), k.unmap address len)

/-- Give advice about memory. -/
def advise (address len : Nat) (advice : Advice) : Action Paging Unit :=
  call fun k => ((), k.advise address len advice)

/-- Map memory at one place only.  A mapping that a kernel put elsewhere is undone. -/
def mapExact (address len : Nat) : Action Paging Bool := do
  match ← call (Kernel.mapExact address len) with
  | none => return false
  | some got =>
      if got = address then return true
      else
        unmap got len
        return false

/-- Drop the content of a range and keep its addresses. -/
def discard (address len : Nat) : Action Paging Bool := do
  advise address len .dontneed
  return true

/-- Where the program break is. -/
def programBreak : Action Paging Nat :=
  return (← get).kernel.programBreak

/-- Move the program break. -/
def moveBreak (delta : Int) : Action Paging (Option Nat) :=
  call (Kernel.moveBreak delta)

/-- Take note of memory got by moving the break; the first of it is the floor for good. -/
def recordRaised (start stop : Nat) : Action Paging Unit :=
  update fun s =>
    { s with
      region :=
        { floor := if s.region.floor = 0 then start else s.region.floor
          stop := stop } }

/-- Move the break up over `pad` bytes that are left alone and `size` bytes to hand out. -/
def raiseBreak (pad size total : Nat) : Action Paging (Option Nat) := do
  match ← moveBreak total with
  | none => return none
  | some old =>
      let start ← Action.checked (Word.add? old pad)
      match Word.add? start size with
      | none =>
          -- The range would leave the address space, so the move is undone.
          let _ ← moveBreak (-(total : Int))
          return none
      | some stop =>
          recordRaised start stop
          return some start

/-- Get `size` bytes by moving the program break, which is aligned to a page first. -/
def growBreak (size : Nat) : Action Paging (Option Nat) := do
  let current ← programBreak
  if current = 0 then return none
  else
    let aligned ← Action.checked (Word.alignUp? current pageSize)
    match Word.add? size (aligned - current) with
    | none => return none
    | some total =>
        if Word.signedLimit ≤ total then return none
        else raiseBreak (aligned - current) size total

/-- Give back what was mapped around the `size` bytes at `start`. -/
def trimEnds (raw total start size : Nat) : Action Paging Unit := do
  let head := start - raw
  let tail ← Action.checked (Word.sub? (total - head) size)
  Action.onlyIf (decide (0 < head)) (unmap raw head)
  Action.onlyIf (decide (0 < tail)) (unmap (start + size) tail)

/-- Map `size` bytes at a multiple of `align`, by mapping more and giving back both ends. -/
def mapAligned (size align : Nat) : Action Paging (Option Nat) := do
  match Word.add? size align with
  | none => return none
  | some total =>
      match ← map 0 total with
      | none => return none
      | some raw =>
          let start ← Action.checked (Word.alignUp? raw align)
          trimEnds raw total start size
          return some start

/-- A mapping for huge pages that is where it should be, or another one in its place. -/
def realign (got size : Nat) : Action Paging (Option Nat) := do
  if got % hugePageSize = 0 then return some got
  else
    unmap got size
    mapAligned size hugePageSize

/-- Take note of a mapping for huge pages, and ask for them there. -/
def recordHuge (address size : Nat) : Action Paging Unit := do
  let stop ← Action.checked (Word.add? address size)
  update fun s => { s with hint := s.hint.record address stop }
  Action.onlyIf (decide (address % hugePageSize = 0)) (advise address size .huge)

/-- Map `size` bytes for huge pages, next to the mapping before. -/
def mapHuge (size : Nat) : Action Paging (Option Nat) := do
  match ← map ((← get).supplier.hint.next size) size with
  | none => return none
  | some got =>
      match ← realign got size with
      | none => return none
      | some address =>
          recordHuge address size
          return some address

/-- Map `size` bytes of fresh memory. -/
def mapFresh (size : Nat) : Action Paging (Option Nat) := do
  if (← get).supplier.wantsHuge size then mapHuge size else map 0 size

/-- Move the break for a request, if the supplier is to do so and the request is not for
huge pages. -/
def tryBreak (size : Nat) : Action Paging (Option Nat) := do
  let s := (← get).supplier
  if s.config.useBreak && !s.wantsHuge size then growBreak size else return none

/-- Get `size` bytes from the kernel. -/
def obtain (size : Nat) : Action Paging (Option Nat) := do
  match ← tryBreak size with
  | some address => return some address
  | none => mapFresh size

/-- Hand out a range that was cut from the cache. -/
def handOut (range : Range) : Action Paging Unit := do
  Action.onlyIf (!range.clean) (zero range.address range.len)
  countLive range.len

/-- Get `size` bytes of zeroed memory, for a positive multiple of the page size.  There is
no answer when the kernel refuses. -/
def allocate (size : Nat) : Action Paging (Option Nat) := do
  Action.require .assertion (decide (0 < size) && isPageMultiple size)
  match ← onCache (RangeCache.take size) with
  | some range =>
      handOut range
      return some range.address
  | none =>
      match ← obtain size with
      | none => return none
      | some address =>
          countMap
          countLive size
          return some address

/-- Move the break down to the start of a range that ends at it. -/
def dropBreak (r : Range) : Action Paging Bool := do
  match ← moveBreak (-(r.len : Int)) with
  | none => return false
  | some _ =>
      update fun s => { s with region := { s.region with stop := r.address } }
      return true

/-- Lower the program break over a range that ends at the top of it; answers whether that
was possible. -/
def lowerBreakOver (r : Range) : Action Paging Bool := do
  if r.ofBreak then
    let stop ← Action.checked r.stop?
    let top := (← get).supplier.region.stop
    -- The recorded top and the break differ after someone else moved the break.
    if stop = top ∧ (← programBreak) = top then dropBreak r else return false
  else return false

/-- Lower the program break over evicted ranges that sit at its top, in the order given.
The answer is the ranges that remain. -/
def shrinkBreak : List Range → Action Paging (List Range)
  | [] => return []
  | r :: rest => do
      if ← lowerBreakOver r then shrinkBreak rest
      else return r :: (← shrinkBreak rest)

/-- Give the memory of a range back to the kernel. -/
def surrender (r : Range) : Action Paging Unit := do
  if r.ofBreak then advise r.address r.len .dontneed else unmap r.address r.len

/-- Give a range back to the kernel. -/
def release (r : Range) : Action Paging Unit := do
  surrender r
  countUnmap

/-- Give ranges back to the kernel. -/
def releaseAll : List Range → Action Paging Unit
  | [] => return ()
  | r :: rest => do
      release r
      releaseAll rest

/-- Hand back `size` bytes at `address`, whole pages both. -/
def reclaim (address size : Nat) (opts : ReclaimOptions) : Action Paging Unit := do
  Action.require .assertion
    (decide (0 < size) && isPageMultiple size && isPageMultiple address)
  countReturned size
  Action.onlyIf opts.noHuge (advise address size .nohuge)
  -- Asked before the break is lowered: that moves the end of the region.
  let ofBreak := (← get).supplier.region.contains address
  let evicted ← onCache (RangeCache.takeIn ⟨address, size, opts.clean, ofBreak⟩ opts)
  releaseAll (← shrinkBreak evicted)

/-- Grow break memory up to `tail` by `delta` bytes; this is possible only if it ends at the
break. -/
def extendBreak (tail delta : Nat) : Action Paging Bool := do
  match Word.add? tail delta with
  | none => return false
  | some stop =>
      let top := (← get).supplier.region.stop
      if delta < Word.signedLimit ∧ tail = top ∧ (← programBreak) = tail then
        match ← moveBreak delta with
        | none => return false
        | some _ =>
            update fun s => { s with region := { s.region with stop := stop } }
            countLive delta
            return true
      else return false

/-- Grow a mapping where it is, by growing it or by mapping the pages behind it. -/
def growMapping (address old new tail delta : Nat) : Action Paging Bool := do
  if ← call (Kernel.remap address old new) then return true else mapExact tail delta

/-- Grow mapped memory, and count what was added. -/
def extendMapping (address old new tail delta : Nat) : Action Paging Bool := do
  let grown ← growMapping address old new tail delta
  Action.onlyIf grown do
    countMap
    countLive delta
  return grown

/-- Grow the range at `address` from `old` to `new` bytes where it is; the bytes added are
zero.  Break memory grows by moving the break only. -/
def extendInPlace (address old new : Nat) : Action Paging Bool := do
  if new ≤ old then return true
  else
    let delta := new - old
    let tail ← Action.checked (Word.add? address old)
    -- The pages behind may wait in the cache; the kernel takes them for used.
    match ← onCache (RangeCache.takeAt tail delta) with
    | some range =>
        handOut range
        return true
    | none =>
        if (← get).supplier.region.contains address then extendBreak tail delta
        else extendMapping address old new tail delta

/-- Give cached ranges back to the kernel until at most `pad` bytes stay cached.  The answer
counts the bytes of the ranges released one by one; those that went by lowering the break
are not among them. -/
def trim (pad : Nat) : Action Paging Nat := do
  let evicted ← onCache (RangeCache.evictDownTo pad [])
  -- Largest first, so the range at the top of the break need not be among the first.
  let remaining ← shrinkBreak evicted
  releaseAll remaining
  return remaining.foldr (fun r bytes => r.len + bytes) 0

end Paging
end PagedHeap
