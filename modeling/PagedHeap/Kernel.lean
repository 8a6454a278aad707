import PagedHeap.ExtentSet
import PagedHeap.Memory
import PagedHeap.Kernel.Call

/-!
# A deterministic kernel

The kernel owns an arena of pages, a program break and the memory behind both.  Its
choices are fixed by `Knobs` and by two failure schedules, so a run is determined by
what the process asks for.

Pages that are not used are `free`; a page that is in use may belong to the process or
to someone else, the kernel does not tell them apart.  What pages hold is lost when they
are unmapped, and taking pages clears them, so nothing that was written to them in
between shows either.

Nothing here knows about the allocator: the functions are the calls of an operating
system, each a plain function from a kernel to an answer and a kernel.
-/

namespace PagedHeap

/-- Where pages go if nothing else decides. -/
inductive Placement where
  | lowest
  | highest
  deriving DecidableEq, Repr

/-- How the kernel behaves where an operating system has a choice. -/
structure Knobs where
  placement : Placement := .highest
  /-- A free hinted place is taken. -/
  followsHints : Bool := true
  /-- A mapping for one place only never lands elsewhere. -/
  knowsExact : Bool := true
  /-- Mappings can grow in place. -/
  growsInPlace : Bool := true
  /-- The most bytes that one write takes. -/
  writeChunk : Nat := 1048576
  deriving DecidableEq, Repr

/-- Which of the coming calls fail: the first `skip` pass, then `count` fail. -/
structure FailureSchedule where
  skip : Nat := 0
  count : Nat := 0
  deriving DecidableEq, Repr

namespace FailureSchedule

/-- Whether the next call fails by schedule, and what is left of the schedule. -/
def next (s : FailureSchedule) : Bool × FailureSchedule :=
  if 0 < s.skip then (false, { s with skip := s.skip - 1 })
  else if 0 < s.count then (true, { s with count := s.count - 1 })
  else (false, s)

end FailureSchedule

/-- The end of the data segment and the bounds within which it can be moved. -/
structure ProgramBreak where
  start : Nat
  stop : Nat
  current : Nat
  deriving DecidableEq, Repr

/-- The first address of the arena. -/
def arenaBase : Nat := 0x200000000000

/-- The address from which the place of the program break is counted. -/
def breakBase : Nat := 0x100000000000

/-- The number of pages that `len` bytes take. -/
def pagesFor (len : Nat) : Nat := (len + (pageSize - 1)) / pageSize

/-- The state of the kernel. -/
structure Kernel where
  /-- The number of pages in the arena. -/
  arenaPages : Nat
  /-- The page numbers of the arena that nobody uses. -/
  free : ExtentSet
  /-- There may be no program break at all. -/
  programBreak? : Option ProgramBreak
  knobs : Knobs
  mapFailures : FailureSchedule
  breakFailures : FailureSchedule
  memory : Memory
  /-- The calls made so far, the latest first. -/
  calls : List Call
  /-- What was written to standard error. -/
  errorOutput : List Char

namespace Kernel

/-- The page number of the first page of the arena. -/
def firstPage : Nat := arenaBase / pageSize

/-- A kernel with a free arena of `arenaPages` pages. -/
def boot (arenaPages : Nat) (programBreak? : Option ProgramBreak) : Kernel where
  arenaPages := arenaPages
  free := ExtentSet.empty.insert firstPage (firstPage + arenaPages)
  programBreak? := programBreak?
  knobs := {}
  mapFailures := {}
  breakFailures := {}
  memory := Memory.blank
  calls := []
  errorOutput := []

/-- Put a call on record. -/
def record (call : Call) (k : Kernel) : Kernel :=
  { k with calls := call :: k.calls }

/-- Use `count` free pages from page number `first` on; they read as zero. -/
def takePages (first count : Nat) (k : Kernel) : Kernel :=
  { k with
    free := k.free.erase first (first + count)
    memory := k.memory.clear (first * pageSize) (count * pageSize) }

/-- The part of `count` pages from page number `first` on that lies in the arena. -/
def inArena (first count : Nat) (k : Kernel) : Extent where
  first := max first firstPage
  stop := min (first + count) (firstPage + k.arenaPages)

/-- Let the pages of an extent be used by nobody. -/
def freePages (e : Extent) (k : Kernel) : Kernel :=
  { k with free := k.free.insert e.first e.stop }

/-- Lose what the pages of an extent hold. -/
def losePages (e : Extent) (k : Kernel) : Kernel :=
  { k with
    memory := k.memory.clear (e.first * pageSize) ((e.stop - e.first) * pageSize) }

/-- Whether `count` pages at `address` are free pages of the arena. -/
def hasRoomAt (k : Kernel) (address count : Nat) : Bool :=
  isPageMultiple address && k.free.covers (address / pageSize) (address / pageSize + count)

/-- The page number where `count` pages go if no place was asked for. -/
def anyPlace? (k : Kernel) (count : Nat) : Option Nat :=
  match k.knobs.placement with
  | .lowest => k.free.lowestFit? count
  | .highest => k.free.highestFit? count

/-- The page number of a mapping that prefers `hint`, where zero is no preference. -/
def hintedPlace? (k : Kernel) (hint count : Nat) : Option Nat :=
  if hint ≠ 0 ∧ k.knobs.followsHints ∧ k.hasRoomAt hint count then some (hint / pageSize)
  else k.anyPlace? count

/-- The page number of a mapping for `address` only.  A kernel that does not know such
mappings takes the address as a hint. -/
def exactPlace? (k : Kernel) (address count : Nat) : Option Nat :=
  if k.knobs.knowsExact then
    if k.hasRoomAt address count then some (address / pageSize) else none
  else k.hintedPlace? address count

/-- Count a mapping call against the schedule, and take the pages at `place?`, if there is
one and the call does not fail. -/
def mapAt (place? : Option Nat) (count : Nat) (k : Kernel) : Option Nat × Kernel :=
  let (fails, schedule) := k.mapFailures.next
  let k := { k with mapFailures := schedule }
  if fails ∨ count = 0 then (none, k)
  else
    match place? with
    | none => (none, k)
    | some first => (some (first * pageSize), k.takePages first count)

/-- Map `len` bytes of fresh memory, preferring `hint` if it is not zero. -/
def mapAny (hint len : Nat) (k : Kernel) : Option Nat × Kernel :=
  let (answer, k) := k.mapAt (k.hintedPlace? hint (pagesFor len)) (pagesFor len)
  (answer, k.record (.mapAny hint len answer))

/-- Map `len` bytes of fresh memory at `address`. -/
def mapExact (address len : Nat) (k : Kernel) : Option Nat × Kernel :=
  let (answer, k) := k.mapAt (k.exactPlace? address (pagesFor len)) (pagesFor len)
  (answer, k.record (.mapExact address len answer))

/-- Give up the pages of a range; outside the arena this has no effect. -/
def unmap (address len : Nat) (k : Kernel) : Kernel :=
  let pages := k.inArena (address / pageSize) (pagesFor len)
  ((k.freePages pages).losePages pages).record (.unmap address len)

/-- Grow the mapping at `address` from `old` to `new` bytes where it is, if the pages behind
it are free. -/
def remap (address old new : Nat) (k : Kernel) : Bool × Kernel :=
  let first := (address + old) / pageSize
  let count := pagesFor (new - old)
  if k.knobs.growsInPlace ∧ k.hasRoomAt (address + old) count then
    (true, (k.takePages first count).record (.remap address old new true))
  else (false, k.record (.remap address old new false))

/-- Follow advice about a range.  Only dropping the content has an effect. -/
def advise (address len : Nat) (advice : Advice) (k : Kernel) : Kernel :=
  let memory :=
    match advice with
    | .dontneed => k.memory.clear address len
    | .huge => k.memory
    | .nohuge => k.memory
  ({ k with memory := memory } : Kernel).record (.advise address len advice)

/-- Where the program break is; zero if there is none. -/
def programBreak (k : Kernel) : Nat :=
  match k.programBreak? with
  | some b => b.current
  | none => 0

/-- Clear the pages that a move of the break from `old` to `new` adds or takes away. -/
def clearMoved (old new : Nat) (m : Memory) : Memory :=
  let lo := pagesFor (min old new)
  let hi := pagesFor (max old new)
  m.clear (lo * pageSize) ((hi - lo) * pageSize)

/-- Where a move by `delta` takes the break, if it stays within its bounds. -/
def movedBreak? (k : Kernel) (delta : Int) : Option (ProgramBreak × Nat) := do
  let b ← k.programBreak?
  let target := (b.current : Int) + delta
  if (b.start : Int) ≤ target ∧ target ≤ (b.stop : Int) then some (b, target.toNat) else none

/-- Move the program break by `delta` bytes; the answer is where it was.  A move by nothing
is not a move: it is neither recorded nor counted. -/
def moveBreak (delta : Int) (k : Kernel) : Option Nat × Kernel :=
  if delta = 0 then (some k.programBreak, k)
  else
    -- Every move counts against the schedule, also one that fails anyway.
    let (fails, schedule) := k.breakFailures.next
    let k := { k with breakFailures := schedule }
    match (if fails then none else k.movedBreak? delta) with
    | none => (none, k.record (.moveBreak delta none))
    | some (b, target) =>
        let k : Kernel :=
          { k with
            programBreak? := some { b with current := target }
            memory := clearMoved b.current target k.memory }
        (some b.current, k.record (.moveBreak delta (some b.current)))

/-- Write to standard error.  The answer is how much was taken, at most a chunk; a kernel
whose chunk is zero refuses. -/
def writeError (text : List Char) (k : Kernel) : Option Nat × Kernel :=
  if k.knobs.writeChunk = 0 then (none, k)
  else
    let taken := min k.knobs.writeChunk text.length
    (some taken, { k with errorOutput := k.errorOutput ++ text.take taken })

end Kernel
end PagedHeap
