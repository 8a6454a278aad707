import PagedHeap.Heap.State

/-!
# Which cache serves a thread

Where threads share the allocator, every thread has a cache of its own, made at its
first use of one and flushed when the thread exits.  A cache is lent to one operation at
a time.  While it is lent, while the thread is being set up, and after its exit hook has
run, the fallback cache serves, behind a lock.  In a build for one thread the fallback
serves always.

`borrow` and `giveBack` are the two halves of every use of a cache; `withCache` puts an
operation on blocks between them.
-/

namespace PagedHeap

/-- Which cache was lent. -/
inductive Loan where
  | ownCache
  | fallback
  deriving DecidableEq, Repr

namespace Heap

/-- The status of a thread. -/
def setStatus (t : Nat) (status : ThreadStatus) : Action Heap Unit :=
  modify fun h => h.setThread t { h.thread t with status := status }

/-- Mark the cache of a thread as borrowed or not. -/
def setBusy (t : Nat) (busy : Bool) : Action Heap Unit :=
  modify fun h => h.setThread t { h.thread t with busy := busy }

/-- How far the first thread of the process is. -/
def setBootstrap (status : ThreadStatus) : Action Heap Unit :=
  modify fun h => { h with bootstrap := status }

/-- Begin to set up a cache for a fresh thread.  While the first thread of the process is at
this, the others are not ready. -/
def beginSetUp (t : Nat) : Action Heap Bool := do
  let others := (← get).bootstrap
  if others = .ready ∨ others = .initial then
    Action.onlyIf (decide (others = .initial)) (setBootstrap .settingUp)
    setStatus t .settingUp
    return true
  else return false

/-- End the set-up of a thread, whose exit hook is registered unless it is too late for one. -/
def finishSetUp (t : Nat) (registered : Bool) : Action Heap Bool := do
  setBootstrap .ready
  setStatus t (if registered then .ready else .dead)
  return registered

/-- Set up a cache for a fresh thread.  Here the exit hook is registered without a request; what
one asks for that is registered with requests comes from the fallback, between the halves. -/
def setUp (t : Nat) : Action Heap Bool := do
  if ← beginSetUp t then finishSetUp t true
  else return false

/-- Whether thread `t` has a cache of its own to use; a fresh thread gets one. -/
def obtainCache (t : Nat) : Action Heap Bool := do
  match ((← get).thread t).status with
  | .ready => return true
  | .initial => setUp t
  | .settingUp | .tearingDown | .dead => return false

/-- Take the lock of the fallback cache. -/
def lockFallback : Action Heap Unit := do
  let h ← get
  if h.fallbackHeld then
    match LockWord.reentered h.build.threading with
    | .corrupted fault => corrupted fault
    | e => Action.halt e
  else set { h with fallbackHeld := true }

/-- Free the lock of the fallback cache. -/
def unlockFallback : Action Heap Unit :=
  modify fun h => { h with fallbackHeld := false }

/-- Whether thread `t` is to be served from a cache of its own. -/
def usesOwnCache (t : Nat) : Action Heap Bool := do
  let h ← get
  match h.build.threading with
  | .exclusive => return false
  | .shared => if (h.thread t).busy then return false else obtainCache t

/-- Borrow a cache for thread `t`. -/
def borrow (t : Nat) : Action Heap Loan := do
  if ← usesOwnCache t then
    setBusy t true
    return .ownCache
  else
    lockFallback
    return .fallback

/-- Give a borrowed cache back. -/
def giveBack (t : Nat) : Loan → Action Heap Unit
  | .ownCache => setBusy t false
  | .fallback => unlockFallback

/-- Where the blocks of a loan are. -/
def loanPart (t : Nat) : Loan → Focus Heap BlockHeap
  | .ownCache => threadPart t
  | .fallback => fallbackPart

/-- Run an operation on the cache that serves thread `t`. -/
def withCache {α : Type} (t : Nat) (operation : Action BlockHeap α) : Action Heap α := do
  let loan ← borrow t
  let a ← Action.within (loanPart t loan) operation
  giveBack t loan
  return a

/-- Flush the cache of thread `t`, if it has one that is not lent. -/
def flushOwn (t : Nat) : Action Heap Unit := do
  let h ← get
  let s := h.thread t
  if h.build.threading = .shared ∧ s.busy = false ∧ s.status = .ready then
    setBusy t true
    Action.within (threadPart t) BlockHeap.flushAll
    setBusy t false

/-- Flush the fallback cache. -/
def flushFallback : Action Heap Unit := do
  lockFallback
  Action.within fallbackPart BlockHeap.flushAll
  unlockFallback

/-- The number of free blocks of a category in the cache of thread `t`; there is none while
the thread has no cache of its own or has lent it.  In a build for one thread it is the
fallback cache that is counted. -/
def cachedCount (t : Nat) (c : Category) : Action Heap (Option Nat) := do
  let h ← get
  match h.build.threading with
  | .shared =>
      let s := h.thread t
      return if s.status = .ready ∧ s.busy = false then some (s.cache.count c) else none
  | .exclusive =>
      -- Looking at the fallback cache takes its lock for a moment.
      lockFallback
      unlockFallback
      return some (h.fallback.count c)

/-- As `cachedCount`, for any number; only the numbers of categories have a count. -/
def cachedCountOf (t number : Nat) : Action Heap (Option Nat) :=
  match Category.ofNat? number with
  | none => return none
  | some c => cachedCount t c

/-- The exit hook of thread `t` flushes its cache, which is never used again. -/
def startExitHook (t : Nat) : Action Heap Unit := do
  setStatus t .tearingDown
  Action.within (threadPart t) BlockHeap.flushAll

/-- The exit hook of thread `t` is done. -/
def endExitHook (t : Nat) : Action Heap Unit := setStatus t .dead

/-- The exit hook of thread `t`. -/
def runExitHook (t : Nat) : Action Heap Unit := do
  startExitHook t
  endExitHook t

/-- Run the exit hook of thread `t` if one is registered and has not run. -/
def runPendingHook (t : Nat) : Action Heap Unit := do
  if ((← get).thread t).status = .ready then runExitHook t

/-- Begin to end thread `t`. -/
def beginExit (t : Nat) : Action Heap Unit := runPendingHook t

/-- End thread `t`.  A hook that was registered since its exit began runs now; whoever uses
the number next is a new thread. -/
def finishExit (t : Nat) : Action Heap Unit := do
  runPendingHook t
  modify fun h => { h with threads := h.threads.erase t }

end Heap
end PagedHeap
