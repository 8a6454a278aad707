import PagedHeap.Build

/-!
# Locks

A lock is a word with three states: free, taken, and taken with someone waiting.  This
module says what a single thread sees of it.  Asking again for a lock that is held is
the end: where threads share the allocator the caller waits for itself, and in a build
for one thread the request is reported as a broken heap.

`PagedHeap.Lock.Contention` has the steps that threads take when they meet at a lock.
-/

namespace PagedHeap

/-- The state of a lock. -/
inductive LockWord where
  | unlocked
  | locked
  /-- Locked, and a thread may be waiting. -/
  | contended
  deriving DecidableEq, Repr

/-- What a thread asks of a lock. -/
inductive LockRequest where
  | tryLock
  | lock
  | unlock
  deriving DecidableEq, Repr

namespace LockWord

/-- Take a lock that is free, at once or not at all. -/
def tryLock (w : LockWord) : Bool × LockWord :=
  match w with
  | unlocked => (true, locked)
  | locked => (false, locked)
  | contended => (false, contended)

/-- How the process ends when its running thread asks for a lock that is held. -/
def reentered : Threading → Ending
  | .exclusive => .corrupted .reentrantLock
  | .shared => .stalled

/-- Serve requests of one thread one after the other.  The answers are those of `tryLock`;
the other requests have none. -/
def serve (threading : Threading) :
    LockWord → List LockRequest → Except Ending (List (Option Bool))
  | _, [] => .ok []
  | w, .tryLock :: rest => do
      let (taken, w) := w.tryLock
      return some taken :: (← serve threading w rest)
  | w, .lock :: rest => do
      match w.tryLock with
      | (true, w) => return none :: (← serve threading w rest)
      | (false, _) => throw (reentered threading)
  | _, .unlock :: rest => return none :: (← serve threading unlocked rest)

end LockWord
end PagedHeap
