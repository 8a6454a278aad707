import PagedHeap.Lock

/-!
# Threads at a lock

Each worker enters the same critical section a number of times and adds its amount to
one value there.  To enter, it tries to take the lock; if that fails it looks at the
word a number of times and tries again whenever it is free; after that it marks the
word as contended and waits in the kernel until it is woken, again and again, until the
mark it replaced says that the lock was free.  Leaving frees the word, and wakes one
waiting worker if the word was marked.

`Phase` is where a worker is in this, and `Worker.turn` is one atomic step of one worker
at a mutex.  `Contest.Step` allows any worker to go, any waiting worker to be the one that
is woken, and wake-ups without a cause.  `Contest.finalValue?` runs one fair schedule to its
end.
-/

namespace PagedHeap

/-- How often the word is looked at before a worker waits in the kernel. -/
def spinLimit : Nat := 64

/-- A lock and the value it protects. -/
structure Mutex where
  word : LockWord
  value : Nat
  deriving DecidableEq, Repr

/-- Where a worker is. -/
inductive Phase where
  /-- Not in the code of the lock. -/
  | outside
  /-- About to look at the word, with some looks left. -/
  | look (left : Nat)
  /-- Saw a free word and is about to try. -/
  | attempt (left : Nat)
  /-- About to mark the word as contended. -/
  | mark
  /-- About to wait in the kernel, if the word is still marked. -/
  | enterWait
  /-- Waits in the kernel. -/
  | parked
  /-- Holds the lock and is about to read the value. -/
  | critical
  /-- Holds the lock and is about to store what it saw and its amount. -/
  | adding (seen : Nat)
  /-- Holds the lock and is about to free it. -/
  | leave
  /-- Has freed the lock and is about to wake a waiting worker. -/
  | wake
  deriving DecidableEq, Repr

/-- What a worker has to do: how often it enters, and what it adds each time. -/
structure Task where
  rounds : Nat
  amount : Nat
  deriving DecidableEq, Repr

/-- A worker: where it is, and what it has still to do. -/
structure Worker extends Task where
  phase : Phase
  deriving DecidableEq, Repr

namespace Worker

/-- The worker in another phase. -/
def goTo (w : Worker) (phase : Phase) : Worker := { w with phase := phase }

/-- Take the lock if it is free, and go on to `other` if not. -/
def tryEnter (w : Worker) (m : Mutex) (other : Phase) : Mutex × Worker :=
  ({ m with word := m.word.tryLock.2 },
    w.goTo (if m.word.tryLock.1 = true then .critical else other))

/-- One atomic step of a worker: the mutex and the worker after it. -/
def turn (w : Worker) (m : Mutex) : Mutex × Worker :=
  match w.phase with
  | .outside => if w.rounds = 0 then (m, w) else w.tryEnter m (.look spinLimit)
  | .look 0 => (m, w.goTo .mark)
  | .look (left + 1) =>
      (m, w.goTo (if m.word = .unlocked then .attempt left else .look left))
  | .attempt left => w.tryEnter m (.look left)
  | .mark =>
      ({ m with word := .contended },
        w.goTo (if m.word = .unlocked then .critical else .enterWait))
  | .enterWait => (m, w.goTo (if m.word = .contended then .parked else .mark))
  | .parked => (m, w)
  | .critical => (m, w.goTo (.adding m.value))
  | .adding seen =>
      ({ m with value := seen + w.amount }, ⟨⟨w.rounds - 1, w.amount⟩, .leave⟩)
  | .leave =>
      ({ m with word := .unlocked },
        w.goTo (if m.word = .contended then .wake else .outside))
  | .wake => (m, w.goTo .outside)

/-- Wait no longer; this has no effect on a worker that does not wait. -/
def unpark (w : Worker) : Worker := if w.phase = .parked then w.goTo .mark else w

/-- A worker is done when it is outside and has no round left. -/
def done (w : Worker) : Bool := w.phase == .outside && w.rounds == 0

end Worker

/-- A mutex and the workers at it. -/
structure Contest extends Mutex where
  workers : List Worker
  deriving DecidableEq, Repr

namespace Contest

/-- Let worker `i` wait no longer. -/
def unpark (s : Contest) (i : Nat) : Contest :=
  { s with workers := s.workers.modify i Worker.unpark }

/-- The mutex and worker `i` after a step of worker `i`. -/
def settle (s : Contest) (i : Nat) (after : Mutex × Worker) : Contest :=
  ⟨after.1, s.workers.set i after.2⟩

/-- One atomic step of worker `i`.  If it wakes someone, that is worker `woken`. -/
def advance (s : Contest) (i woken : Nat) : Contest :=
  match s.workers[i]? with
  | none => s
  | some w =>
      (if w.phase = .wake then s.unpark woken else s).settle i (w.turn s.toMutex)

/-- Whether worker `i` waits in the kernel. -/
def isParked (s : Contest) (i : Nat) : Bool :=
  s.workers[i]?.any fun w => w.phase == .parked

/-- A wake call reaches a waiting worker if there is one. -/
def Reaches (s : Contest) (woken : Nat) : Prop :=
  (∃ j, s.isParked j = true) → s.isParked woken = true

/-- What can happen next: a worker takes a step, or a waiting worker is woken without a
cause. -/
inductive Step : Contest → Contest → Prop where
  | go (s : Contest) (i woken : Nat) (reaches : s.Reaches woken) : Step s (s.advance i woken)
  | spurious (s : Contest) (i : Nat) : Step s (s.unpark i)

/-- All workers are done. -/
def finished (s : Contest) : Bool := s.workers.all Worker.done

/-- The first waiting worker; the number of workers if there is none. -/
def firstParked (s : Contest) : Nat :=
  s.workers.findIdx fun w => w.phase == .parked

/-- Let the workers with the given numbers take a step each, in this order. -/
def pass (workers : List Nat) (s : Contest) : Contest :=
  workers.foldl (fun s i => s.advance i s.firstParked) s

/-- Make up to `n` passes, until all are done. -/
def passes (workers : List Nat) : Nat → Contest → Contest
  | 0, s => s
  | n + 1, s => if s.finished then s else passes workers n (s.pass workers)

/-- A free mutex around zero, and a worker outside for each task. -/
def fresh (tasks : List Task) : Contest :=
  ⟨⟨.unlocked, 0⟩, tasks.map fun task => ⟨task, .outside⟩⟩

/-- One task is to enter once and adds nothing; `waiters` others are to enter `rounds` times
each, and the `i`-th of them adds `i`. -/
def queue (waiters rounds : Nat) : List Task :=
  ⟨1, 0⟩ :: (List.range waiters).map fun i => ⟨rounds, i + 1⟩

/-- The first worker of the queue holds the lock, and the others are about to ask for it. -/
def start (waiters rounds : Nat) : Contest := (fresh (queue waiters rounds)).advance 0 0

/-- The value after all workers are done: first the others wait, and then all go on in
turns.  There is no answer if the workers do not come to an end within a number of passes
that lets all of them wait anew for each entry. -/
def finalValue? (waiters rounds : Nat) : Option Nat :=
  let others := (List.range waiters).map (· + 1)
  let waiting := (start waiters rounds).passes others (spinLimit + 4)
  let last := waiting.passes (0 :: others)
    ((waiters * rounds + 2) * (3 * (waiters + 1) + 4))
  if last.finished then some last.value else none

end Contest
end PagedHeap
