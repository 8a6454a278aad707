import PagedHeap.Proofs.Heap.Agreement

/-!
# Sessions of one thread

A session is what a process with one thread goes through.  In each turn the client does something
to memory and to the kernel, or nothing, and then asks the heap for something; what it does next
may depend on all that it was shown.

The client is shown the same by the two builds that differ in whether threads share the heap, as
long as it asks for no whole huge pages.
-/

namespace PagedHeap

/-- What a client does in a turn: something to memory and to the kernel, and then a request. -/
structure Turn where
  prepare : Kernel → Kernel
  request : HeapRequest

/-- What can be seen of a heap that goes on: memory and all calls, what it has written down, and its
counters. -/
structure Sight where
  kernel : Kernel
  log : List LogRecord
  errorNumber? : Option ErrorNumber
  counters : List Nat

/-- What a client is shown of a turn.  Memory is gone with the process. -/
inductive Shown where
  | answered (answer : Answer) (sight : Sight)
  | ended (ending : Ending) (calls : List Call) (errorOutput : List Char) (log : List LogRecord)

namespace Heap

open PagedHeap.Action

/-- What can be seen of the heap. -/
def sight (h : Heap) : Sight := ⟨h.kernel, h.log, h.errorNumber?, h.counters⟩

/-- The heap when a request of the client comes to it.  No error number is set yet. -/
def prepared (h : Heap) (turn : Turn) : Heap :=
  { h with kernel := turn.prepare h.kernel, errorNumber? := none }

/-- What is shown of a turn of thread `t`, and the heap afterwards, if the process goes on. -/
def takeTurn (t : Nat) (turn : Turn) (h : Heap) : Shown × Option Heap :=
  match serve t turn.request (h.prepared turn) with
  | .ok a h' => (.answered a h'.sight, some h')
  | .error e h' => (.ended e h'.kernel.calls h'.kernel.errorOutput h'.log, none)

/-- What a client on thread `t` is shown in the first turns of a process, the latest first, and the
heap, if the process goes on. -/
def session (build : Build) (k : Kernel) (t : Nat) (client : List Shown → Turn) :
    Nat → List Shown × Option Heap
  | 0 => ([], some (new build k))
  | n + 1 =>
      match session build k t client n with
      | (seen, none) => (seen, none)
      | (seen, some h) => ((h.takeTurn t (client seen)).1 :: seen, (h.takeTurn t (client seen)).2)

/-- The turn is for no cache alone, and does not come to a request for whole huge pages. -/
structure Fits (turn : Turn) (h : Heap) : Prop where
  caches : ¬turn.request.NamesCache
  asks : NotHuge (turn.request.asks? (h.prepared turn))

/-- All turns of the client are such. -/
def AllFit (build : Build) (k : Kernel) (t : Nat) (client : List Shown → Turn) : Prop :=
  ∀ n seen h, session build k t client n = (seen, some h) → Fits (client seen) h

variable {h : Heap} {t n : Nat} {k : Kernel} {client : List Shown → Turn} {turn : Turn}

/-! ## Turns -/

/-- What is asked for is the same in both heaps. -/
theorem asks?_unshared (h : Heap) (t : Nat) (r : HeapRequest) :
    r.asks? (h.unshared t) = r.asks? h := by
  have hlarge : ∀ address rounded align,
      (h.unshared t).largeHeap.resizeAsks? address rounded align =
        h.largeHeap.resizeAsks? address rounded align :=
    fun address rounded align => LargeHeap.resizeAsks?_plain h.largeHeap address rounded align
  have hresize : ∀ address size opts target, (h.unshared t).resizeAsks? address size opts target =
      h.resizeAsks? address size opts target := by
    intro address size opts target
    cases target with
    | small c => rfl
    | large rounded align =>
        unfold resizeAsks?
        simp only [hlarge]
        rfl
  have hreallocate : ∀ pointer? size opts, (h.unshared t).reallocateAsks? pointer? size opts =
      h.reallocateAsks? pointer? size opts := by
    intro pointer? size opts
    cases pointer? with
    | none => rfl
    | some address =>
        unfold reallocateAsks?
        simp only [hresize]
  cases r with
  | reallocate pointer? size opts => exact hreallocate pointer? size opts
  | reallocateLayout pointer? l size => exact hreallocate pointer? _ _
  | resizeSlice pointer? old new => exact hreallocate pointer? _ _
  | growSliceZeroed pointer? old new => exact hreallocate pointer? _ _
  | realloc pointer? size =>
      cases pointer? with
      | none => rfl
      | some address => exact hreallocate (some address) size {}
  | _ => rfl

theorem fits_unshared (turn : Turn) (h : Heap) (t : Nat) :
    Fits turn (h.unshared t) ↔ Fits turn h := by
  have hasks : turn.request.asks? ((h.unshared t).prepared turn) =
      turn.request.asks? (h.prepared turn) :=
    asks?_unshared (h.prepared turn) t turn.request
  constructor
  · intro hfits
    exact ⟨hfits.caches, hasks ▸ hfits.asks⟩
  · intro hfits
    exact ⟨hfits.caches, hasks.symm ▸ hfits.asks⟩

/-- A turn shows the same in both heaps, and leaves them as alike as they were. -/
theorem takeTurn_unshared (hlone : Lone t h) (hfits : Fits turn h) :
    (h.unshared t).takeTurn t turn =
        ((h.takeTurn t turn).1, (h.takeTurn t turn).2.map (unshared t)) ∧
      ∀ h', (h.takeTurn t turn).2 = some h' → Lone t h' := by
  have hprepared : Lone t (h.prepared turn) := hlone.congr rfl rfl rfl rfl rfl
  obtain ⟨hmirrors, hstays⟩ := agrees_serve hprepared hfits.caches hfits.asks
  have himage : serve t turn.request ((h.unshared t).prepared turn) =
      carry (unshared t) (serve t turn.request (h.prepared turn)) := hmirrors
  have houtcome := hstays.outcome
  unfold takeTurn
  rw [himage]
  cases hrun : serve t turn.request (h.prepared turn) with
  | ok a h₁ =>
      rw [hrun] at houtcome
      refine ⟨rfl, fun h' hsome => ?_⟩
      cases hsome
      exact houtcome
  | error e h₁ => exact ⟨rfl, fun h' hnone => nomatch hnone⟩

/-! ## Sessions -/

theorem thread_new (build : Build) (k : Kernel) (t : Nat) :
    (new build k).thread t = ThreadState.fresh := by
  simp [thread, new]

theorem lone_new (k : Kernel) (t : Nat) : Lone t (new .standard k) := by
  refine ⟨⟨rfl, rfl, rfl, .inl rfl⟩, ?_, .inr ?_⟩
  · rw [thread_new]
    rfl
  · rw [thread_new]
    exact ⟨rfl, rfl⟩

theorem unshared_new (k : Kernel) (t : Nat) :
    (new .standard k).unshared t = new .singleThread k := by
  rw [unshared, thread_new]
  rfl

/-- The two sessions go on alike, turn after turn. -/
theorem session_unshared (h : AllFit .standard k t client ∨ AllFit .singleThread k t client)
    (n : Nat) :
    session .singleThread k t client n =
        ((session .standard k t client n).1,
          (session .standard k t client n).2.map (unshared t)) ∧
      ∀ h', (session .standard k t client n).2 = some h' → Lone t h' := by
  induction n with
  | zero =>
      refine ⟨?_, fun h' hsome => ?_⟩
      · rw [session, session, Option.map_some, unshared_new]
      · cases hsome
        exact lone_new k t
  | succ n ih =>
      obtain ⟨hsame, hlone⟩ := ih
      cases hstandard : session .standard k t client n with
      | mk seen h? =>
          rw [hstandard] at hsame hlone
          cases h? with
          | none =>
              have hsingle : session .singleThread k t client n = (seen, none) := hsame
              rw [session, hsingle, session, hstandard]
              exact ⟨rfl, fun h' hnone => nomatch hnone⟩
          | some h₁ =>
              have hsingle : session .singleThread k t client n = (seen, some (h₁.unshared t)) :=
                hsame
              have hfits : Fits (client seen) h₁ := by
                rcases h with hfit | hfit
                · exact hfit n seen h₁ hstandard
                · exact (fits_unshared _ h₁ t).1 (hfit n seen _ hsingle)
              obtain ⟨hturn, hstays⟩ := takeTurn_unshared (hlone h₁ rfl) hfits
              rw [session, hsingle, session, hstandard]
              refine ⟨?_, hstays⟩
              simp only [hturn]

/-- A client on the only thread of a process is shown the same by the build for many threads and by
that for one, whatever the kernel does: the same answers, error numbers, records, calls, memory
and counters, and the same end of the process in the same turn.  It may ask for anything but whole
huge pages in one of the two. -/
theorem sessions_agree (h : AllFit .standard k t client ∨ AllFit .singleThread k t client)
    (n : Nat) : (session .singleThread k t client n).1 = (session .standard k t client n).1 := by
  rw [(session_unshared h n).1]

/-- A client that gets a block and a range of three pages, gives back the first pointer that it was
shown, and then that pointer a second time, as if it were a range. -/
def briefClient (seen : List Shown) : Turn :=
  match seen with
  | [] => ⟨id, .malloc 100⟩
  | [_] => ⟨fun k => { k with knobs := { placement := .lowest } }, .alignedAlloc 8192 10000⟩
  | [_, .answered (.pointer got?) _] => ⟨id, .reclaim got?⟩
  | _ => ⟨id, .reclaim (some 0x200000007000)⟩

theorem sessions_agree_brief :
    AllFit .standard (.boot 8 none) 0 briefClient ∧
      (session .standard (.boot 8 none) 0 briefClient 5).1.length = 4 ∧
      (session .singleThread (.boot 8 none) 0 briefClient 5).1 =
        (session .standard (.boot 8 none) 0 briefClient 5).1 := by
  have hfits : ∀ seen h, Fits (briefClient seen) h := by
    intro seen h
    unfold briefClient
    split
    · exact ⟨id, fun n hn => by cases hn; decide⟩
    · exact ⟨id, fun n hn => by cases hn; decide⟩
    · exact ⟨id, fun n hn => nomatch hn⟩
    · exact ⟨id, fun n hn => nomatch hn⟩
  have hall : AllFit .standard (.boot 8 none) 0 briefClient := fun _ seen h _ => hfits seen h
  exact ⟨hall, by decide +kernel, sessions_agree (.inl hall) 5⟩

/-- Whole huge pages are placed on their boundaries by the build for many threads only, which takes
more calls. -/
example : (session .standard (.boot 2000 none) 0 (fun _ => ⟨id, .malloc 2097152⟩) 1).2.map
      (fun h => h.kernel.calls.length) = some 7 ∧
    (session .singleThread (.boot 2000 none) 0 (fun _ => ⟨id, .malloc 2097152⟩) 1).2.map
      (fun h => h.kernel.calls.length) = some 2 := by
  decide +kernel

end Heap
end PagedHeap
