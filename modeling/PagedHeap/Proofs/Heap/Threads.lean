import PagedHeap.Proofs.Heap.Blocks
import PagedHeap.Proofs.Heap.Confinement
import PagedHeap.Proofs.Heap.Footprint

/-!
# Threads and their caches

A request of a thread leaves all other threads alone.  Of its own thread it changes something only
if that has a cache to use, and then the thread is ready afterwards and its cache is free again.
A thread whose cache is lent, or that has none yet or none any more, is served by the fallback
cache, from borrowing it to giving it back.
-/

namespace PagedHeap

namespace ThreadStatus

/-- How far a thread is in its life. -/
def rank : ThreadStatus → Nat
  | initial => 0
  | settingUp => 1
  | ready => 2
  | tearingDown => 3
  | dead => 4

end ThreadStatus

namespace Heap

open PagedHeap.Action

/-- Thread `t` has no cache to use: its own is lent, or it has none yet or none any more. -/
def LacksCache (h : Heap) (t : Nat) : Prop :=
  (h.thread t).busy = true ∨ (h.thread t).status ≠ .initial ∧ (h.thread t).status ≠ .ready

/-- Thread `t` has yet to be set up, and the first thread of the process is at that. -/
def AwaitsFirst (h : Heap) (t : Nat) : Prop :=
  (h.thread t).status = .initial ∧ ¬(h.bootstrap = .ready ∨ h.bootstrap = .initial)

/-- What requests of thread `t` do to threads. -/
structure Advances (t : Nat) (h h' : Heap) : Prop where
  others : ∀ u, u ≠ t → h'.thread u = h.thread u
  own : h'.thread t = h.thread t ∨
    ¬h.LacksCache t ∧ (h'.thread t).status = .ready ∧ (h'.thread t).busy = false

/-- Thread `t` comes to a status, and nothing else about threads changes. -/
structure ComesTo (t : Nat) (status : ThreadStatus) (h h' : Heap) : Prop where
  others : ∀ u, u ≠ t → h'.thread u = h.thread u
  own : h'.thread t = { h.thread t with status := status }

/-- Thread `t` had a cache to use and is ready to use it. -/
structure Readies (t : Nat) (h h' : Heap) : Prop extends ComesTo t .ready h h' where
  able : ¬h.LacksCache t

/-- Run an operation on the fallback cache. -/
def onFallback {α : Type} (operation : Action BlockHeap α) : Action Heap α := do
  lockFallback
  let a ← Action.within fallbackPart operation
  unlockFallback
  return a

variable {h h' : Heap} {t : Nat} {α : Type}

/-! ## Going forward -/

theorem able_iff : ¬h.LacksCache t ↔ (h.thread t).busy = false ∧
    ((h.thread t).status = .initial ∨ (h.thread t).status = .ready) := by
  rw [LacksCache, not_or, Bool.not_eq_true, not_and_or, not_ne_iff, not_ne_iff]

theorem advances_of_same (hsame : ∀ u, h'.thread u = h.thread u) : Advances t h h' :=
  ⟨fun u _ => hsame u, .inl (hsame t)⟩

instance : Std.Refl (Advances t) := ⟨fun _ => advances_of_same fun _ => rfl⟩

instance : IsTrans Heap (Advances t) where
  trans h h' h'' first second := by
    refine ⟨fun u hu => (second.others u hu).trans (first.others u hu), ?_⟩
    rcases second.own with hsame | ⟨hable, hready, hfree⟩
    · rw [hsame]
      exact first.own
    · -- Whoever may use its cache later on could do so at the start.
      rcases first.own with hsame | ⟨hable', -, -⟩
      · refine .inr ⟨?_, hready, hfree⟩
        rwa [LacksCache, hsame] at hable
      · exact .inr ⟨hable', hready, hfree⟩

theorem Advances.busy (hadvances : Advances t h h') : (h'.thread t).busy = (h.thread t).busy := by
  rcases hadvances.own with hsame | ⟨hable, -, hfree⟩
  · rw [hsame]
  · rw [hfree, (able_iff.1 hable).1]

theorem Advances.forward (hadvances : Advances t h h') :
    (h.thread t).status.rank ≤ (h'.thread t).status.rank := by
  rcases hadvances.own with hsame | ⟨hable, hready, -⟩
  · rw [hsame]
  · rw [hready]
    rcases (able_iff.1 hable).2 with hstatus | hstatus
    · rw [hstatus]
      exact Nat.zero_le _
    · rw [hstatus]

theorem usesOwnCache_of_lacksCache (hlacks : h.LacksCache t) : usesOwnCache t h = .ok false h := by
  rw [usesOwnCache, get_bind_apply]
  cases h.build.threading with
  | exclusive => rfl
  | shared =>
      simp only
      split
      · rfl
      · rename_i hfree
        have hstatus := hlacks.resolve_left hfree
        rw [obtainCache, get_bind_apply]
        cases hcase : (h.thread t).status with
        | initial => exact absurd hcase hstatus.1
        | ready => exact absurd hcase hstatus.2
        | settingUp => rfl
        | tearingDown => rfl
        | dead => rfl

/-- A build for one thread does everything on the fallback cache. -/
theorem usesOwnCache_of_exclusive (hbuild : h.build.threading = .exclusive) :
    usesOwnCache t h = .ok false h := by
  rw [usesOwnCache, get_bind_apply, hbuild]
  rfl

theorem withCache_of_notOwn (hnot : usesOwnCache t h = .ok false h)
    (operation : Action BlockHeap α) : withCache t operation h = onFallback operation h := by
  have hborrow : borrow t h = (do lockFallback; return .fallback : Action Heap Loan) h := by
    simp only [borrow, bind, EStateM.bind, hnot]
    rfl
  simp only [withCache, bind, EStateM.bind, hborrow, onFallback]
  cases lockFallback h with
  | ok _ h₁ => rfl
  | error e h₁ => rfl

/-- The lock was free before and is free again. -/
theorem ensures_onFallback (h : Heap) (operation : Action BlockHeap α) :
    Ensures (onFallback operation) h
      (fun _ h' => h.fallbackHeld = false ∧ h'.fallbackHeld = false ∧
        ∀ u, h'.thread u = h.thread u) (fun _ _ => True) := by
  rw [onFallback, ensures_bind]
  apply (ensures_lockFallback h).answers
  intro _ h₁ hpost
  obtain ⟨hfree, rfl⟩ := hpost
  rw [ensures_bind, ensures_within]
  refine .of_all (fun a b => ?_) fun _ _ => trivial
  simp only [unlockFallback, ensures_bind, ensures_modify]
  exact .answer ⟨hfree, rfl, fun _ => rfl⟩

theorem thread_setThread_self (h : Heap) (t : Nat) (s : ThreadState) :
    (h.setThread t s).thread t = s := by
  rw [thread_setThread, if_pos rfl]

theorem thread_setThread_of_ne {u : Nat} (hu : u ≠ t) (h : Heap) (s : ThreadState) :
    (h.setThread t s).thread u = h.thread u := by
  rw [thread_setThread, if_neg hu]

/-- What is said of the first thread of the process before that is nothing to any thread. -/
theorem comesTo_setThread {status : ThreadStatus} {h₁ : Heap}
    (hsame : ∀ u, h₁.thread u = h.thread u) :
    ComesTo t status h (h₁.setThread t { h₁.thread t with status := status }) := by
  refine ⟨fun u hu => (thread_setThread_of_ne hu h₁ _).trans (hsame u), ?_⟩
  rw [thread_setThread_self, hsame]

theorem ComesTo.trans {first second : ThreadStatus} {h₁ : Heap} (hcomes : ComesTo t first h h₁)
    (hgoes : ComesTo t second h₁ h') : ComesTo t second h h' := by
  refine ⟨fun u hu => (hgoes.others u hu).trans (hcomes.others u hu), ?_⟩
  rw [hgoes.own, hcomes.own]

theorem ensures_beginSetUp_thread (h : Heap) (t : Nat) :
    Ensures (beginSetUp t) h
      (fun begun h' => if begun = true then ComesTo t .settingUp h h'
        else ¬(h.bootstrap = .ready ∨ h.bootstrap = .initial) ∧ h' = h) never := by
  simp only [beginSetUp, ensures_bind, ensures_get, ensures_ite]
  split
  · simp only [ensures_onlyIf, ensures_setBootstrap, ensures_setStatus, ensures_pure, if_true]
    split
    · exact comesTo_setThread fun _ => rfl
    · exact comesTo_setThread fun _ => rfl
  · rename_i hother
    exact .answer ⟨hother, rfl⟩

theorem ensures_finishSetUp_thread (h : Heap) (t : Nat) (registered : Bool) :
    Ensures (finishSetUp t registered) h
      (fun own h' => own = registered ∧ ComesTo t (if registered then .ready else .dead) h h')
      never := by
  simp only [finishSetUp, ensures_bind, ensures_setBootstrap, ensures_setStatus, ensures_pure,
    true_and]
  exact comesTo_setThread fun _ => rfl

theorem ensures_setUp_thread (hable : ¬h.LacksCache t) :
    Ensures (setUp t) h (fun own h' => if own = true then Readies t h h' else h' = h) never := by
  rw [setUp, ensures_bind]
  apply (ensures_beginSetUp_thread h t).imp
  intro begun h₁ hbegins
  -- Only the first half can put the set-up off.
  cases begun with
  | true =>
      apply (ensures_finishSetUp_thread h₁ t true).imp
      rintro own h' ⟨rfl, hready⟩
      exact ⟨ComesTo.trans hbegins hready, hable⟩
  | false => exact .answer hbegins.2

theorem ensures_usesOwnCache_thread (h : Heap) (t : Nat) :
    Ensures (usesOwnCache t) h (fun own h' => if own = true then Readies t h h' else h' = h)
      never := by
  by_cases hlacks : h.LacksCache t
  · constructor
    rw [usesOwnCache_of_lacksCache hlacks]
    exact rfl
  · obtain ⟨hfree, hstatus⟩ := able_iff.1 hlacks
    simp only [usesOwnCache, ensures_bind, ensures_get]
    cases h.build.threading with
    | exclusive => exact .answer rfl
    | shared =>
        simp only [hfree, Bool.false_eq_true, if_false, obtainCache, ensures_bind, ensures_get]
        rcases hstatus with hinitial | hready
        · rw [hinitial]
          exact ensures_setUp_thread hlacks
        · rw [hready]
          refine .answer ⟨⟨fun _ _ => rfl, ?_⟩, hlacks⟩
          rw [← hready]

/-- What becomes of threads when one of them borrows a cache. -/
def Borrows (t : Nat) (h : Heap) : Loan → Heap → Prop
  | .ownCache, h' => ¬h.LacksCache t ∧ (∀ u, u ≠ t → h'.thread u = h.thread u) ∧
      h'.thread t = { h.thread t with status := .ready, busy := true }
  | .fallback, h' => ∀ u, h'.thread u = h.thread u

theorem ensures_borrow_thread (h : Heap) (t : Nat) :
    Ensures (borrow t) h (Borrows t h) (fun _ _ => True) := by
  rw [borrow, ensures_bind]
  apply (ensures_usesOwnCache_thread h t).weaken
  intro own h₁ hpost
  cases own with
  | true =>
      rw [if_pos rfl] at hpost
      simp only [if_true, ensures_bind, ensures_setBusy, ensures_pure]
      refine ⟨hpost.able, fun u hu => ?_, ?_⟩
      · rw [thread_setThread_of_ne hu, hpost.others u hu]
      · rw [thread_setThread_self, hpost.own]
  | false =>
      rw [if_neg Bool.false_ne_true] at hpost
      subst hpost
      simp only [Bool.false_eq_true, if_false, ensures_bind, ensures_pure]
      apply (ensures_lockFallback h₁).answers
      intro _ h₂ hpost
      obtain ⟨-, rfl⟩ := hpost
      exact fun _ => rfl

/-! ## What a request does to threads -/

theorem thread_threadPart_self (h : Heap) (t : Nat) (b : BlockHeap) :
    ((threadPart t).write b h).thread t = { h.thread t with cache := b.cache } := by
  rw [thread_threadPart, if_pos rfl]

theorem advances_withCache (t : Nat) (operation : Action BlockHeap α) :
    Leaves (Advances t) (withCache t operation) := by
  intro h
  rw [withCache, ensures_bind]
  apply (ensures_borrow_thread h t).answers
  intro loan h₁ hborrows
  rw [ensures_bind, ensures_within]
  refine .of_all (fun a b => ?_) fun _ _ => trivial
  rw [ensures_bind]
  cases loan with
  | ownCache =>
      obtain ⟨hable, hothers, hown⟩ := hborrows
      rw [giveBack, ensures_setBusy]
      refine .answer ⟨fun u hu => ?_, .inr ⟨hable, ?_⟩⟩
      · rw [thread_setThread_of_ne hu, loanPart, thread_threadPart, if_neg hu, hothers u hu]
      · rw [thread_setThread_self, loanPart, thread_threadPart_self, hown]
        exact ⟨rfl, rfl⟩
  | fallback =>
      simp only [giveBack, unlockFallback, ensures_modify]
      exact .answer (advances_of_same hborrows)

theorem advances_flushOwn (t : Nat) : Leaves (Advances t) (flushOwn t) := by
  intro h
  simp only [flushOwn, ensures_bind, ensures_get, ensures_ite]
  split
  · rename_i hflushes
    obtain ⟨-, hfree, hready⟩ := hflushes
    rw [ensures_setBusy, ensures_within]
    refine .of_all (fun _ b => ?_) fun _ _ => trivial
    rw [ensures_setBusy]
    refine ⟨fun u hu => ?_, .inr ⟨able_iff.2 ⟨hfree, .inr hready⟩, ?_⟩⟩
    · rw [thread_setThread_of_ne hu, thread_threadPart, if_neg hu, thread_setThread_of_ne hu]
    · rw [thread_setThread_self, thread_threadPart_self, thread_setThread_self]
      exact ⟨hready, rfl⟩
  · exact .answer (Std.Refl.refl (r := Advances t) h)

theorem toleratesAll_advances (t : Nat) : ToleratesAll t (Advances t) where
  withCache operation := advances_withCache t operation
  onLarge action := leaves_within (fun _ _ => advances_of_same fun _ => rfl) action
  onKernel action := leaves_within (fun _ _ => advances_of_same fun _ => rfl) action
  logRecord _ := confined_modify fun _ => advances_of_same fun _ => rfl
  setErrorNumber _ := confined_modify fun _ => advances_of_same fun _ => rfl
  flushOwn := advances_flushOwn t
  flushFallback := by
    intro h
    exact (ensures_onFallback h BlockHeap.flushAll).answers
      fun _ _ hpost => advances_of_same hpost.2.2

/-- Whatever a thread asks for, other threads are not touched, and its own goes forward. -/
theorem leaves_serve (t : Nat) (r : HeapRequest) : Leaves (Advances t) (serve t r) :=
  (toleratesAll_advances t).serve r

/-! ## The end of a thread -/

/-- The exit hook of thread `t` ran, if there was one. -/
structure Retires (t : Nat) (h h' : Heap) : Prop where
  others : ∀ u, u ≠ t → h'.thread u = h.thread u
  own : (h.thread t).status ≠ .ready ∧ h'.thread t = h.thread t ∨
    (h.thread t).status = .ready ∧ (h'.thread t).status = .dead ∧
      (h'.thread t).busy = (h.thread t).busy

/-- Thread `t` is being torn down, whatever is in its cache now. -/
structure TearsDown (t : Nat) (h h' : Heap) : Prop where
  others : ∀ u, u ≠ t → h'.thread u = h.thread u
  status : (h'.thread t).status = .tearingDown
  busy : (h'.thread t).busy = (h.thread t).busy

theorem ensures_startExitHook_thread (h : Heap) (t : Nat) :
    Ensures (startExitHook t) h (fun _ h' => TearsDown t h h') (fun _ _ => True) := by
  rw [startExitHook, ensures_bind, ensures_setStatus, ensures_within]
  refine .of_all (fun _ b => ⟨fun u hu => ?_, ?_, ?_⟩) fun _ _ => trivial
  · rw [thread_threadPart, if_neg hu, thread_setThread_of_ne hu]
  · rw [thread_threadPart_self, thread_setThread_self]
  · rw [thread_threadPart_self, thread_setThread_self]

theorem ensures_endExitHook_thread (h : Heap) (t : Nat) :
    Ensures (endExitHook t) h (fun _ h' => ComesTo t .dead h h') never :=
  ensures_setStatus.2 (comesTo_setThread fun _ => rfl)

theorem ensures_runPendingHook_thread (h : Heap) (t : Nat) :
    Ensures (runPendingHook t) h (fun _ h' => Retires t h h') (fun _ _ => True) := by
  simp only [runPendingHook, ensures_bind, ensures_get, ensures_ite]
  split
  · rename_i hready
    rw [runExitHook, ensures_bind]
    apply (ensures_startExitHook_thread h t).imp
    intro _ h₁ htears
    apply (ensures_endExitHook_thread h₁ t).weaken
    intro _ h' hdead
    refine ⟨fun u hu => (hdead.others u hu).trans (htears.others u hu), .inr ⟨hready, ?_⟩⟩
    rw [hdead.own]
    exact ⟨rfl, htears.busy⟩
  · rename_i hnot
    exact .answer ⟨fun _ _ => rfl, .inl ⟨hnot, rfl⟩⟩

theorem ensures_finishExit_thread (h : Heap) (t : Nat) :
    Ensures (finishExit t) h
      (fun _ h' => (∀ u, u ≠ t → h'.thread u = h.thread u) ∧ h'.thread t = .fresh)
      (fun _ _ => True) := by
  rw [finishExit, ensures_bind]
  apply (ensures_runPendingHook_thread h t).answers
  intro _ h₁ hretires
  rw [ensures_modify]
  refine ⟨fun u hu => ?_, ?_⟩
  · rw [thread_erase, if_neg hu, hretires.others u hu]
  · rw [thread_erase, if_pos rfl]

variable {spans : Place → Category → List Span} {live foreign : Set Nat} {x : Nat}

end Heap
end PagedHeap
