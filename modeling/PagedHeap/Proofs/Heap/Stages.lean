import PagedHeap.Proofs.Heap.Threads

/-!
# Stages in the life of a thread

The heap can be asked while a thread is half way into its life, or half way out of it.  What
registers its exit hook may allocate, and while the hook has yet to end, others go on.  So set-up
and exit are taken apart here into stages.  A stage leads from one status of the thread to
another, further on, and leaves nothing in its cache.
-/

namespace PagedHeap

/-- A stage of set-up or exit. -/
inductive Stage where
  | beginSetUp
  | finishSetUp (registered : Bool)
  | startExitHook
  | endExitHook

namespace Stage

/-- The heap at a stage of thread `t`. -/
def run (t : Nat) : Stage → Action Heap Unit
  | beginSetUp => (fun _ => ()) <$> Heap.beginSetUp t
  | finishSetUp registered => (fun _ => ()) <$> Heap.finishSetUp t registered
  | startExitHook => Heap.startExitHook t
  | endExitHook => Heap.endExitHook t

/-- The status at which the stage is due. -/
def due : Stage → ThreadStatus
  | beginSetUp => .initial
  | finishSetUp _ => .settingUp
  | startExitHook => .ready
  | endExitHook => .tearingDown

/-- The status to which the stage leads. -/
def next : Stage → ThreadStatus
  | beginSetUp => .settingUp
  | finishSetUp registered => if registered then .ready else .dead
  | startExitHook => .tearingDown
  | endExitHook => .dead

/-- Whether the cache of the thread is flushed at the stage. -/
def flushes : Stage → Bool
  | startExitHook => true
  | beginSetUp | finishSetUp _ | endExitHook => false

theorem due_ne_ready {stage : Stage} (hquiet : stage.flushes = false) : stage.due ≠ .ready := by
  cases stage with
  | startExitHook => cases hquiet
  | _ => simp [due]

theorem rank_due_lt_next (stage : Stage) : stage.due.rank < stage.next.rank := by
  cases stage with
  | beginSetUp => decide
  | finishSetUp registered => cases registered <;> decide
  | startExitHook => decide
  | endExitHook => decide

end Stage

namespace Heap

open PagedHeap.Action

/-- Thread `t` is to go through a stage.  It begins to set up where each thread has a cache of its
own, and when it wants to borrow that. -/
structure Due (h : Heap) (t : Nat) (stage : Stage) : Prop where
  status : (h.thread t).status = stage.due
  wanted : stage = .beginSetUp → h.build.threading = .shared ∧ (h.thread t).busy = false

/-- Thread `t` went through a stage, or put off its set-up to await the first thread. -/
structure TakesStage (t : Nat) (stage : Stage) (h h' : Heap) : Prop where
  due : (h.thread t).status = stage.due
  others : ∀ u, u ≠ t → h'.thread u = h.thread u
  status : (h'.thread t).status = stage.next ∨ h.AwaitsFirst t ∧ h' = h
  busy : (h'.thread t).busy = (h.thread t).busy
  cache : stage.flushes = false → (h'.thread t).cache = (h.thread t).cache

variable {h h' : Heap} {t : Nat} {stage : Stage} {spans : Place → Category → List Span}
  {live foreign : Set Nat}

theorem Chooses.notes {own : Bool} (hchooses : h.Chooses t own h') : h.Notes h' :=
  ⟨hchooses.parts, hchooses.ready, hchooses.rules⟩

/-- After a stage the heap is sound, and the cache of the thread is empty. -/
theorem Sound.ensures_stage (hsound : h.Sound spans live foreign) (hdue : h.Due t stage) :
    Ensures (stage.run t) h
      (fun _ h' => h.Steady spans live foreign h' (Function.update spans (.thread t) fun _ => []))
      never := by
  have hunready : stage.flushes = false → (h.thread t).status ≠ .ready := by
    rw [hdue.status]
    exact Stage.due_ne_ready
  -- Only a thread that is ready has something to flush.
  have hquiet : ∀ h' : Heap, stage.flushes = false → h.Notes h' →
      h.Steady spans live foreign h' (Function.update spans (.thread t) fun _ => []) := by
    intro h' hflushes hnotes
    rw [hsound.update_idle (hunready hflushes)]
    exact hsound.steady_notes hnotes
  cases stage with
  | beginSetUp =>
      rw [Stage.run, ensures_map]
      exact (ensures_beginSetUp (hunready rfl)).imp fun _ h' hbegins =>
        hquiet h' rfl hbegins.1.notes
  | finishSetUp registered =>
      rw [Stage.run, ensures_map]
      exact (ensures_finishSetUp (hunready rfl) registered).imp fun _ h' hfinishes =>
        hquiet h' rfl hfinishes.notes
  | startExitHook => exact (hsound.ensures_startExitHook t).imp fun _ _ hstarts => hstarts.1
  | endExitHook =>
      exact (ensures_endExitHook (hunready rfl)).imp fun _ h' hends => hquiet h' rfl hends.1

theorem ComesTo.takesStage (hcomes : ComesTo t stage.next h h') (hdue : h.Due t stage) :
    TakesStage t stage h h' := by
  obtain ⟨hothers, hown⟩ := hcomes
  refine ⟨hdue.status, hothers, .inl ?_, ?_, fun _ => ?_⟩
  · rw [hown]
  · rw [hown]
  · rw [hown]

theorem ensures_stage_thread (hdue : h.Due t stage) :
    Ensures (stage.run t) h (fun _ h' => TakesStage t stage h h') (fun _ _ => True) := by
  cases stage with
  | beginSetUp =>
      rw [Stage.run, ensures_map]
      apply (ensures_beginSetUp_thread h t).weaken
      intro begun h' hbegins
      cases begun with
      | true => exact ComesTo.takesStage hbegins hdue
      | false =>
          obtain ⟨hother, rfl⟩ := hbegins
          exact ⟨hdue.status, fun _ _ => rfl, .inr ⟨⟨hdue.status, hother⟩, rfl⟩, rfl, fun _ => rfl⟩
  | finishSetUp registered =>
      rw [Stage.run, ensures_map]
      exact (ensures_finishSetUp_thread h t registered).weaken fun _ _ hfinishes =>
        hfinishes.2.takesStage hdue
  | startExitHook =>
      apply (ensures_startExitHook_thread h t).imp
      intro _ h' htears
      refine ⟨hdue.status, htears.others, .inl htears.status, htears.busy, fun hquiet => ?_⟩
      cases hquiet
  | endExitHook =>
      exact (ensures_endExitHook_thread h t).weaken fun _ _ hends => hends.takesStage hdue

theorem TakesStage.forward (htakes : TakesStage t stage h h') :
    (h.thread t).status.rank ≤ (h'.thread t).status.rank := by
  rcases htakes.status with hnext | ⟨-, rfl⟩
  · rw [htakes.due, hnext]
    exact stage.rank_due_lt_next.le
  · exact Nat.le_refl _

/-- What a thread asks for while it is set up is from the fallback cache.  Its own is empty when it
is ready. -/
example : Ensures (do
      Stage.beginSetUp.run 0
      let a ← serve 0 (.malloc 100)
      (Stage.finishSetUp true).run 0
      return a) (.new .standard (.boot 8 none))
    (fun a h => a.granted? = some 0x200000007080 ∧ (h.thread 0).status = .ready ∧
      (h.thread 0).cache.count 3 = 0 ∧ h.fallback.count 3 = 30) never := by
  decide +kernel

end Heap
end PagedHeap
