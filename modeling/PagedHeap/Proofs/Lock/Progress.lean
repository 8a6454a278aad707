import Mathlib.Tactic.Ring
import PagedHeap.Proofs.Lock.Exclusion

/-!
# Progress at a lock

Workers at a mutex who each get to go again and again all come to an end.  What is left to do is
a number, `rank`: first the entries that are still to be made; then, while the lock is held, how
far its holder has come, and while it is free, how far all the others are from taking it.  No step
makes it larger.  Someone can always make it smaller as long as not all are done: the holder, or
if the lock is free anyone on the way to it, and as nobody waits for a lock that nobody is on the
way to there is someone.
-/

namespace PagedHeap

namespace Worker

/-- The entries that the worker has still to make. -/
def toEnter (w : Worker) : Nat :=
  match w.phase with
  | .critical | .adding _ => w.rounds - 1
  | .outside | .look _ | .attempt _ | .mark | .enterWait | .parked | .leave | .wake => w.rounds

/-- The steps that a worker who holds the lock has still to take until it is free. -/
def stage (w : Worker) : Nat :=
  match w.phase with
  | .critical => 3
  | .adding _ => 2
  | .leave => 1
  | .outside | .look _ | .attempt _ | .mark | .enterWait | .parked | .wake => 0

/-- How far the worker is from taking a free lock, or from being done. -/
def effort (w : Worker) : Nat := if w.done = true then 0 else w.phase.distance

variable {w w' : Worker} {m m' : Mutex}

theorem effort_le (w : Worker) : w.effort ≤ 3 := by
  obtain ⟨task, phase⟩ := w
  unfold effort
  split
  · omega
  · cases phase <;> simp [Phase.distance]

theorem effort_goTo_le (w : Worker) (phase : Phase) : (w.goTo phase).effort ≤ phase.distance := by
  unfold effort
  split
  · exact Nat.zero_le _
  · exact Nat.le_refl _

theorem effort_of_not_done (hdone : w.done = false) : w.effort = w.phase.distance := by
  simp [effort, hdone]

theorem not_done_of_phase (hphase : w.phase ≠ .outside) : w.done = false := by
  simp [done, hphase]

theorem not_done_of_asks (hasks : w.asks = true) : w.done = false := by
  obtain ⟨task, phase⟩ := w
  cases phase <;> simp_all [done, asks]

theorem stage_eq_zero (hholds : w.holds = false) : w.stage = 0 := by
  obtain ⟨task, phase⟩ := w
  cases phase <;> simp_all [holds, stage]

theorem toEnter_eq (hholds : w.holds = false) : w.toEnter = w.rounds := by
  obtain ⟨task, phase⟩ := w
  cases phase <;> simp_all [holds, toEnter]

end Worker

namespace Contest

variable {sum : Nat} {s s' : Contest} {i j woken : Nat} {v w : Worker}

/-- What one entry can take: the way to a free lock for all, and the way of the holder. -/
def lap (s : Contest) : Nat := 3 * s.workers.length + 4

/-- What is left until the next entry. -/
def rest (s : Contest) : Nat :=
  if s.word = .unlocked then total Worker.effort s.workers
  else 3 * s.workers.length + total Worker.stage s.workers

/-- What is left until all are done. -/
def rank (s : Contest) : Nat := total Worker.toEnter s.workers * s.lap + s.rest

/-- The worker brings all of them closer to the end with its next step. -/
def Helps (s : Contest) (w : Worker) : Prop :=
  if s.word = .unlocked then w.waits = false ∧ w.done = false else w.holds = true

/-- Less is left than before, or just as much and the same workers can do something about it. -/
inductive Progresses (s s' : Contest) : Prop where
  | less (hless : s'.rank < s.rank)
  | even (hrank : s'.rank = s.rank)
      (hkeeps : ∀ (i : Nat) (w : Worker), s.workers[i]? = some w → s.Helps w →
        s'.workers[i]? = some w ∧ s'.Helps w)

namespace Progresses

theorem refl (s : Contest) : Progresses s s := .even rfl fun _ _ hw hhelps => ⟨hw, hhelps⟩

theorem le (hprogresses : Progresses s s') : s'.rank ≤ s.rank := by
  cases hprogresses with
  | less hless => exact Nat.le_of_lt hless
  | even hrank => exact Nat.le_of_eq hrank

theorem trans {s'' : Contest} (h₁ : Progresses s s') (h₂ : Progresses s' s'') :
    Progresses s s'' := by
  have hle := h₂.le
  cases h₁ with
  | less hless => exact .less (Nat.lt_of_le_of_lt hle hless)
  | even hrank hkeeps =>
      cases h₂ with
      | less hless' => exact .less (hrank ▸ hless')
      | even hrank' hkeeps' =>
          refine .even (hrank'.trans hrank) fun i w hw hhelps => ?_
          obtain ⟨hw', hhelps'⟩ := hkeeps i w hw hhelps
          exact hkeeps' i w hw' hhelps'

end Progresses

section Turns

variable {m : Mutex} {w' : Worker}

theorem rank_lt_of_rest (henter : total Worker.toEnter s'.workers = total Worker.toEnter s.workers)
    (hlength : s'.workers.length = s.workers.length) (hrest : s'.rest < s.rest) :
    s'.rank < s.rank := by
  have hlap : s'.lap = s.lap := by rw [lap, lap, hlength]
  simp only [rank, henter, hlap]
  omega

theorem rank_lt_of_enter
    (henter : total Worker.toEnter s'.workers + 1 = total Worker.toEnter s.workers)
    (hlength : s'.workers.length = s.workers.length) (hrest : s'.rest < s.lap) :
    s'.rank < s.rank := by
  have hlap : s'.lap = s.lap := by rw [lap, lap, hlength]
  simp only [rank, ← henter, hlap, Nat.succ_mul]
  omega

theorem total_stage_of_free (hsound : Sound sum s) (hfree : s.word = .unlocked) :
    total Worker.stage s.workers = 0 := by
  have hle := total_le (b := 0) Worker.stage (l := s.workers) fun w hw => by
    exact Nat.le_of_eq (Worker.stage_eq_zero (hsound.not_holds hfree hw))
  omega

theorem total_effort_le (workers : List Worker) :
    total Worker.effort workers ≤ 3 * workers.length :=
  total_le Worker.effort fun w _ => w.effort_le

/-- A worker who changes neither the entries nor the lock comes closer if the lock is free. -/
theorem progresses_of_effort (hw : s.workers[i]? = some w)
    (henter : w'.toEnter = w.toEnter) (hstage : w'.stage = w.stage)
    (hm : m.word = .unlocked ↔ s.word = .unlocked)
    (heffort : s.word = .unlocked → w'.effort < w.effort)
    (hholds : s.word ≠ .unlocked → w.holds = false) :
    Progresses s ⟨m, s.workers.set i w'⟩ := by
  have hsetEnter := total_set Worker.toEnter hw w'
  have hsetEffort := total_set Worker.effort hw w'
  have hsetStage := total_set Worker.stage hw w'
  have hlength : (s.workers.set i w').length = s.workers.length := List.length_set
  by_cases hfree : s.word = .unlocked
  · have hcloser := heffort hfree
    refine .less (rank_lt_of_rest (by dsimp only; omega) hlength ?_)
    simp only [rest, hm.2 hfree, hfree, if_true]
    omega
  · have hfree' : m.word ≠ .unlocked := fun h => hfree (hm.1 h)
    refine .even ?_ fun j v hv hhelps => ?_
    · have henters : total Worker.toEnter (s.workers.set i w') = total Worker.toEnter s.workers := by
        omega
      have hstages : total Worker.stage (s.workers.set i w') = total Worker.stage s.workers := by
        omega
      simp only [rank, lap, rest, hlength, henters, hstages, hfree, hfree', if_false]
    · simp only [Helps, hfree, hfree', if_false] at hhelps ⊢
      have hij : i ≠ j := fun heq => by
        rw [← heq, hw] at hv
        rw [← Option.some.inj hv, hholds hfree] at hhelps
        cases hhelps
      rw [List.getElem?_set_ne hij]
      exact ⟨hv, hhelps⟩

/-- A worker who takes the lock has one entry less to make. -/
theorem rank_lt_of_entry (hsound : Sound sum s) (hw : s.workers[i]? = some w)
    (hfree : s.word = .unlocked) (htaken : m.word ≠ .unlocked) (hrounds : 0 < w.rounds) :
    rank ⟨m, s.workers.set i (w.goTo .critical)⟩ < s.rank := by
  have hnot := hsound.not_holds hfree (List.mem_of_getElem? hw)
  have hsetEnter := total_set Worker.toEnter hw (w.goTo .critical)
  have hsetStage := total_set Worker.stage hw (w.goTo .critical)
  rw [Worker.toEnter_eq hnot, show (w.goTo .critical).toEnter = w.rounds - 1 from rfl]
    at hsetEnter
  rw [total_stage_of_free hsound hfree, show (w.goTo .critical).stage = 3 from rfl] at hsetStage
  have hlength : (s.workers.set i (w.goTo .critical)).length = s.workers.length := List.length_set
  refine rank_lt_of_enter (by dsimp only; omega) hlength ?_
  simp only [rest, lap, htaken, if_false, hlength]
  omega

/-- A worker who holds the lock comes closer to leaving it, or leaves it. -/
theorem rank_lt_of_stage (hw : s.workers[i]? = some w) (htaken : s.word ≠ .unlocked)
    (henter : w'.toEnter = w.toEnter) (hstage : w'.stage < w.stage) :
    rank ⟨m, s.workers.set i w'⟩ < s.rank := by
  have hsetEnter := total_set Worker.toEnter hw w'
  have hsetStage := total_set Worker.stage hw w'
  have hlength : (s.workers.set i w').length = s.workers.length := List.length_set
  refine rank_lt_of_rest (by dsimp only; omega) hlength ?_
  by_cases hfree : m.word = .unlocked
  · have heffort := total_effort_le (s.workers.set i w')
    simp only [rest, hfree, htaken, if_true, if_false]
    omega
  · simp only [rest, hfree, htaken, if_false]
    omega

theorem progresses_of_turns (hsound : Sound sum s) (hw : s.workers[i]? = some w)
    (hturns : Worker.Turns s.toMutex w m w') : Progresses s ⟨m, s.workers.set i w'⟩ := by
  have hmem := List.mem_of_getElem? hw
  have htaken (hholds : w.holds = true) : s.word ≠ .unlocked := fun hfree => by
    rw [hsound.not_holds hfree hmem] at hholds
    cases hholds
  cases hturns with
  | rest =>
      obtain ⟨hlt, rfl⟩ := List.getElem?_eq_some_iff.1 hw
      rw [List.set_getElem_self]
      exact .refl s
  | ask phase hasks hphase hcloser =>
      have hnot := Worker.not_holds_of_asks hasks
      have hnot' : (w.goTo phase).holds = false := by
        rcases hphase with rfl | ⟨left, rfl | rfl⟩ <;> rfl
      refine progresses_of_effort hw ?_ ?_ Iff.rfl (fun hfree => ?_) fun _ => hnot
      · rw [Worker.toEnter_eq hnot, Worker.toEnter_eq hnot']
        rfl
      · rw [Worker.stage_eq_zero hnot, Worker.stage_eq_zero hnot']
      · rw [Worker.effort_of_not_done (Worker.not_done_of_asks hasks)]
        exact Nat.lt_of_le_of_lt (w.effort_goTo_le phase) (hcloser hfree)
  | enter word hfree hword =>
      have hpos : 0 < w.rounds := by
        have hfits := hsound.fits w hmem
        rcases hword with ⟨hasks, -⟩ | ⟨hphase, -⟩
        · exact Worker.rounds_pos_of_asks hasks hfits
        · simpa [Worker.Fits, hphase] using hfits
      refine .less (rank_lt_of_entry hsound hw hfree ?_ hpos)
      rcases hword with ⟨-, rfl⟩ | ⟨-, rfl⟩ <;> simp
  | mark hphase htaken =>
      refine progresses_of_effort hw ?_ ?_ ?_ (fun hfree => absurd hfree htaken) fun _ => ?_
      all_goals simp [Worker.toEnter, Worker.stage, Worker.holds, Worker.goTo, hphase, htaken]
  | park hphase hmarked =>
      refine progresses_of_effort hw ?_ ?_ Iff.rfl (fun hfree => ?_) fun _ => ?_
      · simp [Worker.toEnter, Worker.goTo, hphase]
      · simp [Worker.stage, Worker.goTo, hphase]
      · rw [hmarked] at hfree
        cases hfree
      · simp [Worker.holds, hphase]
  | read hphase =>
      refine .less (rank_lt_of_stage hw (htaken ?_) ?_ ?_)
      all_goals simp [Worker.toEnter, Worker.stage, Worker.holds, Worker.goTo, hphase]
  | store seen hphase =>
      refine .less (rank_lt_of_stage hw (htaken ?_) ?_ ?_)
      all_goals simp [Worker.toEnter, Worker.stage, Worker.holds, hphase]
  | free hphase =>
      refine .less (rank_lt_of_stage hw (htaken ?_) ?_ ?_)
      all_goals simp [Worker.toEnter, Worker.stage, Worker.holds, Worker.goTo, hphase]
  | freeMarked hphase =>
      refine .less (rank_lt_of_stage hw (htaken ?_) ?_ ?_)
      all_goals simp [Worker.toEnter, Worker.stage, Worker.holds, Worker.goTo, hphase]
  | wake hphase =>
      refine progresses_of_effort hw ?_ ?_ Iff.rfl (fun _ => ?_) fun _ => ?_
      · simp [Worker.toEnter, Worker.goTo, hphase]
      · simp [Worker.stage, Worker.goTo, hphase]
      · have hdone : w.done = false := Worker.not_done_of_phase (by simp [hphase])
        rw [Worker.effort_of_not_done hdone, hphase]
        exact Nat.lt_of_le_of_lt (w.effort_goTo_le .outside) (by simp [Phase.distance])
      · simp [Worker.holds, hphase]

/-- A worker who helps goes on to another phase. -/
theorem moves_of_helps (hsound : Sound sum s) (hw : s.workers[i]? = some w)
    (hturns : Worker.Turns s.toMutex w m w') (hhelps : s.Helps w) : w'.phase ≠ w.phase := by
  have hfreeOf (hholds : w.holds = false) : s.word = .unlocked := by
    by_contra htaken
    simp only [Helps, htaken, if_false, hholds] at hhelps
    cases hhelps
  cases hturns with
  | rest hrests =>
      have hnot : w.holds = false := by
        obtain ⟨task, phase⟩ := w
        cases phase <;> simp_all [Worker.holds, Worker.waits, Worker.done]
      simp only [Helps, hfreeOf hnot, if_true] at hhelps
      rcases hrests with hwaits | hdone
      · rw [hhelps.1] at hwaits
        cases hwaits
      · rw [hhelps.2] at hdone
        cases hdone
  | ask phase hasks hphase hcloser =>
      intro hsame
      have hlt := hcloser (hfreeOf (Worker.not_holds_of_asks hasks))
      rw [← hsame] at hlt
      exact Nat.lt_irrefl _ hlt
  | enter word hfree hword =>
      have hnot := hsound.not_holds hfree (List.mem_of_getElem? hw)
      intro hsame
      simp only [Worker.holds, ← hsame, Worker.goTo] at hnot
      cases hnot
  | mark hphase => simp [Worker.goTo, hphase]
  | park hphase => simp [Worker.goTo, hphase]
  | read hphase => simp [Worker.goTo, hphase]
  | store seen hphase => simp [hphase]
  | free hphase => simp [Worker.goTo, hphase]
  | freeMarked hphase => simp [Worker.goTo, hphase]
  | wake hphase => simp [Worker.goTo, hphase]

/-- The step of a worker who helps leaves less to do. -/
theorem rank_lt_of_helps (hsound : Sound sum s) (hw : s.workers[i]? = some w)
    (hturns : Worker.Turns s.toMutex w m w') (hhelps : s.Helps w) :
    rank ⟨m, s.workers.set i w'⟩ < s.rank := by
  cases progresses_of_turns hsound hw hturns with
  | less hless => exact hless
  | even _ hkeeps =>
      have hsame : w' = w := by
        simpa [List.getElem?_set_self', hw] using (hkeeps i w hw hhelps).1
      exact absurd (congrArg Worker.phase hsame) (moves_of_helps hsound hw hturns hhelps)

end Turns

/-! ### One step of all -/

theorem progresses_unpark (s : Contest) (i : Nat) : Progresses s (s.unpark i) := by
  rcases unpark_cases s i with hsame | ⟨w, hw, hwaits, hnext⟩
  · rw [hsame]
    exact .refl s
  · have hphase : w.phase = .parked := by simpa [Worker.waits] using hwaits
    rw [hnext]
    refine progresses_of_effort hw ?_ ?_ Iff.rfl (fun _ => ?_) fun _ => ?_
    · simp [Worker.toEnter, Worker.goTo, hphase]
    · simp [Worker.stage, Worker.goTo, hphase]
    · have hdone : w.done = false := Worker.not_done_of_phase (by simp [hphase])
      rw [Worker.effort_of_not_done hdone, hphase]
      exact Nat.lt_of_le_of_lt (w.effort_goTo_le .mark) (by simp [Phase.distance])
    · simp [Worker.holds, hphase]

/-- A step of worker `i` is a step at the mutex after its wake call, if it makes one. -/
theorem advance_eq (hw : s.workers[i]? = some w) (woken : Nat) :
    ∃ s₁ : Contest, s₁.toMutex = s.toMutex ∧ s₁.workers[i]? = some w ∧
      (s₁ = s ∨ s₁ = s.unpark woken) ∧ s.advance i woken = s₁.settle i (w.turn s₁.toMutex) := by
  by_cases hwake : w.phase = .wake
  · refine ⟨s.unpark woken, rfl, unpark_getElem? hw (by simp [Worker.waits, hwake]) woken,
      .inr rfl, ?_⟩
    simp [advance, hw, hwake]
  · refine ⟨s, rfl, hw, .inl rfl, ?_⟩
    simp [advance, hw, hwake]

theorem progresses_advance (hsound : Sound sum s) (i woken : Nat) :
    Progresses s (s.advance i woken) := by
  cases hw : s.workers[i]? with
  | none =>
      rw [advance, hw]
      exact .refl s
  | some w =>
      obtain ⟨s₁, -, hw₁, hbefore, hnext⟩ := advance_eq hw woken
      rw [hnext]
      rcases hbefore with rfl | rfl
      · exact progresses_of_turns hsound hw₁ (Worker.turns_turn w _)
      · exact (progresses_unpark s woken).trans
          (progresses_of_turns (hsound.unpark woken) hw₁ (Worker.turns_turn w _))

theorem progresses_step (hsound : Sound sum s) (hstep : Step s s') : Progresses s s' := by
  cases hstep with
  | go i woken => exact progresses_advance hsound i woken
  | spurious i => exact progresses_unpark s i

theorem rank_advance_lt (hsound : Sound sum s) (hw : s.workers[i]? = some w)
    (hhelps : s.Helps w) (woken : Nat) : (s.advance i woken).rank < s.rank := by
  obtain ⟨s₁, hmutex, hw₁, hbefore, hnext⟩ := advance_eq hw woken
  have hhelps₁ : s₁.Helps w := by
    rw [Helps, hmutex]
    exact hhelps
  rw [hnext]
  rcases hbefore with rfl | rfl
  · exact rank_lt_of_helps hsound hw₁ (Worker.turns_turn w _) hhelps₁
  · exact Nat.lt_of_lt_of_le
      (rank_lt_of_helps (hsound.unpark woken) hw₁ (Worker.turns_turn w _) hhelps₁)
      (progresses_unpark s woken).le

/-- As long as not all are done, someone can bring them closer to the end. -/
theorem exists_helps (hsound : Sound sum s) (hfinished : s.finished = false) :
    ∃ (i : Nat) (w : Worker), s.workers[i]? = some w ∧ s.Helps w := by
  suffices hmem : ∃ w ∈ s.workers, s.Helps w by
    obtain ⟨w, hw, hhelps⟩ := hmem
    obtain ⟨i, hi⟩ := List.mem_iff_getElem?.1 hw
    exact ⟨i, w, hi, hhelps⟩
  by_cases hfree : s.word = .unlocked
  · obtain ⟨w, hw, hdone⟩ : ∃ w ∈ s.workers, w.done = false := by
      simpa [finished] using hfinished
    cases hwaits : w.waits with
    | false => exact ⟨w, hw, by simp [Helps, hfree, hwaits, hdone]⟩
    | true =>
        -- The lock is free and someone waits, so someone is on the way.
        rcases hsound.roused (count_pos hw hwaits) with hmarked | hrouses
        · rw [hfree] at hmarked
          cases hmarked
        · obtain ⟨v, hv, hrouses⟩ := exists_of_count_pos hrouses
          refine ⟨v, hv, ?_⟩
          rcases (by simpa [Worker.rouses] using hrouses : v.phase = .wake ∨ v.phase = .mark)
            with hphase | hphase <;> simp [Helps, hfree, Worker.waits, Worker.done, hphase]
  · have hholder := hsound.holders
    rw [if_neg hfree] at hholder
    obtain ⟨w, hw, hholds⟩ := exists_of_count_pos (hholder ▸ Nat.one_pos)
    exact ⟨w, hw, by simp [Helps, hfree, hholds]⟩

/-! ### Fair runs -/

/-- The worker can take a step that does something. -/
def Ready (s : Contest) (i : Nat) : Prop :=
  ∃ w, s.workers[i]? = some w ∧ w.waits = false ∧ w.done = false

/-- From one state to the next worker `i` takes a step. -/
def Moves (s : Contest) (i : Nat) (s' : Contest) : Prop :=
  ∃ woken, s.Reaches woken ∧ s' = s.advance i woken

/-- An endless run: from each state to the next there is a step, and a worker who could take a
step from some time on does so at some time. -/
structure FairRun (run : Nat → Contest) : Prop where
  step (n : Nat) : Step (run n) (run (n + 1))
  fair (i n : Nat) (hready : ∀ k, n ≤ k → (run k).Ready i) :
    ∃ k, n ≤ k ∧ (run k).Moves i (run (k + 1))

theorem Helps.ready (hw : s.workers[i]? = some w) (hhelps : s.Helps w) : s.Ready i := by
  refine ⟨w, hw, ?_⟩
  by_cases hfree : s.word = .unlocked
  · simpa [Helps, hfree] using hhelps
  · have hholds : w.holds = true := by simpa [Helps, hfree] using hhelps
    obtain ⟨task, phase⟩ := w
    cases phase <;> simp_all [Worker.holds, Worker.waits, Worker.done]

namespace FairRun

variable {run : Nat → Contest}

theorem sound (hrun : FairRun run) (hsound : Sound sum (run 0)) (n : Nat) : Sound sum (run n) := by
  induction n with
  | zero => exact hsound
  | succ n ih => exact ih.step (hrun.step n)

/-- Before all are done there comes a time at which less is left to do. -/
theorem exists_rank_lt (hrun : FairRun run) (hsound : Sound sum (run 0)) (n : Nat)
    (hfinished : (run n).finished = false) : ∃ k, (run k).rank < (run n).rank := by
  obtain ⟨i, w, hw, hhelps⟩ := exists_helps (hrun.sound hsound n) hfinished
  by_contra hnever
  -- Otherwise the worker could help for ever without taking a step.
  have hkeeps (d : Nat) : (run (n + d)).rank = (run n).rank ∧
      (run (n + d)).workers[i]? = some w ∧ (run (n + d)).Helps w := by
    induction d with
    | zero => exact ⟨rfl, hw, hhelps⟩
    | succ d ih =>
        obtain ⟨hrank, hw', hhelps'⟩ := ih
        cases progresses_step (hrun.sound hsound (n + d)) (hrun.step (n + d)) with
        | less hless => exact absurd ⟨n + d + 1, hrank ▸ hless⟩ hnever
        | even heven hstays => exact ⟨heven.trans hrank, hstays i w hw' hhelps'⟩
  obtain ⟨k, hle, woken, -, hmoves⟩ := hrun.fair i n fun k hle => by
    obtain ⟨d, rfl⟩ := Nat.exists_eq_add_of_le hle
    exact Helps.ready (hkeeps d).2.1 (hkeeps d).2.2
  obtain ⟨d, rfl⟩ := Nat.exists_eq_add_of_le hle
  obtain ⟨hrank, hw', hhelps'⟩ := hkeeps d
  have hless := rank_advance_lt (hrun.sound hsound (n + d)) hw' hhelps' woken
  rw [← hmoves, hrank] at hless
  exact hnever ⟨_, hless⟩

theorem exists_finished (hrun : FairRun run) (hsound : Sound sum (run 0)) :
    ∃ n, (run n).finished = true := by
  suffices hfrom : ∀ bound n, (run n).rank < bound → ∃ k, (run k).finished = true from
    hfrom ((run 0).rank + 1) 0 (Nat.lt_succ_self _)
  intro bound
  induction bound with
  | zero => exact fun n hlt => absurd hlt (Nat.not_lt_zero _)
  | succ bound ih =>
      intro n hlt
      cases hfinished : (run n).finished with
      | true => exact ⟨n, hfinished⟩
      | false =>
          obtain ⟨k, hless⟩ := hrun.exists_rank_lt hsound n hfinished
          exact ih k (by omega)

end FairRun

/-- Those who are done do nothing any more. -/
theorem step_of_finished (hfinished : s.finished = true) (hstep : Step s s') : s' = s := by
  have hdone := finished_iff.1 hfinished
  have hunpark (j : Nat) : s.unpark j = s := by
    rcases unpark_cases s j with hsame | ⟨w, hw, hwaits, -⟩
    · exact hsame
    · have := hdone w (List.mem_of_getElem? hw)
      have hphase : w.phase = .parked := by simpa [Worker.waits] using hwaits
      simp [Worker.done, hphase] at this
  cases hstep with
  | spurious i => exact hunpark i
  | go i woken =>
      cases hw : s.workers[i]? with
      | none => rw [advance, hw]
      | some w =>
          have := hdone w (List.mem_of_getElem? hw)
          obtain ⟨hphase, hrounds⟩ : w.phase = .outside ∧ w.rounds = 0 := by
            simpa [Worker.done] using this
          have hturn : w.turn s.toMutex = (s.toMutex, w) := by simp [Worker.turn, hphase, hrounds]
          obtain ⟨s₁, -, -, hbefore, hnext⟩ := advance_eq hw woken
          obtain rfl : s₁ = s := by
            rcases hbefore with hsame | hsame
            · exact hsame
            · exact hsame.trans (hunpark woken)
          obtain ⟨hlt, rfl⟩ := List.getElem?_eq_some_iff.1 hw
          rw [hnext, hturn, settle, List.set_getElem_self]

theorem FairRun.eq_of_finished {run : Nat → Contest} {n : Nat} (hrun : FairRun run)
    (hfinished : (run n).finished = true) (d : Nat) : run (n + d) = run n := by
  induction d with
  | zero => rfl
  | succ d ih => exact (step_of_finished (ih ▸ hfinished) (hrun.step (n + d))).trans ih

/-! ### Runs in turns -/

theorem reaches_firstParked (s : Contest) : s.Reaches s.firstParked := by
  rintro ⟨j, hj⟩
  obtain ⟨w, hw, hwaits⟩ := isParked_iff.1 hj
  have hlt : s.firstParked < s.workers.length :=
    List.findIdx_lt_length.2 ⟨w, List.mem_of_getElem? hw, hwaits⟩
  exact isParked_iff.2 ⟨_, List.getElem?_eq_getElem hlt, List.findIdx_getElem⟩

theorem step_advance_first (s : Contest) (i : Nat) : Step s (s.advance i s.firstParked) :=
  .go s i s.firstParked (reaches_firstParked s)

theorem length_advance (s : Contest) (i woken : Nat) :
    (s.advance i woken).workers.length = s.workers.length := by
  unfold advance
  split
  · rfl
  · split <;> simp [settle, unpark]

/-- The run in which the workers take their steps in turns. -/
def roundRobin (s : Contest) : Nat → Contest
  | 0 => s
  | n + 1 => (roundRobin s n).advance (n % s.workers.length) (roundRobin s n).firstParked

theorem length_roundRobin (s : Contest) (n : Nat) :
    (roundRobin s n).workers.length = s.workers.length := by
  induction n with
  | zero => rfl
  | succ n ih => rw [roundRobin, length_advance, ih]

theorem fairRun_roundRobin (s : Contest) : FairRun (roundRobin s) where
  step n := step_advance_first _ _
  fair i n hready := by
    obtain ⟨w, hw, -⟩ := hready n (Nat.le_refl n)
    have hlt : i < s.workers.length := by
      rw [← length_roundRobin s n]
      exact (List.getElem?_eq_some_iff.1 hw).1
    refine ⟨s.workers.length * n + i, ?_, _, reaches_firstParked _, ?_⟩
    · have := Nat.le_mul_of_pos_left n (Nat.zero_lt_of_lt hlt)
      omega
    · rw [roundRobin, Nat.mul_add_mod, Nat.mod_eq_of_lt hlt]

theorem length_pass (s : Contest) (workers : List Nat) :
    (s.pass workers).workers.length = s.workers.length := by
  induction workers generalizing s with
  | nil => rfl
  | cons i rest ih => exact (ih _).trans (length_advance s i _)

theorem length_passes (s : Contest) (workers : List Nat) (n : Nat) :
    (s.passes workers n).workers.length = s.workers.length := by
  induction n generalizing s with
  | zero => rfl
  | succ n ih =>
      unfold Contest.passes
      split
      · rfl
      · exact (ih _).trans (length_pass s workers)

namespace Sound

variable {workers : List Nat}

theorem pass (hsound : Sound sum s) (workers : List Nat) : Sound sum (s.pass workers) := by
  induction workers generalizing s with
  | nil => exact hsound
  | cons i rest ih => exact ih (hsound.step (step_advance_first s i))

theorem passes (hsound : Sound sum s) (workers : List Nat) (n : Nat) :
    Sound sum (s.passes workers n) := by
  induction n generalizing s with
  | zero => exact hsound
  | succ n ih =>
      unfold Contest.passes
      split
      · exact hsound
      · exact ih (hsound.pass workers)

theorem rank_pass_le (hsound : Sound sum s) (workers : List Nat) :
    (s.pass workers).rank ≤ s.rank := by
  induction workers generalizing s with
  | nil => exact Nat.le_refl _
  | cons i rest ih =>
      have hstep := step_advance_first s i
      exact Nat.le_trans (ih (hsound.step hstep)) (progresses_step hsound hstep).le

theorem rank_passes_le (hsound : Sound sum s) (workers : List Nat) (n : Nat) :
    (s.passes workers n).rank ≤ s.rank := by
  induction n generalizing s with
  | zero => exact Nat.le_refl _
  | succ n ih =>
      unfold Contest.passes
      split
      · exact Nat.le_refl _
      · exact Nat.le_trans (ih (hsound.pass workers)) (hsound.rank_pass_le workers)

/-- A pass with someone in it who helps leaves less to do. -/
theorem rank_pass_lt (hsound : Sound sum s) (hw : s.workers[i]? = some w) (hhelps : s.Helps w)
    (hmem : i ∈ workers) : (s.pass workers).rank < s.rank := by
  induction workers generalizing s with
  | nil => cases hmem
  | cons j rest ih =>
      have hstep := step_advance_first s j
      have hrest := (hsound.step hstep).rank_pass_le rest
      by_cases hij : i = j
      · subst hij
        exact Nat.lt_of_le_of_lt hrest (rank_advance_lt hsound hw hhelps _)
      · cases progresses_step hsound hstep with
        | less hless => exact Nat.lt_of_le_of_lt hrest hless
        | even hrank hkeeps =>
            obtain ⟨hw', hhelps'⟩ := hkeeps i w hw hhelps
            have hlt := ih (hsound.step hstep) hw' hhelps'
              (List.mem_of_ne_of_mem hij hmem)
            exact hrank ▸ hlt

/-- Passes over all workers, as many as is left to do, bring them all to the end. -/
theorem finished_passes (hsound : Sound sum s) (workers : List Nat)
    (hall : ∀ i < s.workers.length, i ∈ workers) (n : Nat) (hrank : s.rank ≤ n) : (s.passes workers n).finished = true := by
  induction n generalizing s with
  | zero =>
      cases hfinished : s.finished with
      | true => exact hfinished
      | false =>
          obtain ⟨i, w, hw, hhelps⟩ := exists_helps hsound hfinished
          have hlt := rank_advance_lt hsound hw hhelps 0
          omega
  | succ n ih =>
      unfold Contest.passes
      cases hfinished : s.finished with
      | true => exact hfinished
      | false =>
          obtain ⟨i, w, hw, hhelps⟩ := exists_helps hsound hfinished
          have hlt := hsound.rank_pass_lt hw hhelps
            (hall i (List.getElem?_eq_some_iff.1 hw).1)
          refine ih (hsound.pass workers) (fun i hi => hall i ?_) (by omega)
          rwa [length_pass] at hi

end Sound

/-! ### The queue of waiters -/

theorem reachable_start (waiters rounds : Nat) :
    Reachable (queue waiters rounds) (start waiters rounds) := by
  refine .step .fresh (.go _ 0 0 ?_)
  rintro ⟨j, hj⟩
  obtain ⟨w, hw, hwaits⟩ := isParked_iff.1 hj
  obtain ⟨task, -, rfl⟩ := List.mem_map.1 (List.mem_of_getElem? hw)
  cases hwaits

/-- How often the workers are to enter in all. -/
def entries (tasks : List Task) : Nat := total Task.rounds tasks

theorem rank_fresh_le (tasks : List Task) :
    (fresh tasks).rank ≤ (entries tasks + 1) * (3 * tasks.length + 4) := by
  have henter : total Worker.toEnter (fresh tasks).workers = entries tasks := total_fresh _ tasks
  have hlength : (fresh tasks).workers.length = tasks.length := List.length_map _
  have heffort := total_effort_le (fresh tasks).workers
  have hrest : (fresh tasks).rest = total Worker.effort (fresh tasks).workers := rfl
  rw [rank, henter, lap, hlength, hrest, Nat.add_one_mul (entries tasks)]
  omega

theorem entries_queue (waiters rounds : Nat) :
    entries (queue waiters rounds) = waiters * rounds + 1 := by
  have hothers : total (fun _ => rounds) (List.range waiters) = waiters * rounds := by
    induction waiters with
    | zero => simp
    | succ waiters ih => simp [List.range_succ, total_append, ih, Nat.succ_mul]
  rw [queue, entries, total_cons, total_map, hothers, Nat.add_comm]

theorem additions_queue (waiters rounds : Nat) :
    additions (queue waiters rounds) = rounds * (waiters * (waiters + 1) / 2) := by
  have hothers : total (fun i => rounds * (i + 1)) (List.range waiters) =
      rounds * (waiters * (waiters + 1) / 2) := by
    induction waiters with
    | zero => simp
    | succ waiters ih =>
        have hnext : (waiters + 1) * (waiters + 1 + 1) / 2 =
            waiters * (waiters + 1) / 2 + (waiters + 1) := by
          rw [← Nat.add_mul_div_right _ _ Nat.two_pos]
          congr 1
          ring
        rw [List.range_succ, total_append, ih, hnext]
        exact (Nat.mul_add rounds _ _).symm
  rw [queue, additions, total_cons, total_map, hothers, Nat.mul_zero, Nat.zero_add]

/-- The waiters at a lock that is held come to the end in turns, and nothing they add is lost. -/
theorem finalValue?_eq (waiters rounds : Nat) :
    finalValue? waiters rounds = some (rounds * (waiters * (waiters + 1) / 2)) := by
  have hfresh := sound_fresh (queue waiters rounds)
  have hstart := (reachable_start waiters rounds).sound
  have hlength : (start waiters rounds).workers.length = waiters + 1 := by
    rw [start, length_advance]
    simp [fresh, queue]
  generalize hothers : (List.range waiters).map (· + 1) = others
  have hall : ∀ i < waiters + 1, i ∈ 0 :: others := by
    intro i hi
    subst hothers
    cases i with
    | zero => exact List.mem_cons_self
    | succ i => exact List.mem_cons_of_mem _ (List.mem_map_of_mem (List.mem_range.2 (by omega)))
  have hwaiting := hstart.passes others (spinLimit + 4)
  have hrank : ((start waiters rounds).passes others (spinLimit + 4)).rank ≤
      (waiters * rounds + 2) * (3 * (waiters + 1) + 4) := by
    calc ((start waiters rounds).passes others (spinLimit + 4)).rank
        ≤ (start waiters rounds).rank := hstart.rank_passes_le others _
      _ ≤ (fresh (queue waiters rounds)).rank := (progresses_advance hfresh 0 0).le
      _ ≤ (entries (queue waiters rounds) + 1) * (3 * (queue waiters rounds).length + 4) :=
          rank_fresh_le _
      _ = (waiters * rounds + 2) * (3 * (waiters + 1) + 4) := by
          rw [entries_queue]
          simp [queue]
  have hfinished := hwaiting.finished_passes (0 :: others)
    (by rwa [length_passes, hlength]) _ hrank
  have hvalue := (hwaiting.passes (0 :: others) _).value_of_finished hfinished
  rw [finalValue?, hothers]
  simp only [hfinished, if_true, hvalue, additions_queue]

/-- However the steps of the workers at a mutex interleave, at most one of them is between its
lock and its unlock, and while the lock is free and nobody is on the way to it or out of it,
nobody waits.  In a run in which no worker is passed over for ever all are done at some time, and
all they added is in the value; so the waiters at a lock that is held leave the sum of all they
add. -/
theorem lock_excludes_and_wakes :
    (∀ (tasks : List Task) (s : Contest), Reachable tasks s →
      (∀ (i j : Nat) (v w : Worker), s.workers[i]? = some v → s.workers[j]? = some w →
        v.holds = true → w.holds = true → i = j) ∧
      (s.word = .unlocked → (∀ w ∈ s.workers, w.active = false) →
        ∀ i, s.isParked i = false)) ∧
    (∀ (tasks : List Task) (run : Nat → Contest), Reachable tasks (run 0) → FairRun run →
      ∃ n, ∀ k, n ≤ k → (run k).finished = true ∧ (run k).value = additions tasks) ∧
    ∀ waiters rounds : Nat, Reachable (queue waiters rounds) (start waiters rounds) ∧
      additions (queue waiters rounds) = rounds * (waiters * (waiters + 1) / 2) ∧
      finalValue? waiters rounds = some (rounds * (waiters * (waiters + 1) / 2)) := by
  refine ⟨fun tasks s hreachable => ?_, fun tasks run hreachable hrun => ?_,
    fun waiters rounds => ?_⟩
  · have hsound := hreachable.sound
    exact ⟨fun i j v w hv hw => hsound.holder_unique hv hw, hsound.not_parked⟩
  · have hsound := hreachable.sound
    obtain ⟨n, hfinished⟩ := hrun.exists_finished hsound
    refine ⟨n, fun k hk => ?_⟩
    obtain ⟨d, rfl⟩ := Nat.exists_eq_add_of_le hk
    have hsame : run (n + d) = run n := hrun.eq_of_finished hfinished d
    rw [hsame]
    exact ⟨hfinished, (hrun.sound hsound n).value_of_finished hfinished⟩
  · exact ⟨reachable_start waiters rounds, additions_queue waiters rounds,
      finalValue?_eq waiters rounds⟩

theorem lock_excludes_and_wakes_in_turns :
    (∀ (j : Nat) (w : Worker), (start 2 3).workers[j]? = some w → w.holds = true → 0 = j) ∧
    (∀ i, (fresh (queue 2 3)).isParked i = false) ∧
    ∃ n, ∀ k, n ≤ k → (roundRobin (start 2 3) k).finished = true ∧
      (roundRobin (start 2 3) k).value = 9 := by
  refine ⟨fun j w hw => ?_, ?_, ?_⟩
  · exact (lock_excludes_and_wakes.1 _ _ (reachable_start 2 3)).1 0 j ⟨⟨1, 0⟩, .critical⟩ w rfl
      hw rfl
  · exact (lock_excludes_and_wakes.1 _ _ (.fresh : Reachable (queue 2 3) _)).2 rfl (by decide)
  · exact lock_excludes_and_wakes.2.1 (queue 2 3) (roundRobin (start 2 3)) (reachable_start 2 3)
      (fairRun_roundRobin (start 2 3))

end Contest
end PagedHeap
