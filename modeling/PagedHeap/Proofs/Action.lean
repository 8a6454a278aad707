import PagedHeap.Kernel.Report

/-!
# What an action ensures

`Action.Ensures action s post ends` says how a computation that starts in `s` comes out:
if it answers, `post` holds of the answer and of the state it leaves, and if it ends the
process, `ends` allows that ending.  An action that ensures something with `Action.never`
always answers.

The rules below take an action apart along its own text, one for every way in which
actions are put together, so that a proof about an operation is left with what its parts
ensure.
-/

namespace PagedHeap
namespace Action

variable {σ τ α β : Type}

/-- The action answers as `post` says, or ends the process as `ends` allows. -/
structure Ensures (action : Action σ α) (s : σ) (post : α → σ → Prop)
    (ends : Ending → σ → Prop) : Prop where
  outcome : match action s with
    | .ok a s' => post a s'
    | .error e s' => ends e s'

theorem ensures_iff {action : Action σ α} {s : σ} {post : α → σ → Prop}
    {ends : Ending → σ → Prop} : Ensures action s post ends ↔
      match action s with
      | .ok a s' => post a s'
      | .error e s' => ends e s' :=
  ⟨Ensures.outcome, Ensures.mk⟩

/-- No ending is allowed. -/
def never (_ : Ending) (_ : σ) : Prop := False

instance decidableNever (e : Ending) (s : σ) : Decidable (never e s) :=
  inferInstanceAs (Decidable False)

/-- What an action ensures of a state can be seen by running it there. -/
instance decidableEnsures {action : Action σ α} {s : σ} {post : α → σ → Prop}
    {ends : Ending → σ → Prop} [∀ a s', Decidable (post a s')] [∀ e s', Decidable (ends e s')] :
    Decidable (Ensures action s post ends) :=
  match hrun : action s with
  | .ok a s' => decidable_of_iff (post a s') (by rw [ensures_iff, hrun])
  | .error e s' => decidable_of_iff (ends e s') (by rw [ensures_iff, hrun])

/-- What is ensured is ensured in any weaker form. -/
theorem Ensures.mono {action : Action σ α} {s : σ} {post post' : α → σ → Prop}
    {ends ends' : Ending → σ → Prop} (h : Ensures action s post ends)
    (hpost : ∀ a s', post a s' → post' a s') (hends : ∀ e s', ends e s' → ends' e s') :
    Ensures action s post' ends' := by
  have hout := h.outcome
  constructor
  cases hrun : action s with
  | ok a s' =>
      rw [hrun] at hout
      exact hpost a s' hout
  | error e s' =>
      rw [hrun] at hout
      exact hends e s' hout

/-- An action that ends the process as allowed still does if less is said of its answers. -/
theorem Ensures.imp {action : Action σ α} {s : σ} {post post' : α → σ → Prop}
    {ends : Ending → σ → Prop} (h : Ensures action s post ends)
    (hpost : ∀ a s', post a s' → post' a s') : Ensures action s post' ends :=
  h.mono hpost fun _ _ hends => hends

/-- What is said of answers only may be weakened without regard to endings. -/
theorem Ensures.answers {action : Action σ α} {s : σ} {post post' : α → σ → Prop}
    {ends : Ending → σ → Prop} (h : Ensures action s post ends)
    (hpost : ∀ a s', post a s' → post' a s') : Ensures action s post' fun _ _ => True :=
  h.mono hpost fun _ _ _ => trivial

/-- An action that always answers may stand wherever endings are allowed. -/
theorem Ensures.weaken {action : Action σ α} {s : σ} {post post' : α → σ → Prop}
    {ends : Ending → σ → Prop} (h : Ensures action s post never)
    (hpost : ∀ a s', post a s' → post' a s') : Ensures action s post' ends :=
  h.mono hpost fun _ _ hnever => hnever.elim

/-- An action that always answers has an answer. -/
theorem Ensures.exists_ok {action : Action σ α} {s : σ} {post : α → σ → Prop}
    (h : Ensures action s post never) : ∃ a s', action s = .ok a s' ∧ post a s' := by
  have hout := h.outcome
  cases hrun : action s with
  | ok a s' =>
      rw [hrun] at hout
      exact ⟨a, s', rfl, hout⟩
  | error e s' =>
      rw [hrun] at hout
      exact hout.elim

/-- What two proofs ensure is ensured at once. -/
theorem Ensures.and {action : Action σ α} {s : σ} {post post' : α → σ → Prop}
    {ends ends' : Ending → σ → Prop} (h : Ensures action s post ends)
    (h' : Ensures action s post' ends') :
    Ensures action s (fun a s' => post a s' ∧ post' a s') (fun e s' => ends e s' ∧ ends' e s') := by
  have hout := h.outcome
  have hout' := h'.outcome
  constructor
  cases hrun : action s with
  | ok a s' =>
      rw [hrun] at hout hout'
      exact ⟨hout, hout'⟩
  | error e s' =>
      rw [hrun] at hout hout'
      exact ⟨hout, hout'⟩

/-- What holds of all answers and of all endings is ensured. -/
theorem Ensures.of_all {action : Action σ α} {s : σ} {post : α → σ → Prop}
    {ends : Ending → σ → Prop} (hpost : ∀ a s', post a s') (hends : ∀ e s', ends e s') :
    Ensures action s post ends := by
  constructor
  cases action s with
  | ok a s' => exact hpost a s'
  | error e s' => exact hends e s'

/-- What is ensured may speak of the run that ended there. -/
theorem Ensures.with_run {action : Action σ α} {s : σ} {post : α → σ → Prop}
    {ends : Ending → σ → Prop} (h : Ensures action s post ends) :
    Ensures action s (fun a s' => action s = .ok a s' ∧ post a s') ends := by
  have hout := h.outcome
  constructor
  cases hrun : action s with
  | ok a s' =>
      rw [hrun] at hout
      exact ⟨rfl, hout⟩
  | error e s' =>
      rw [hrun] at hout
      exact hout

theorem Ensures.of_ok {action : Action σ α} {s s' : σ} {a : α} {post : α → σ → Prop}
    {ends : Ending → σ → Prop} (h : Ensures action s post ends)
    (hrun : action s = .ok a s') : post a s' := by
  have hout := h.outcome
  rw [hrun] at hout
  exact hout

theorem Ensures.of_error {action : Action σ α} {s s' : σ} {e : Ending}
    {post : α → σ → Prop} {ends : Ending → σ → Prop} (h : Ensures action s post ends)
    (hrun : action s = .error e s') : ends e s' := by
  have hout := h.outcome
  rw [hrun] at hout
  exact hout

variable {s : σ} {ends : Ending → σ → Prop}

@[simp] theorem ensures_pure {a : α} {post : α → σ → Prop} :
    Ensures (pure a) s post ends ↔ post a s := ensures_iff

theorem Ensures.answer {a : α} {post : α → σ → Prop} (h : post a s) :
    Ensures (pure a) s post ends := ensures_pure.2 h

/-- What comes first ensures that what comes next ensures the rest. -/
@[simp] theorem ensures_bind {action : Action σ α} {next : α → Action σ β}
    {post : β → σ → Prop} :
    Ensures (action >>= next) s post ends ↔
      Ensures action s (fun a s' => Ensures (next a) s' post ends) ends := by
  rw [ensures_iff, ensures_iff]
  simp only [bind, EStateM.bind]
  cases action s with
  | ok a s' => exact ensures_iff.symm
  | error e s' => exact Iff.rfl

@[simp] theorem ensures_map {action : Action σ α} {f : α → β} {post : β → σ → Prop} :
    Ensures (f <$> action) s post ends ↔
      Ensures action s (fun a s' => post (f a) s') ends := by
  rw [map_eq_pure_bind, ensures_bind]
  simp only [ensures_pure]

/-- What comes after a look at the state starts in that state. -/
theorem get_bind_apply (next : σ → Action σ β) (s : σ) : (get >>= next) s = next s s := rfl

@[simp] theorem ensures_get {post : σ → σ → Prop} :
    Ensures (get : Action σ σ) s post ends ↔ post s s := ensures_iff

@[simp] theorem ensures_set {t : σ} {post : PUnit → σ → Prop} :
    Ensures (set t : Action σ PUnit) s post ends ↔ post ⟨⟩ t := ensures_iff

@[simp] theorem ensures_modify {f : σ → σ} {post : PUnit → σ → Prop} :
    Ensures (modify f : Action σ PUnit) s post ends ↔ post ⟨⟩ (f s) := ensures_iff

/-- Work on a part ensures what it ensures of the part, put back into its place. -/
@[simp] theorem ensures_within {f : Focus σ τ} {action : Action τ α} {post : α → σ → Prop} :
    Ensures (within f action) s post ends ↔
      Ensures action (f.read s) (fun a t => post a (f.write t s))
        (fun e t => ends e (f.write t s)) := by
  rw [ensures_iff, ensures_iff]
  simp only [within]
  cases action (f.read s) with
  | ok a t => exact Iff.rfl
  | error e t => exact Iff.rfl

/-- Work on a part that is answered leaves the rest as it was. -/
theorem exists_of_within {f : Focus σ τ} {action : Action τ α} {s' : σ} {a : α}
    (hrun : within f action s = .ok a s') :
    ∃ t, action (f.read s) = .ok a t ∧ s' = f.write t s := by
  unfold within at hrun
  cases hpart : action (f.read s) with
  | ok b t =>
      rw [hpart] at hrun
      cases hrun
      exact ⟨t, rfl, rfl⟩
  | error e t =>
      rw [hpart] at hrun
      exact absurd hrun (by simp)

/-- One action after another answers if the first does and then the second. -/
theorem bind_eq_ok_iff {action : Action σ α} {next : α → Action σ β} {s s' : σ} {b : β} :
    (action >>= next) s = .ok b s' ↔ ∃ a t, action s = .ok a t ∧ next a t = .ok b s' := by
  simp only [bind, EStateM.bind]
  cases hfirst : action s with
  | ok a t =>
      refine ⟨fun hnext => ⟨a, t, rfl, hnext⟩, fun hboth => ?_⟩
      obtain ⟨a', t', heq, hnext⟩ := hboth
      obtain ⟨rfl, rfl⟩ := EStateM.Result.ok.inj heq
      exact hnext
  | error e t =>
      refine ⟨fun hnext => (nomatch hnext), fun hboth => ?_⟩
      obtain ⟨a', t', heq, -⟩ := hboth
      cases heq

/-- What is answered was made of an answer. -/
theorem exists_of_map {action : Action σ α} {f : α → β} {s' : σ} {b : β}
    (hrun : (f <$> action) s = .ok b s') : ∃ a, action s = .ok a s' ∧ f a = b := by
  rw [map_eq_pure_bind] at hrun
  simp only [bind, EStateM.bind] at hrun
  cases hpart : action s with
  | ok a t =>
      rw [hpart] at hrun
      cases hrun
      exact ⟨a, rfl, rfl⟩
  | error e t =>
      rw [hpart] at hrun
      exact absurd hrun (by simp)

/-- What is answered can be put into another form. -/
theorem map_of_ok {action : Action σ α} {f : α → β} {s' : σ} {a : α} (hrun : action s = .ok a s') :
    (f <$> action) s = .ok (f a) s' := by
  rw [map_eq_pure_bind]
  simp only [bind, EStateM.bind, hrun]
  rfl

@[simp] theorem ensures_transition {step : σ → α × σ} {post : α → σ → Prop} :
    Ensures (transition step) s post ends ↔ post (step s).1 (step s).2 := ensures_iff

@[simp] theorem ensures_halt {e : Ending} {post : α → σ → Prop} :
    Ensures (halt e) s post ends ↔ ends e s := ensures_iff

@[simp] theorem ensures_checked_some {n : Nat} {post : Nat → σ → Prop} :
    Ensures (checked (some n)) s post ends ↔ post n s := ensures_iff

/-- A check that holds lets the action go on. -/
theorem ensures_require {check : Violation} {condition : Bool} {post : Unit → σ → Prop}
    (holds : condition = true) (h : post () s) :
    Ensures (require check condition) s post ends := by
  rw [holds, require_true, ensures_pure]
  exact h

@[simp] theorem ensures_onlyIf {condition : Bool} {action : Action σ Unit}
    {post : Unit → σ → Prop} :
    Ensures (onlyIf condition action) s post ends ↔
      if condition = true then Ensures action s post ends else post () s := by
  cases condition with
  | true => rw [onlyIf_true, if_pos rfl]
  | false => rw [onlyIf_false, if_neg Bool.false_ne_true, ensures_pure]

@[simp] theorem ensures_ite {p : Prop} [Decidable p] {first second : Action σ α}
    {post : α → σ → Prop} :
    Ensures (if p then first else second) s post ends ↔
      if p then Ensures first s post ends else Ensures second s post ends := by
  by_cases h : p
  · rw [if_pos h, if_pos h]
  · rw [if_neg h, if_neg h]

end Action

@[simp] theorem Kernel.ensures_abort {α : Type} {e : Ending} {k : Kernel}
    {post : α → Kernel → Prop} {ends : Ending → Kernel → Prop} :
    Action.Ensures (Kernel.abort e) k post ends ↔ ends e (k.sendError e.reportText) :=
  Action.ensures_iff

@[simp] theorem Kernel.ensures_corrupted {α : Type} {fault : Corruption} {k : Kernel}
    {post : α → Kernel → Prop} {ends : Ending → Kernel → Prop} :
    Action.Ensures (Kernel.corrupted fault) k post ends ↔
      ends (.corrupted fault) (k.sendError (Ending.corrupted fault).reportText) :=
  Kernel.ensures_abort

end PagedHeap
