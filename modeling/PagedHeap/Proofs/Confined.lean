import Mathlib.Order.Defs.Unbundled
import PagedHeap.Proofs.Action

/-!
# What an action cannot do

Some things hold of an operation in any state, a broken one not excepted: there are parts of the
state that it never writes to, and reasons for which it never ends the process.
`Action.Confined R P` says that of an action, and there is a rule for every way in which actions
are put together.
-/

namespace PagedHeap
namespace Action

variable {σ τ α β : Type}

/-- Whatever the state, what an answer leaves is related to it by `R`, and an ending is in `P`. -/
def Confined (R : σ → σ → Prop) (P : Ending → Prop) (action : Action σ α) : Prop :=
  ∀ s, Ensures action s (fun _ s' => R s s') (fun e _ => P e)

/-- Answers are related to the state before. -/
def Leaves (R : σ → σ → Prop) (action : Action σ α) : Prop := Confined R (fun _ => True) action

/-- Endings are of a kind. -/
def EndsIn (P : Ending → Prop) (action : Action σ α) : Prop := Confined (fun _ _ => True) P action

section Rules

variable {R : σ → σ → Prop} {P : Ending → Prop} {action : Action σ α}

theorem Confined.of_ok {s s' : σ} {a : α} (h : Confined R P action) (hrun : action s = .ok a s') :
    R s s' :=
  (h s).of_ok hrun

theorem confined_pure [Std.Refl R] (a : α) : Confined R P (pure a : Action σ α) :=
  fun s => .answer (Std.Refl.refl s)

theorem Confined.bind {next : α → Action σ β} [IsTrans σ R] (h : Confined R P action)
    (hnext : ∀ a, Confined R P (next a)) : Confined R P (action >>= next) := by
  intro s
  rw [ensures_bind]
  apply (h s).imp
  intro a s₁ hfirst
  exact (hnext a s₁).imp fun _ _ hsecond => IsTrans.trans _ _ _ hfirst hsecond

theorem Confined.map (h : Confined R P action) (f : α → β) : Confined R P (f <$> action) := by
  intro s
  rw [ensures_map]
  exact h s

theorem confined_get [Std.Refl R] : Confined R P (get : Action σ σ) :=
  fun s => ensures_get.2 (Std.Refl.refl s)

theorem confined_modify {f : σ → σ} (hf : ∀ s, R s (f s)) :
    Confined R P (modify f : Action σ PUnit) :=
  fun s => ensures_modify.2 (hf s)

theorem confined_transition {step : σ → α × σ} (hstep : ∀ s, R s (step s).2) :
    Confined R P (transition step) :=
  fun s => ensures_transition.2 (hstep s)

theorem confined_halt {e : Ending} (he : P e) : Confined R P (halt e : Action σ α) :=
  fun _ => ensures_halt.2 he

theorem confined_checked [Std.Refl R] (he : P (.violated .arithmetic)) (n? : Option Nat) :
    Confined R P (checked n? : Action σ Nat) := by
  cases n? with
  | some n => exact confined_pure n
  | none => exact confined_halt he

theorem confined_require [Std.Refl R] {check : Violation} (he : P (.violated check))
    (condition : Bool) : Confined R P (require check condition : Action σ Unit) := by
  cases condition with
  | true => exact confined_pure ()
  | false => exact confined_halt he

theorem Confined.onlyIf {action : Action σ Unit} [Std.Refl R] (h : Confined R P action)
    (condition : Bool) : Confined R P (onlyIf condition action) := by
  cases condition with
  | true => exact h
  | false => exact confined_pure ()

theorem Confined.ite {p : Prop} [Decidable p] {other : Action σ α} (h : Confined R P action)
    (hother : Confined R P other) : Confined R P (if p then action else other) := by
  split
  · exact h
  · exact hother

/-- Work on a part is confined by what the part is. -/
theorem Confined.within {f : Focus σ τ} {R' : τ → τ → Prop} {action : Action τ α}
    (h : Confined R' P action) (hlift : ∀ s t, R' (f.read s) t → R s (f.write t s)) :
    Confined R P (within f action) := by
  intro s
  rw [ensures_within]
  exact (h (f.read s)).imp fun _ t hpart => hlift s t hpart

end Rules

section Endings

variable {P : Ending → Prop} {action : Action σ α}

instance : Std.Refl fun _ _ : σ => True := ⟨fun _ => trivial⟩

instance : IsTrans σ fun _ _ => True := ⟨fun _ _ _ _ _ => trivial⟩

theorem endsIn_pure (a : α) : EndsIn P (pure a : Action σ α) := confined_pure a

theorem EndsIn.bind {next : α → Action σ β} (h : EndsIn P action)
    (hnext : ∀ a, EndsIn P (next a)) : EndsIn P (action >>= next) :=
  Confined.bind h hnext

theorem EndsIn.within {f : Focus σ τ} {action : Action τ α} (h : EndsIn P action) :
    EndsIn P (within f action) :=
  Confined.within h fun _ _ _ => trivial

theorem endsIn_get : EndsIn P (get : Action σ σ) := confined_get

theorem endsIn_modify {f : σ → σ} : EndsIn P (modify f : Action σ PUnit) :=
  confined_modify fun _ => trivial

theorem endsIn_set {t : σ} : EndsIn P (set t : Action σ PUnit) :=
  fun _ => ensures_set.2 trivial

theorem endsIn_transition {step : σ → α × σ} : EndsIn P (transition step) :=
  confined_transition fun _ => trivial

theorem endsIn_checked (he : P (.violated .arithmetic)) (n? : Option Nat) :
    EndsIn P (checked n? : Action σ Nat) :=
  confined_checked he n?

theorem endsIn_require {check : Violation} (he : P (.violated check)) (condition : Bool) :
    EndsIn P (require check condition : Action σ Unit) :=
  confined_require he condition

theorem EndsIn.onlyIf {action : Action σ Unit} (h : EndsIn P action) (condition : Bool) :
    EndsIn P (onlyIf condition action) :=
  Confined.onlyIf h condition

end Endings

/-- Any relation allows what any action does to a part that it does not look at. -/
theorem leaves_within {f : Focus σ τ} {R : σ → σ → Prop} (hwrite : ∀ s t, R s (f.write t s))
    (action : Action τ α) : Leaves R (within f action) := by
  have hany : Leaves (fun _ _ => True) action :=
    fun _ => .of_all (fun _ _ => trivial) fun _ _ => trivial
  exact hany.within fun s t _ => hwrite s t

end Action
end PagedHeap
