import PagedHeap.Fault

/-!
# Actions

An action reads and changes a state and either answers or ends the process.  The
state survives an ending, so what was written and which calls were made up to that
point stay visible.

Every layer of the library acts on a state of its own.  A `Focus` says where the
state of a lower layer sits inside a higher one, and `Action.within` runs the lower
action there; the rest of the higher state is out of its reach.
-/

namespace PagedHeap

/-- A computation on a state `σ` that answers an `α` or ends the process. -/
abbrev Action (σ α : Type) : Type := EStateM Ending σ α

/-- A part `τ` of a state `σ` that can be read and replaced. -/
structure Focus (σ τ : Type) where
  read : σ → τ
  write : τ → σ → σ

namespace Focus

/-- The part of a part. -/
def comp {σ τ υ : Type} (outer : Focus σ τ) (inner : Focus τ υ) : Focus σ υ where
  read s := inner.read (outer.read s)
  write u s := outer.write (inner.write u (outer.read s)) s

/-- Reading gives what was written, and writing changes nothing else. -/
structure Lawful {σ τ : Type} (f : Focus σ τ) : Prop where
  read_write : ∀ t s, f.read (f.write t s) = t
  write_read : ∀ s, f.write (f.read s) s = s
  write_write : ∀ t t' s, f.write t (f.write t' s) = f.write t s

theorem Lawful.comp {σ τ υ : Type} {outer : Focus σ τ} {inner : Focus τ υ}
    (ho : outer.Lawful) (hi : inner.Lawful) : (outer.comp inner).Lawful where
  read_write u s := by simp [Focus.comp, ho.read_write, hi.read_write]
  write_read s := by simp [Focus.comp, ho.write_read, hi.write_read]
  write_write u u' s := by
    simp [Focus.comp, ho.read_write, ho.write_write, hi.write_write]

end Focus

namespace Action

variable {σ τ α : Type}

/-- Run an action on a part of the state. -/
def within (f : Focus σ τ) (action : Action τ α) : Action σ α := fun s =>
  match action (f.read s) with
  | .ok a t => .ok a (f.write t s)
  | .error e t => .error e (f.write t s)

/-- A transition of the state that always answers. -/
def transition (step : σ → α × σ) : Action σ α := fun s =>
  .ok (step s).1 (step s).2

/-- End the process. -/
def halt (e : Ending) : Action σ α := fun s => .error e s

/-- Stop unless the condition holds. -/
def require (check : Violation) (condition : Bool) : Action σ Unit :=
  if condition then pure () else halt (.violated check)

/-- Run an action if the condition holds. -/
def onlyIf (condition : Bool) (action : Action σ Unit) : Action σ Unit :=
  if condition then action else pure ()

/-- The result of checked arithmetic; without one the process stops. -/
def checked : Option Nat → Action σ Nat
  | some n => pure n
  | none => halt (.violated .arithmetic)

@[simp] theorem within_pure (f : Focus σ τ) (a : α) (s : σ) :
    within f (pure a) s = .ok a (f.write (f.read s) s) := rfl

@[simp] theorem transition_apply (step : σ → α × σ) (s : σ) :
    transition step s = .ok (step s).1 (step s).2 := rfl

@[simp] theorem halt_apply (e : Ending) (s : σ) : (halt e : Action σ α) s = .error e s := rfl

@[simp] theorem checked_some (n : Nat) : (checked (some n) : Action σ Nat) = pure n := rfl

@[simp] theorem require_true (check : Violation) :
    (require check true : Action σ Unit) = pure () := rfl

@[simp] theorem onlyIf_true (action : Action σ Unit) : onlyIf true action = action := rfl

@[simp] theorem onlyIf_false (action : Action σ Unit) : onlyIf false action = pure () := rfl

/-- Working on a part, one step after the other, is working on it in one go. -/
theorem within_bind {β : Type} {f : Focus σ τ} (lawful : f.Lawful) (action : Action τ α)
    (next : α → Action τ β) :
    within f (action >>= next) = within f action >>= fun a => within f (next a) := by
  funext s
  simp only [within, bind, EStateM.bind]
  cases action (f.read s) with
  | ok a t =>
    simp only [lawful.read_write]
    cases next a t with
    | ok b u => simp only [lawful.write_write]
    | error e u => simp only [lawful.write_write]
  | error e t => rfl

/-- Working on a part of a part is working on the inner part. -/
theorem within_within {υ : Type} (outer : Focus σ τ) (inner : Focus τ υ)
    (action : Action υ α) :
    within outer (within inner action) = within (outer.comp inner) action := by
  funext s
  simp only [within, Focus.comp]
  cases action (inner.read (outer.read s)) <;> rfl

end Action
end PagedHeap
