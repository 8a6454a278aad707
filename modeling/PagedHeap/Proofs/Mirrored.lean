import PagedHeap.Proofs.Action

/-!
# Actions on the image of a state

Two actions on states of different kinds may do the same: from the image of a state the one gives
the answer, or ends the process, as the other does from the state itself, and it leaves the image
of what that leaves.  `Action.Mirrors g action image s` says that of the state `s`, and there is a
rule for every way in which actions are put together.

An action that mirrors itself from all states does not see what is lost in the image.
-/

namespace PagedHeap
namespace Action

variable {σ σ' τ τ' α β γ : Type}

/-- The outcome with the image of the state that it leaves. -/
def carry (g : σ → τ) : EStateM.Result Ending σ α → EStateM.Result Ending τ α
  | .ok a s => .ok a (g s)
  | .error e s => .error e (g s)

/-- From the image of `s` the second action does what the first does from `s`. -/
def Mirrors (g : σ → τ) (action : Action σ α) (image : Action τ α) (s : σ) : Prop :=
  image (g s) = carry g (action s)

/-- From the image of any state the action does what it does from the state. -/
def Blind (g : σ → σ) (action : Action σ α) : Prop := ∀ s, Mirrors g action action s

section Mirroring

variable {g : σ → τ} {s s' : σ} {action : Action σ α} {image : Action τ α}

theorem mirrors_pure (a : α) (s : σ) : Mirrors g (pure a) (pure a) s := rfl

theorem Mirrors.bind {next : α → Action σ β} {next' : α → Action τ β}
    (h : Mirrors g action image s)
    (hnext : ∀ a s', action s = .ok a s' → Mirrors g (next a) (next' a) s') :
    Mirrors g (action >>= next) (image >>= next') s := by
  have hfirst : image (g s) = carry g (action s) := h
  show (image >>= next') (g s) = carry g ((action >>= next) s)
  simp only [Bind.bind, EStateM.bind]
  rw [hfirst]
  cases hrun : action s with
  | ok a s' => exact hnext a s' hrun
  | error e s' => rfl

/-- Both have answered, each with an answer of its own, and go on. -/
theorem Mirrors.of_answers {action : Action σ α} {image : Action τ β} {next : α → Action σ γ}
    {next' : β → Action τ γ} {a : α} {b : β} (hrun : action s = .ok a s')
    (himage : image (g s) = .ok b (g s')) (h : Mirrors g (next a) (next' b) s') :
    Mirrors g (action >>= next) (image >>= next') s := by
  show (image >>= next') (g s) = carry g ((action >>= next) s)
  simp only [Bind.bind, EStateM.bind]
  rw [hrun, himage]
  exact h

theorem Mirrors.map (h : Mirrors g action image s) (f : α → β) :
    Mirrors g (f <$> action) (f <$> image) s := by
  rw [map_eq_pure_bind, map_eq_pure_bind]
  exact h.bind fun a s' _ => mirrors_pure (f a) s'

/-- What comes after a look at the state starts in that state. -/
theorem Mirrors.get_bind {next : σ → Action σ α} {next' : τ → Action τ α}
    (h : Mirrors g (next s) (next' (g s)) s) : Mirrors g (get >>= next) (get >>= next') s := h

theorem mirrors_modify {f : σ → σ} {f' : τ → τ} (hf : f' (g s) = g (f s)) :
    Mirrors g (modify f) (modify f') s :=
  congrArg (EStateM.Result.ok PUnit.unit) hf

theorem mirrors_halt (e : Ending) (s : σ) :
    Mirrors g (halt e : Action σ α) (halt e) s := rfl

theorem mirrors_checked (n? : Option Nat) (s : σ) : Mirrors g (checked n?) (checked n?) s := by
  cases n? with
  | some n => exact mirrors_pure n s
  | none => exact mirrors_halt _ s

theorem Mirrors.onlyIf {action : Action σ Unit} {image : Action τ Unit} {condition : Bool}
    (h : condition = true → Mirrors g action image s) :
    Mirrors g (onlyIf condition action) (onlyIf condition image) s := by
  cases condition with
  | true => exact h rfl
  | false => exact mirrors_pure () s

/-- Actions on parts mirror each other if the parts are in the same relation as the wholes. -/
theorem Mirrors.within {g' : σ' → τ'} {f : Focus σ σ'} {f' : Focus τ τ'} {action : Action σ' α}
    {image : Action τ' α} (hread : f'.read (g s) = g' (f.read s))
    (hwrite : ∀ u, f'.write (g' u) (g s) = g (f.write u s))
    (h : Mirrors g' action image (f.read s)) :
    Mirrors g (within f action) (within f' image) s := by
  have hpart : image (g' (f.read s)) = carry g' (action (f.read s)) := h
  show Action.within f' image (g s) = carry g (Action.within f action s)
  unfold Action.within
  rw [hread, hpart]
  cases action (f.read s) with
  | ok a u => exact congrArg (EStateM.Result.ok a) (hwrite u)
  | error e u => exact congrArg (EStateM.Result.error e) (hwrite u)

end Mirroring

section Blindness

variable {g : σ → σ} {action : Action σ α}

theorem blind_pure (a : α) : Blind g (pure a : Action σ α) := mirrors_pure a

theorem Blind.bind {next : α → Action σ β} (h : Blind g action)
    (hnext : ∀ a, Blind g (next a)) : Blind g (action >>= next) :=
  fun s => (h s).bind fun a s' _ => hnext a s'

theorem Blind.map (h : Blind g action) (f : α → β) : Blind g (f <$> action) :=
  fun s => (h s).map f

/-- A look at the state may be followed by anything that is the same for the image. -/
theorem blind_get_bind {next : σ → Action σ α} (hsame : ∀ s, next (g s) = next s)
    (hnext : ∀ s, Blind g (next s)) : Blind g (get >>= next) := by
  intro s
  refine Mirrors.get_bind ?_
  rw [hsame]
  exact hnext s s

theorem blind_modify {f : σ → σ} (hf : ∀ s, f (g s) = g (f s)) :
    Blind g (modify f : Action σ PUnit) :=
  fun s => mirrors_modify (hf s)

theorem blind_halt (e : Ending) : Blind g (halt e : Action σ α) := mirrors_halt e

theorem blind_checked (n? : Option Nat) : Blind g (checked n? : Action σ Nat) :=
  mirrors_checked n?

theorem blind_require (check : Violation) (condition : Bool) :
    Blind g (require check condition : Action σ Unit) := by
  cases condition with
  | true => exact blind_pure ()
  | false => exact blind_halt _

theorem Blind.onlyIf {action : Action σ Unit} (h : Blind g action) (condition : Bool) :
    Blind g (onlyIf condition action) :=
  fun s => Mirrors.onlyIf fun _ => h s

theorem Blind.ite {p : Prop} [Decidable p] {other : Action σ α} (h : Blind g action)
    (hother : Blind g other) : Blind g (if p then action else other) := by
  split
  · exact h
  · exact hother

/-- Work on a part does not see what it does not see of the part. -/
theorem Blind.within {g' : σ' → σ'} {f : Focus σ σ'} {action : Action σ' α}
    (h : Blind g' action) (hread : ∀ s, f.read (g s) = g' (f.read s))
    (hwrite : ∀ u s, f.write (g' u) (g s) = g (f.write u s)) : Blind g (within f action) :=
  fun s => Mirrors.within (hread s) (fun u => hwrite u s) (h (f.read s))

/-- Nothing is lost of a part that the image leaves alone. -/
theorem blind_within {f : Focus σ σ'} (action : Action σ' α) (hread : ∀ s, f.read (g s) = f.read s)
    (hwrite : ∀ u s, f.write u (g s) = g (f.write u s)) : Blind g (within f action) := by
  have hall : Blind id action := by
    intro s
    show action s = carry id (action s)
    cases action s with
    | ok a s' => rfl
    | error e s' => rfl
  exact hall.within hread hwrite

end Blindness

end Action
end PagedHeap
