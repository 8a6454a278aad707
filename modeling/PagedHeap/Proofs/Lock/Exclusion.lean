import Mathlib.Data.List.Basic
import PagedHeap.Lock.Contention

/-!
# Exclusion at a lock

What holds of a mutex and its workers however their steps interleave.  The word says whether
someone holds the lock, and then exactly one worker does, so what the holder saw of the value is
what the value still is when it stores.  While a worker waits, the word is marked, or someone is
under way who will wake a waiting worker or mark the word again: a newcomer may take the lock
without a mark while others wait, but only then.  `Sound` has these facts, each step keeps them,
and so they hold of every state that is reachable.
-/

namespace PagedHeap

/-- How many steps of the worker, at most, lie between it and the critical section while the
lock is free; for a worker that waits, counted from when it is woken. -/
def Phase.distance : Phase → Nat
  | .critical | .adding _ | .leave => 0
  | .outside | .mark => 1
  | .attempt _ | .enterWait | .parked | .wake => 2
  | .look _ => 3

namespace Worker

/-- Between its successful lock and its unlock. -/
def holds (w : Worker) : Bool :=
  match w.phase with
  | .critical | .adding _ | .leave => true
  | .outside | .look _ | .attempt _ | .mark | .enterWait | .parked | .wake => false

/-- Waits in the kernel. -/
def waits (w : Worker) : Bool := w.phase == .parked

/-- In the code of the lock or in the critical section, and not waiting in the kernel. -/
def active (w : Worker) : Bool := w.phase != .outside && w.phase != .parked

/-- About to wake a waiting worker, or to mark the word. -/
def rouses (w : Worker) : Bool := w.phase == .wake || w.phase == .mark

/-- Wants the lock, and its next step leaves the word alone or takes the lock without a mark. -/
def asks (w : Worker) : Bool :=
  match w.phase with
  | .outside => w.rounds != 0
  | .look _ | .attempt _ | .enterWait => true
  | .mark | .parked | .critical | .adding _ | .leave | .wake => false

/-- What the worker has still to add. -/
def owed (w : Worker) : Nat := w.rounds * w.amount

/-- A worker that is to enter has a round left, and what a worker in the critical section saw is
the value. -/
def Fits (value : Nat) (w : Worker) : Prop :=
  match w.phase with
  | .outside | .leave | .wake => True
  | .look _ | .attempt _ | .mark | .enterWait | .parked | .critical => 0 < w.rounds
  | .adding seen => 0 < w.rounds ∧ seen = value

variable {w w' : Worker} {m m' : Mutex} {value : Nat}

theorem fits_congr (hholds : w.holds = false) (value value' : Nat) :
    w.Fits value ↔ w.Fits value' := by
  obtain ⟨task, phase⟩ := w
  cases phase <;> simp_all [holds, Fits]

theorem not_holds_of_asks (hasks : w.asks = true) : w.holds = false := by
  obtain ⟨task, phase⟩ := w
  cases phase <;> simp_all [holds, asks]

theorem not_rouses_of_asks (hasks : w.asks = true) : w.rouses = false := by
  obtain ⟨task, phase⟩ := w
  cases phase <;> simp_all [rouses, asks]

theorem rounds_pos_of_asks (hasks : w.asks = true) (hfits : w.Fits value) : 0 < w.rounds := by
  obtain ⟨task, phase⟩ := w
  cases phase <;> simp_all [Fits, asks]
  omega

/-! ### One step of a worker -/

/-- What a worker does to the mutex and itself in one step. -/
inductive Turns (m : Mutex) (w : Worker) : Mutex → Worker → Prop where
  /-- It waits, or has nothing left to do. -/
  | rest (hrests : w.waits = true ∨ w.done = true) : Turns m w m w
  /-- It goes on asking for the lock. -/
  | ask (phase : Phase) (hasks : w.asks = true)
      (hphase : phase = .mark ∨ ∃ left, phase = .look left ∨ phase = .attempt left)
      (hcloser : m.word = .unlocked → phase.distance < w.phase.distance) :
      Turns m w m (w.goTo phase)
  /-- It takes the lock. -/
  | enter (word : LockWord) (hfree : m.word = .unlocked)
      (hword : w.asks = true ∧ word = .locked ∨ w.phase = .mark ∧ word = .contended) :
      Turns m w { m with word := word } (w.goTo .critical)
  /-- It marks the word of a lock that someone holds. -/
  | mark (hphase : w.phase = .mark) (htaken : m.word ≠ .unlocked) :
      Turns m w { m with word := .contended } (w.goTo .enterWait)
  | park (hphase : w.phase = .enterWait) (hmarked : m.word = .contended) :
      Turns m w m (w.goTo .parked)
  | read (hphase : w.phase = .critical) : Turns m w m (w.goTo (.adding m.value))
  | store (seen : Nat) (hphase : w.phase = .adding seen) :
      Turns m w { m with value := seen + w.amount } ⟨⟨w.rounds - 1, w.amount⟩, .leave⟩
  | free (hphase : w.phase = .leave) (hmarked : m.word ≠ .contended) :
      Turns m w { m with word := .unlocked } (w.goTo .outside)
  | freeMarked (hphase : w.phase = .leave) (hmarked : m.word = .contended) :
      Turns m w { m with word := .unlocked } (w.goTo .wake)
  | wake (hphase : w.phase = .wake) : Turns m w m (w.goTo .outside)

theorem turns_tryEnter (hasks : w.asks = true) (left : Nat) :
    Turns m w (w.tryEnter m (.look left)).1 (w.tryEnter m (.look left)).2 := by
  obtain ⟨word, value⟩ := m
  cases word with
  | unlocked => exact .enter .locked rfl (.inl ⟨hasks, rfl⟩)
  | locked => exact .ask (.look left) hasks (.inr ⟨left, .inl rfl⟩) (by simp)
  | contended => exact .ask (.look left) hasks (.inr ⟨left, .inl rfl⟩) (by simp)

theorem turns_turn (w : Worker) (m : Mutex) : Turns m w (w.turn m).1 (w.turn m).2 := by
  fun_cases turn w m with
  | case1 hphase hrounds => exact .rest (.inr (by simp [done, hphase, hrounds]))
  | case2 hphase hrounds => exact turns_tryEnter (by simp [asks, hphase, hrounds]) spinLimit
  | case3 hphase =>
      exact .ask .mark (by simp [asks, hphase]) (.inl rfl)
        fun _ => by simp [hphase, Phase.distance]
  | case4 left hphase =>
      by_cases hword : m.word = .unlocked
      · simp only [hword, if_true]
        exact .ask (.attempt left) (by simp [asks, hphase]) (.inr ⟨left, .inr rfl⟩)
          fun _ => by simp [hphase, Phase.distance]
      · simp only [hword, if_false]
        exact .ask (.look left) (by simp [asks, hphase]) (.inr ⟨left, .inl rfl⟩)
          fun hfree => absurd hfree hword
  | case5 left hphase => exact turns_tryEnter (by simp [asks, hphase]) left
  | case6 hphase =>
      by_cases hword : m.word = .unlocked
      · simp only [hword, if_true]
        exact .enter .contended hword (.inr ⟨hphase, rfl⟩)
      · simp only [hword, if_false]
        exact .mark hphase hword
  | case7 hphase =>
      by_cases hword : m.word = .contended
      · simp only [hword, if_true]
        exact .park hphase hword
      · simp only [hword, if_false]
        exact .ask .mark (by simp [asks, hphase]) (.inl rfl)
          fun _ => by simp [hphase, Phase.distance]
  | case8 hphase => exact .rest (.inl (by simp [waits, hphase]))
  | case9 hphase => exact .read hphase
  | case10 seen hphase => exact .store seen hphase
  | case11 hphase =>
      by_cases hword : m.word = .contended
      · simp only [hword, if_true]
        exact .freeMarked hphase hword
      · simp only [hword, if_false]
        exact .free hphase hword
  | case12 hphase => exact .wake hphase

namespace Turns

/-- The word and the worker agree about who came to hold the lock. -/
theorem holds_eq (hturns : Turns m w m' w') (hfree : m.word = .unlocked → w.holds = false) :
    w'.holds.toNat + (if m.word = .unlocked then 0 else 1) =
      w.holds.toNat + (if m'.word = .unlocked then 0 else 1) := by
  cases hturns with
  | rest => rfl
  | ask phase hasks hphase =>
      rw [not_holds_of_asks hasks]
      rcases hphase with rfl | ⟨left, rfl | rfl⟩ <;> rfl
  | enter word hword hmarks =>
      rw [hfree hword]
      rcases hmarks with ⟨-, rfl⟩ | ⟨-, rfl⟩ <;> simp [hword, holds, goTo]
  | mark hphase htaken => simp [htaken, holds, goTo, hphase]
  | park hphase => simp [holds, goTo, hphase]
  | read hphase => simp [holds, goTo, hphase]
  | store seen hphase => simp [holds, hphase]
  | free hphase => simp_all [holds, goTo]
  | freeMarked hphase => simp_all [holds, goTo]
  | wake hphase => simp [holds, goTo, hphase]

theorem fits (hturns : Turns m w m' w') (hfits : w.Fits m.value) : w'.Fits m'.value := by
  cases hturns with
  | rest => exact hfits
  | ask phase hasks hphase =>
      have hpos := rounds_pos_of_asks hasks hfits
      rcases hphase with rfl | ⟨left, rfl | rfl⟩ <;> exact hpos
  | enter word hword hmarks =>
      rcases hmarks with ⟨hasks, -⟩ | ⟨hphase, -⟩
      · have hpos := rounds_pos_of_asks hasks hfits
        exact hpos
      · simpa [Fits, goTo, hphase] using hfits
  | mark hphase => simpa [Fits, goTo, hphase] using hfits
  | park hphase => simpa [Fits, goTo, hphase] using hfits
  | read hphase => simpa [Fits, goTo, hphase] using hfits
  | store => trivial
  | free => trivial
  | freeMarked => trivial
  | wake => trivial

/-- Only who holds the lock changes the value. -/
theorem value_eq (hturns : Turns m w m' w') (hholds : w.holds = false) : m'.value = m.value := by
  cases hturns with
  | store seen hphase => simp [holds, hphase] at hholds
  | _ => rfl

/-- What is added is no longer owed. -/
theorem owed_eq (hturns : Turns m w m' w') (hfits : w.Fits m.value) :
    m'.value + w'.owed = m.value + w.owed := by
  cases hturns with
  | store seen hphase =>
      obtain ⟨hpos, rfl⟩ : 0 < w.rounds ∧ seen = m.value := by simpa [Fits, hphase] using hfits
      obtain ⟨rounds, hrounds⟩ := Nat.exists_eq_add_of_le' hpos
      simp only [owed, hrounds, Nat.add_sub_cancel, Nat.succ_mul]
      omega
  | _ => rfl

/-- Who begins to wait sees the mark, and leaves it. -/
theorem marked_of_waits (hturns : Turns m w m' w') (hwaits : w.waits = false)
    (hwaits' : w'.waits = true) : m'.word = .contended := by
  cases hturns with
  | rest => rw [hwaits] at hwaits'; cases hwaits'
  | ask phase hasks hphase => rcases hphase with rfl | ⟨left, rfl | rfl⟩ <;> cases hwaits'
  | park hphase hmarked => exact hmarked
  | _ => cases hwaits'

/-- A mark stays, or else its remover is to wake a waiting worker. -/
theorem marked_or_rouses (hturns : Turns m w m' w') (hmarked : m.word = .contended) :
    m'.word = .contended ∨ w'.rouses = true := by
  cases hturns with
  | enter word hfree => rw [hmarked] at hfree; cases hfree
  | mark => exact .inl rfl
  | free hphase hnot => exact absurd hmarked hnot
  | freeMarked => exact .inr rfl
  | _ => exact .inl hmarked

/-- Who is to mark the word marks it. -/
theorem rouses_or_marked (hturns : Turns m w m' w') (hrouses : w.rouses = true)
    (hphase : w.phase ≠ .wake) : m'.word = .contended ∨ w'.rouses = true := by
  have hmark : w.phase = .mark := by simpa [rouses, hphase] using hrouses
  cases hturns with
  | rest => exact .inr hrouses
  | ask phase hasks => simp [not_rouses_of_asks hasks] at hrouses
  | enter word hfree hword =>
      rcases hword with ⟨hasks, -⟩ | ⟨-, rfl⟩
      · simp [not_rouses_of_asks hasks] at hrouses
      · exact .inl rfl
  | mark => exact .inl rfl
  | park hphase => simp [hmark] at hphase
  | read hphase => simp [hmark] at hphase
  | store seen hphase => simp [hmark] at hphase
  | free hphase => simp [hmark] at hphase
  | freeMarked hphase => simp [hmark] at hphase
  | wake hphase => simp [hmark] at hphase

end Turns
end Worker

namespace Contest

/-! ### Sums over the workers -/

section Totals

variable {α β : Type} (f : α → Nat) {p : Worker → Bool} {workers : List Worker} {i j : Nat}
variable {v w : Worker}

/-- The sum of a number for each element. -/
def total (l : List α) : Nat := l.foldr (fun a n => f a + n) 0

/-- How many of the workers are so. -/
def count (p : Worker → Bool) (workers : List Worker) : Nat := total (fun w => (p w).toNat) workers

@[simp] theorem total_nil : total f [] = 0 := rfl

@[simp] theorem total_cons (a : α) (l : List α) : total f (a :: l) = f a + total f l := rfl

theorem total_append (l l' : List α) : total f (l ++ l') = total f l + total f l' := by
  induction l with
  | nil => simp
  | cons a l ih => simp only [List.cons_append, total_cons, ih, Nat.add_assoc]

theorem total_map (g : β → α) (l : List β) : total f (l.map g) = total (fun b => f (g b)) l := by
  induction l with
  | nil => rfl
  | cons b l ih => exact congrArg (f (g b) + ·) ih

theorem total_set {l : List α} {a : α} (ha : l[i]? = some a) (a' : α) :
    total f (l.set i a') + f a = total f l + f a' := by
  induction l generalizing i with
  | nil => simp at ha
  | cons b rest ih =>
      cases i with
      | zero =>
          obtain rfl : b = a := by simpa using ha
          simp only [List.set_cons_zero, total_cons]
          omega
      | succ i =>
          have hrest := ih (i := i) (by simpa using ha)
          simp only [List.set_cons_succ, total_cons]
          omega

theorem le_total {l : List α} {a : α} (ha : a ∈ l) : f a ≤ total f l := by
  induction l with
  | nil => simp at ha
  | cons b rest ih =>
      simp only [total_cons]
      rcases List.mem_cons.1 ha with rfl | hrest
      · omega
      · have := ih hrest
        omega

theorem total_le {l : List α} {b : Nat} (hbound : ∀ a ∈ l, f a ≤ b) :
    total f l ≤ b * l.length := by
  induction l with
  | nil => simp
  | cons c rest ih =>
      have hc := hbound c List.mem_cons_self
      have hrest := ih fun a ha => hbound a (List.mem_cons_of_mem c ha)
      simp only [total_cons, List.length_cons, Nat.mul_succ]
      omega

theorem count_set (hw : workers[i]? = some w) (w' : Worker) :
    count p (workers.set i w') + (p w).toNat = count p workers + (p w').toNat :=
  total_set (fun w => (p w).toNat) hw w'

theorem count_pos (hw : w ∈ workers) (hp : p w = true) : 0 < count p workers := by
  have := le_total (fun w => (p w).toNat) hw
  rw [hp] at this
  exact this

theorem exists_of_count_pos (hpos : 0 < count p workers) : ∃ w ∈ workers, p w = true := by
  by_contra hnone
  have hzero := total_le (b := 0) (fun w => (p w).toNat) (l := workers) fun w hw => by
    have : p w = false := by simpa using fun hp => hnone ⟨w, hw, hp⟩
    simp [this]
  rw [Nat.zero_mul] at hzero
  exact absurd hpos (by simpa [count] using hzero)

/-- Two different workers count apart. -/
theorem two_le_count (hij : i < j) (hw : workers[i]? = some w) (hv : workers[j]? = some v)
    (hpw : p w = true) (hpv : p v = true) : 2 ≤ count p workers := by
  induction workers generalizing i j with
  | nil => simp at hw
  | cons u rest ih =>
      obtain ⟨j, rfl⟩ : ∃ k, j = k + 1 := ⟨j - 1, by omega⟩
      have hv : rest[j]? = some v := by simpa using hv
      show 2 ≤ (p u).toNat + count p rest
      cases i with
      | zero =>
          obtain rfl : u = w := by simpa using hw
          have hrest := count_pos (List.mem_of_getElem? hv) hpv
          simp only [hpw, Bool.toNat_true]
          omega
      | succ i =>
          have hrest := ih (i := i) (j := j) (by omega) (by simpa using hw) hv
          omega

end Totals

/-! ### What holds of all workers -/

/-- What holds of every state of a mutex and its workers who are to add `sum` in all. -/
structure Sound (sum : Nat) (s : Contest) : Prop where
  /-- The word is taken while one worker holds the lock, and no second one does. -/
  holders : count Worker.holds s.workers = if s.word = .unlocked then 0 else 1
  fits : ∀ w ∈ s.workers, w.Fits s.value
  /-- Who waits is not forgotten. -/
  roused : 0 < count Worker.waits s.workers →
    s.word = .contended ∨ 0 < count Worker.rouses s.workers
  /-- What is not in the value yet is still owed. -/
  balance : s.value + total Worker.owed s.workers = sum

variable {sum : Nat} {s s' : Contest} {i j woken : Nat} {v w : Worker}

namespace Sound

theorem holder_unique (hsound : Sound sum s) (hw : s.workers[i]? = some w)
    (hv : s.workers[j]? = some v) (hholdsw : w.holds = true) (hholdsv : v.holds = true) :
    i = j := by
  have hle : count Worker.holds s.workers ≤ 1 := by
    rw [hsound.holders]
    split <;> omega
  rcases Nat.lt_trichotomy i j with hlt | heq | hlt
  · have := two_le_count hlt hw hv hholdsw hholdsv
    omega
  · exact heq
  · have := two_le_count hlt hv hw hholdsv hholdsw
    omega

theorem not_holds (hsound : Sound sum s) (hfree : s.word = .unlocked) (hw : w ∈ s.workers) :
    w.holds = false := by
  have hnone := hsound.holders
  rw [if_pos hfree] at hnone
  cases hholds : w.holds with
  | false => rfl
  | true =>
      have := count_pos hw hholds
      omega

/-- Someone who will wake a waiting worker or mark the word is there after a step, or the word
is marked. -/
theorem roused_of_turns {m : Mutex} {w' : Worker} (hsound : Sound sum s)
    (hw : s.workers[i]? = some w) (hturns : Worker.Turns s.toMutex w m w')
    (hothers : w.phase = .wake → 0 < count Worker.waits s.workers →
      2 ≤ count Worker.rouses s.workers)
    (hwaits : 0 < count Worker.waits (s.workers.set i w')) :
    m.word = .contended ∨ 0 < count Worker.rouses (s.workers.set i w') := by
  have hcount := count_set (p := Worker.waits) hw w'
  have hrouses := count_set (p := Worker.rouses) hw w'
  by_cases hold : 0 < count Worker.waits s.workers
  · by_cases hwake : w.phase = .wake
    · -- One is taken out of two at least.
      have htwo := hothers hwake hold
      have hone := Bool.toNat_le (Worker.rouses w)
      exact .inr (by omega)
    · rcases hsound.roused hold with hmarked | hpos
      · refine (hturns.marked_or_rouses hmarked).imp_right fun hnext => ?_
        exact count_pos (List.mem_set (List.getElem?_eq_some_iff.1 hw).1 w') hnext
      · cases hr : w.rouses with
        | true =>
            refine (hturns.rouses_or_marked hr hwake).imp_right fun hnext => ?_
            exact count_pos (List.mem_set (List.getElem?_eq_some_iff.1 hw).1 w') hnext
        | false =>
            simp only [hr, Bool.toNat_false] at hrouses
            exact .inr (by omega)
  · have hnot : w.waits = false := by
      cases hw' : w.waits with
      | false => rfl
      | true => exact absurd (count_pos (List.mem_of_getElem? hw) hw') hold
    have hnext : w'.waits = true := by
      by_contra hfalse
      simp only [hnot, Bool.eq_false_iff.2 hfalse, Bool.toNat_false] at hcount
      omega
    exact .inl (hturns.marked_of_waits hnot hnext)

/-- A step of one worker, who is not the only one to rouse those that wait. -/
theorem of_turns {m : Mutex} {w' : Worker} (hsound : Sound sum s)
    (hw : s.workers[i]? = some w) (hturns : Worker.Turns s.toMutex w m w')
    (hothers : w.phase = .wake → 0 < count Worker.waits s.workers →
      2 ≤ count Worker.rouses s.workers) :
    Sound sum ⟨m, s.workers.set i w'⟩ := by
  have hmem : w ∈ s.workers := List.mem_of_getElem? hw
  have hfits := hsound.fits w hmem
  refine ⟨?_, fun v hv => ?_, hsound.roused_of_turns hw hturns hothers, ?_⟩
  · have hset := count_set (p := Worker.holds) hw w'
    have hword := hturns.holds_eq fun hfree => hsound.not_holds hfree hmem
    have hholders := hsound.holders
    dsimp only
    omega
  · obtain ⟨j, hj⟩ := List.mem_iff_getElem?.1 hv
    dsimp only at hj ⊢
    by_cases hij : i = j
    · subst hij
      obtain rfl : w' = v := by simpa [List.getElem?_set_self', hw] using hj
      exact hturns.fits hfits
    · rw [List.getElem?_set_ne hij] at hj
      have hvfits := hsound.fits v (List.mem_of_getElem? hj)
      cases hholds : w.holds with
      | false => rw [hturns.value_eq hholds]; exact hvfits
      | true =>
          -- Nobody else is about to store what it saw before.
          have hvholds : v.holds = false := by
            by_contra htrue
            exact hij (hsound.holder_unique hw hj hholds (by simpa using htrue))
          exact (Worker.fits_congr hvholds _ _).1 hvfits
  · have hset := total_set Worker.owed hw w'
    have hpaid := hturns.owed_eq hfits
    have hbalance := hsound.balance
    dsimp only
    omega

end Sound

/-! ### Waking -/

theorem unpark_cases (s : Contest) (i : Nat) :
    s.unpark i = s ∨ ∃ w, s.workers[i]? = some w ∧ w.waits = true ∧
      s.unpark i = ⟨s.toMutex, s.workers.set i (w.goTo .mark)⟩ := by
  rw [unpark, List.modify_eq_set_getElem?]
  cases hw : s.workers[i]? with
  | none => exact .inl rfl
  | some w =>
      by_cases hwaits : w.phase = .parked
      · exact .inr ⟨w, rfl, by simp [Worker.waits, hwaits], by simp [Worker.unpark, hwaits]⟩
      · refine .inl ?_
        obtain ⟨hlt, rfl⟩ := List.getElem?_eq_some_iff.1 hw
        simp [Worker.unpark, hwaits]

@[simp] theorem unpark_toMutex (s : Contest) (i : Nat) : (s.unpark i).toMutex = s.toMutex := rfl

/-- Only a worker that waits is changed when one is woken. -/
theorem unpark_getElem? (hw : s.workers[i]? = some w) (hwaits : w.waits = false) (j : Nat) :
    (s.unpark j).workers[i]? = some w := by
  rcases unpark_cases s j with hsame | ⟨v, hv, hparked, hnext⟩
  · rw [hsame]
    exact hw
  · have hne : j ≠ i := fun heq => by
      rw [heq, hw] at hv
      rw [Option.some.inj hv, hparked] at hwaits
      cases hwaits
    rw [hnext, List.getElem?_set_ne hne]
    exact hw

theorem isParked_iff : s.isParked i = true ↔ ∃ w, s.workers[i]? = some w ∧ w.waits = true := by
  simp [isParked, Option.any_eq_true, Worker.waits]

/-- Whoever waits now waited before one was woken. -/
theorem exists_parked_of_unpark
    (hwaits : 0 < count Worker.waits (s.unpark j).workers) : ∃ i, s.isParked i = true := by
  obtain ⟨v, hv, hparked⟩ := exists_of_count_pos hwaits
  rcases unpark_cases s j with hsame | ⟨w, hw, hwaiting, -⟩
  · rw [hsame] at hv
    obtain ⟨i, hi⟩ := List.mem_iff_getElem?.1 hv
    exact ⟨i, isParked_iff.2 ⟨v, hi, hparked⟩⟩
  · exact ⟨j, isParked_iff.2 ⟨w, hw, hwaiting⟩⟩

namespace Sound

/-- Who is woken is to mark the word. -/
theorem unpark (hsound : Sound sum s) (i : Nat) : Sound sum (s.unpark i) := by
  rcases unpark_cases s i with hsame | ⟨w, hw, hwaits, hnext⟩
  · rw [hsame]
    exact hsound
  · rw [hnext]
    have hphase : w.phase = .parked := by simpa [Worker.waits] using hwaits
    refine ⟨?_, fun v hv => ?_, fun _ => .inr ?_, ?_⟩
    · have hset := count_set (p := Worker.holds) hw (w.goTo .mark)
      have hnot : w.holds = false := by simp [Worker.holds, hphase]
      rw [hnot] at hset
      exact hset.trans hsound.holders
    · rcases List.mem_or_eq_of_mem_set hv with hold | rfl
      · exact hsound.fits v hold
      · simpa [Worker.Fits, Worker.goTo, hphase] using hsound.fits w (List.mem_of_getElem? hw)
    · exact count_pos (List.mem_set (List.getElem?_eq_some_iff.1 hw).1 _) rfl
    · have hset := total_set Worker.owed hw (w.goTo .mark)
      have hbalance := hsound.balance
      have howed : (w.goTo .mark).owed = w.owed := rfl
      dsimp only
      omega

/-- After a wake call that reached someone, the caller and who was woken rouse the others. -/
theorem two_le_rouses (hw : s.workers[i]? = some w) (hwake : w.phase = .wake)
    (hreaches : s.Reaches woken) (hwaits : 0 < count Worker.waits (s.unpark woken).workers) :
    2 ≤ count Worker.rouses (s.unpark woken).workers := by
  have hrouses : w.rouses = true := by simp [Worker.rouses, hwake]
  have hi := unpark_getElem? hw (by simp [Worker.waits, hwake]) woken
  obtain ⟨v, hv, hparked⟩ := isParked_iff.1 (hreaches (exists_parked_of_unpark hwaits))
  have hj : (s.unpark woken).workers[woken]? = some v.unpark := by
    simp [Contest.unpark, hv]
  have hmarks : v.unpark.rouses = true := by
    have hphase : v.phase = .parked := by simpa [Worker.waits] using hparked
    simp [Worker.unpark, hphase, Worker.rouses, Worker.goTo]
  rcases Nat.lt_trichotomy i woken with hlt | heq | hlt
  · exact two_le_count hlt hi hj hrouses hmarks
  · rw [heq, hv] at hw
    rw [Option.some.inj hw] at hparked
    simp [Worker.waits, hwake] at hparked
  · exact two_le_count hlt hj hi hmarks hrouses

theorem advance (hsound : Sound sum s) (i : Nat) (hreaches : s.Reaches woken) :
    Sound sum (s.advance i woken) := by
  unfold Contest.advance
  cases hw : s.workers[i]? with
  | none => exact hsound
  | some w =>
      have hturns := Worker.turns_turn w s.toMutex
      by_cases hwake : w.phase = .wake
      · simp only [hwake, if_true]
        have hi := unpark_getElem? hw (by simp [Worker.waits, hwake]) woken
        exact (hsound.unpark woken).of_turns hi hturns
          fun _ hwaits => two_le_rouses hw hwake hreaches hwaits
      · simp only [hwake, if_false]
        exact hsound.of_turns hw hturns fun hphase => absurd hphase hwake

theorem step (hsound : Sound sum s) (hstep : Step s s') : Sound sum s' := by
  cases hstep with
  | go i woken hreaches => exact hsound.advance i hreaches
  | spurious i => exact hsound.unpark i

end Sound

/-! ### Every reachable state -/

/-- The states that workers with these tasks come to, in any interleaving of their steps. -/
inductive Reachable (tasks : List Task) : Contest → Prop where
  | fresh : Reachable tasks (fresh tasks)
  | step {s s' : Contest} (hreachable : Reachable tasks s) (hstep : Step s s') :
      Reachable tasks s'

/-- What the tasks add in all. -/
def additions (tasks : List Task) : Nat := total (fun task => task.rounds * task.amount) tasks

theorem total_fresh (f : Worker → Nat) (tasks : List Task) :
    total f (fresh tasks).workers = total (fun task => f ⟨task, .outside⟩) tasks :=
  total_map f _ tasks

theorem count_fresh {p : Worker → Bool} (hp : ∀ task, p ⟨task, .outside⟩ = false)
    (tasks : List Task) : count p (fresh tasks).workers = 0 := by
  rw [count, total_fresh]
  have hle := total_le (b := 0) (fun task => (p ⟨task, .outside⟩).toNat) (l := tasks)
    fun task _ => by rw [hp task]; exact Nat.le_refl 0
  omega

theorem sound_fresh (tasks : List Task) : Sound (additions tasks) (fresh tasks) := by
  refine ⟨count_fresh (fun _ => rfl) tasks, fun w hw => ?_, fun hwaits => ?_, ?_⟩
  · obtain ⟨task, -, rfl⟩ := List.mem_map.1 hw
    trivial
  · rw [count_fresh (fun _ => rfl) tasks] at hwaits
    exact absurd hwaits (Nat.lt_irrefl 0)
  · rw [total_fresh]
    exact Nat.zero_add _

theorem Reachable.sound {tasks : List Task} (hreachable : Reachable tasks s) :
    Sound (additions tasks) s := by
  induction hreachable with
  | fresh => exact sound_fresh tasks
  | step _ hstep ih => exact ih.step hstep

/-! ### What this comes to -/

theorem finished_iff : s.finished = true ↔ ∀ w ∈ s.workers, w.done = true := List.all_eq_true

namespace Sound

/-- While nobody is on the way to a free lock, nobody waits for it. -/
theorem not_parked (hsound : Sound sum s) (hfree : s.word = .unlocked)
    (hidle : ∀ w ∈ s.workers, w.active = false) (i : Nat) : s.isParked i = false := by
  by_contra hparked
  obtain ⟨w, hw, hwaits⟩ := isParked_iff.1 (by simpa using hparked)
  rcases hsound.roused (count_pos (List.mem_of_getElem? hw) hwaits) with hmarked | hrouses
  · rw [hfree] at hmarked
    cases hmarked
  · obtain ⟨v, hv, hrouses⟩ := exists_of_count_pos hrouses
    have hactive : v.active = true := by
      rcases (by simpa [Worker.rouses] using hrouses : v.phase = .wake ∨ v.phase = .mark)
        with hphase | hphase <;> simp [Worker.active, hphase]
    rw [hidle v hv] at hactive
    cases hactive

theorem value_of_finished (hsound : Sound sum s) (hfinished : s.finished = true) :
    s.value = sum := by
  have hnone := total_le (b := 0) Worker.owed (l := s.workers) fun w hw => by
    have hdone := finished_iff.1 hfinished w hw
    have hrounds : w.rounds = 0 := by
      simp only [Worker.done, Bool.and_eq_true, beq_iff_eq] at hdone
      exact hdone.2
    simp [Worker.owed, hrounds]
  have hbalance := hsound.balance
  omega

end Sound

end Contest
end PagedHeap
