import PagedHeap.Proofs.Process.Steps

/-!
# Calls of a thread

The work that the heap does is done for a thread that calls it.  Here a call is data, so that
rules for those who call can be stated: who may make a call, what the call passes, and what the
client has to its name afterwards.

A process goes on by calls, and by what the client and others do beside the heap.  The fallback
cache is on loan at most once, which is when its lock is held.
-/

namespace PagedHeap

/-- What a thread does with the heap. -/
inductive HeapCall where
  | request (r : HeapRequest)
  | borrow
  | giveBack (loan : Loan)
  | count (number : Nat)
  | beginExit
  | finishExit
  | stage (stage : Stage)

/-- What comes of a call. -/
inductive HeapReply where
  | answer (a : Answer)
  | lent (loan : Loan)
  | counted (count? : Option Nat)
  | done

namespace HeapReply

/-- The pointer that is granted. -/
def granted? : HeapReply → Option Nat
  | answer a => a.granted?
  | lent _ | counted _ | done => none

end HeapReply

namespace HeapCall

/-- The heap at work for a thread. -/
def run (t : Nat) : HeapCall → Action Heap HeapReply
  | request r => .answer <$> Heap.serve t r
  | borrow => .lent <$> Heap.borrow t
  | giveBack loan => (fun _ => .done) <$> Heap.giveBack t loan
  | count number => .counted <$> Heap.cachedCountOf t number
  | beginExit => (fun _ => .done) <$> Heap.beginExit t
  | finishExit => (fun _ => .done) <$> Heap.finishExit t
  | stage s => (fun _ => .done) <$> s.run t

/-- The pointer that is passed. -/
def passed? : HeapCall → Option Nat
  | request r => r.passed?
  | borrow | giveBack _ | count _ | beginExit | finishExit | stage _ => none

/-- Whether the pointer that is passed is given up. -/
def frees : HeapCall → Bool
  | request r => r.frees
  | borrow | giveBack _ | count _ | beginExit | finishExit | stage _ => false

/-- Whether the call may need a cache that is on loan. -/
def needsCache : HeapCall → Bool
  | request _ | borrow | count _ => true
  | giveBack _ | beginExit | finishExit | stage _ => false

/-- The caches that are lent after a call. -/
def loansAfter (t : Nat) (loans : List (Nat × Loan)) : HeapCall → HeapReply → List (Nat × Loan)
  | borrow, .lent loan => (t, loan) :: loans
  | giveBack loan, _ => loans.erase (t, loan)
  | _, _ => loans

end HeapCall

namespace Process

/-- What is passed is the client's, what is given back is lent, and a stage is due. -/
def Permits (p : Process) (t : Nat) : HeapCall → Prop
  | .request r => ∀ x, r.passed? = some x → x ∈ p.live
  | .giveBack loan => (t, loan) ∈ p.loans
  | .stage s => p.heap.Due t s
  | .borrow | .count _ | .beginExit | .finishExit => True

/-- Thread `t` made a call, and the process went on. -/
inductive Makes (p : Process) (t : Nat) (c : HeapCall) (reply : HeapReply) : Process → Prop where
  | intro {h : Heap} (hpermits : p.Permits t c) (hrun : c.run t p.heap = .ok reply h) :
      Makes p t c reply (p.next h (after c.passed? c.frees reply.granted? p.live)
        (c.loansAfter t p.loans reply))

/-- The client stored to its allocations, or others did what they like. -/
inductive Drifts (p : Process) : Process → Prop where
  | store {m : Memory}
      (hsame : ∀ y, y ∉ p.heap.bodies p.live → m.byteAt y = p.heap.kernel.memory.byteAt y) :
      Drifts p (p.next (p.heap.withMemory m) p.live p.loans)
  | environment {k : Kernel} (hvalid : k.Valid) (huse : p.heap.own p.live ⊆ k.inUse)
      (hsame : ∀ y ∈ p.heap.own p.live, k.memory.byteAt y = p.heap.kernel.memory.byteAt y) :
      Drifts p (p.next { p.heap with kernel := k } p.live p.loans)

/-- The process went on, and all calls on the way were such as are allowed. -/
inductive Later (allowed : Nat → HeapCall → HeapReply → Prop) (p : Process) : Process → Prop where
  | refl : Later allowed p p
  | call {p₁ p₂ : Process} {t : Nat} {c : HeapCall} {reply : HeapReply}
      (hlater : Later allowed p p₁) (hallowed : allowed t c reply)
      (hmakes : p₁.Makes t c reply p₂) : Later allowed p p₂
  | drift {p₁ p₂ : Process} (hlater : Later allowed p p₁) (hdrifts : p₁.Drifts p₂) :
      Later allowed p p₂

variable {p p' : Process} {spans : Place → Category → List Span} {foreign : Set Nat}
  {t : Nat} {c : HeapCall} {reply : HeapReply} {allowed : Nat → HeapCall → HeapReply → Prop}

/-! ## Calls are work -/

theorem Makes.work (hmakes : p.Makes t c reply p') :
    p.Work c.passed? reply.granted? p' := by
  obtain ⟨hpermits, hrun⟩ := hmakes
  cases c with
  | request r =>
      obtain ⟨a, hserve, rfl⟩ := Action.exists_of_map hrun
      exact .serve hpermits hserve
  | borrow =>
      obtain ⟨loan, hborrow, rfl⟩ := Action.exists_of_map hrun
      exact .borrow hborrow
  | giveBack loan =>
      obtain ⟨_, hreturn, rfl⟩ := Action.exists_of_map hrun
      exact .giveBack hpermits hreturn
  | count number =>
      obtain ⟨count?, hcount, rfl⟩ := Action.exists_of_map hrun
      exact .count hcount
  | beginExit =>
      obtain ⟨_, hexit, rfl⟩ := Action.exists_of_map hrun
      exact .beginExit hexit
  | finishExit =>
      obtain ⟨_, hexit, rfl⟩ := Action.exists_of_map hrun
      exact .finishExit hexit
  | stage s =>
      obtain ⟨_, hstage, rfl⟩ := Action.exists_of_map hrun
      exact .stage hpermits hstage

theorem Work.makes {passed? granted? : Option Nat} (hwork : p.Work passed? granted? p') :
    ∃ t c reply, p.Makes t c reply p' := by
  cases hwork with
  | @serve t r a h hpassed hrun =>
      have hmakes : p.Makes t (.request r) (.answer a) _ := .intro hpassed (Action.map_of_ok hrun)
      exact ⟨_, _, _, hmakes⟩
  | @borrow t loan h hrun =>
      have hmakes : p.Makes t .borrow (.lent loan) _ := .intro trivial (Action.map_of_ok hrun)
      exact ⟨_, _, _, hmakes⟩
  | @giveBack t loan h hlent hrun =>
      have hmakes : p.Makes t (.giveBack loan) .done _ := .intro hlent (Action.map_of_ok hrun)
      exact ⟨_, _, _, hmakes⟩
  | @count t number count? h hrun =>
      have hmakes : p.Makes t (.count number) (.counted count?) _ :=
        .intro trivial (Action.map_of_ok hrun)
      exact ⟨_, _, _, hmakes⟩
  | @beginExit t h hrun =>
      have hmakes : p.Makes t .beginExit .done _ := .intro trivial (Action.map_of_ok hrun)
      exact ⟨_, _, _, hmakes⟩
  | @finishExit t h hrun =>
      have hmakes : p.Makes t .finishExit .done _ := .intro trivial (Action.map_of_ok hrun)
      exact ⟨_, _, _, hmakes⟩
  | @stage t s h hdue hrun =>
      have hmakes : p.Makes t (.stage s) .done _ := .intro hdue (Action.map_of_ok hrun)
      exact ⟨_, _, _, hmakes⟩

/-- Every step is a call, or none of the heap's doing. -/
theorem step_iff : p.Step p' ↔ (∃ t c reply, p.Makes t c reply p') ∨ p.Drifts p' := by
  constructor
  · intro hstep
    cases hstep with
    | work hwork => exact .inl hwork.makes
    | store hsame => exact .inr (.store hsame)
    | environment hvalid huse hsame => exact .inr (.environment hvalid huse hsame)
  · rintro (⟨t, c, reply, hmakes⟩ | hdrifts)
    · exact .work hmakes.work
    · cases hdrifts with
      | store hsame => exact .store hsame
      | environment hvalid huse hsame => exact .environment hvalid huse hsame

theorem Later.reachable (hlater : Later allowed p p') (hreach : p.Reachable) : p'.Reachable := by
  induction hlater with
  | refl => exact hreach
  | call _ _ hmakes ih => exact ih.step (.work hmakes.work)
  | drift _ hdrifts ih => exact ih.step (step_iff.2 (.inr hdrifts))

/-- All runs are made of calls. -/
theorem Later.exists_new (hreach : p.Reachable) :
    ∃ build k, k.Valid ∧ Later (fun _ _ _ => True) (new build k) p := by
  induction hreach with
  | start build hvalid => exact ⟨build, _, hvalid, .refl⟩
  | step _ hstep ih =>
      obtain ⟨build, k, hvalid, hlater⟩ := ih
      rcases step_iff.1 hstep with ⟨t, c, reply, hmakes⟩ | hdrifts
      · exact ⟨build, k, hvalid, hlater.call trivial hmakes⟩
      · exact ⟨build, k, hvalid, hlater.drift hdrifts⟩

/-- Memory aside, the heap is as it was. -/
theorem Drifts.heap_eq (hdrifts : p.Drifts p') :
    (∃ k, p'.heap = { p.heap with kernel := k }) ∧ p'.live = p.live ∧ p'.loans = p.loans := by
  cases hdrifts with
  | store => exact ⟨⟨_, rfl⟩, rfl, rfl⟩
  | environment => exact ⟨⟨_, rfl⟩, rfl, rfl⟩

theorem Makes.of_granted {r : HeapRequest} {x : Nat}
    (hpassed : ∀ x, r.passed? = some x → x ∈ p.live) (hgranted : p.granted? t r = some x) :
    ∃ reply, reply.granted? = some x ∧ p.Makes t (.request r) reply (p.serve t r) := by
  unfold Process.granted? at hgranted
  unfold Process.serve
  cases hrun : Heap.serve t r p.heap with
  | ok a h =>
      simp only [hrun] at hgranted ⊢
      have hmakes : p.Makes t (.request r) (.answer a) _ := .intro hpassed (Action.map_of_ok hrun)
      exact ⟨.answer a, hgranted, hmakes⟩
  | error e h =>
      simp only [hrun] at hgranted
      cases hgranted

/-! ## How a call ends -/

/-- Of the calls of a client that passes its own pointers, those that need no cache go on. -/
theorem ensures_call (hsound : p.heap.Sound spans p.live foreign) (hpermits : p.Permits t c) :
    Action.Ensures (c.run t) p.heap (fun _ _ => True)
      (fun e _ => c.needsCache = true ∧
        (p.heap.LockEnds e ∨ ∃ r, c = .request r ∧ p.heap.ServeEnds r e)) := by
  cases c with
  | request r =>
      rw [HeapCall.run, Action.ensures_map]
      apply (hsound.ensures_serve t r hpermits).mono
      · exact fun _ _ _ => trivial
      · exact fun _ _ hends => ⟨rfl, .inr ⟨r, rfl, hends⟩⟩
  | borrow =>
      rw [HeapCall.run, Action.ensures_map]
      apply (Heap.ensures_borrow p.heap t).mono
      · exact fun _ _ _ => trivial
      · exact fun _ _ hends => ⟨rfl, .inl hends⟩
  | giveBack loan =>
      rw [HeapCall.run, Action.ensures_map]
      exact (Heap.ensures_giveBack p.heap t loan).weaken fun _ _ _ => trivial
  | count number =>
      rw [HeapCall.run, Action.ensures_map]
      apply (Heap.ensures_cachedCountOf p.heap t number).mono
      · exact fun _ _ _ => trivial
      · exact fun _ _ hends => ⟨rfl, .inl hends⟩
  | beginExit =>
      rw [HeapCall.run, Action.ensures_map]
      exact (hsound.ensures_runPendingHook t).weaken fun _ _ _ => trivial
  | finishExit =>
      rw [HeapCall.run, Action.ensures_map]
      exact (hsound.ensures_finishExit t).weaken fun _ _ _ => trivial
  | stage s =>
      rw [HeapCall.run, Action.ensures_map]
      exact (hsound.ensures_stage hpermits).weaken fun _ _ _ => trivial

/-! ## Loans -/

/-- How often the fallback cache is on loan. -/
def fallbackLoans (p : Process) : Nat := p.loans.countP fun lent => lent.2 = .fallback

/-- The fallback cache is on loan, and once, while its lock is held. -/
def KeepsLoans (p : Process) : Prop :=
  p.fallbackLoans = p.heap.fallbackHeld.toNat

theorem Makes.build_eq (hmakes : p.Makes t c reply p')
    (hsound : p.heap.Sound spans p.live foreign) : p'.heap.build = p.heap.build := by
  obtain ⟨hpermits, hrun⟩ := hmakes
  cases c with
  | request r =>
      obtain ⟨a, hserve, rfl⟩ := Action.exists_of_map hrun
      exact ((hsound.ensures_serve _ _ hpermits).of_ok hserve).rules.build
  | borrow =>
      obtain ⟨loan, hborrow, rfl⟩ := Action.exists_of_map hrun
      exact ((Heap.ensures_borrow p.heap _).of_ok hborrow).build
  | giveBack loan =>
      obtain ⟨_, hreturn, rfl⟩ := Action.exists_of_map hrun
      exact ((Heap.ensures_giveBack p.heap _ _).of_ok hreturn).build
  | count number =>
      obtain ⟨count?, hcount, rfl⟩ := Action.exists_of_map hrun
      obtain ⟨rfl, -⟩ := (Heap.ensures_cachedCountOf p.heap _ _).of_ok hcount
      rfl
  | beginExit =>
      obtain ⟨_, hexit, rfl⟩ := Action.exists_of_map hrun
      exact ((hsound.ensures_runPendingHook _).of_ok hexit).1.rules.build
  | finishExit =>
      obtain ⟨_, hexit, rfl⟩ := Action.exists_of_map hrun
      exact ((hsound.ensures_finishExit _).of_ok hexit).rules.build
  | stage s =>
      obtain ⟨_, hstage, rfl⟩ := Action.exists_of_map hrun
      exact ((hsound.ensures_stage hpermits).of_ok hstage).rules.build

theorem KeepsLoans.of_held {h : Heap} {live : Set Nat} (hloans : p.KeepsLoans)
    (hheld : h.fallbackHeld = p.heap.fallbackHeld) : (p.next h live p.loans).KeepsLoans := by
  show p.fallbackLoans = h.fallbackHeld.toNat
  rw [hheld]
  exact hloans

theorem KeepsLoans.of_borrow {h : Heap} {live : Set Nat} {loan : Loan} (hloans : p.KeepsLoans)
    (hlends : p.heap.Lends t loan h) : (p.next h live ((t, loan) :: p.loans)).KeepsLoans := by
  show ((t, loan) :: p.loans).countP _ = h.fallbackHeld.toNat
  rw [List.countP_cons]
  cases loan with
  | ownCache =>
      rw [(hlends.own rfl).1]
      exact hloans
  | fallback =>
      obtain ⟨hfree, hheld⟩ := hlends.shared rfl
      rw [KeepsLoans, hfree] at hloans
      rw [hheld]
      exact congrArg (· + 1) hloans

theorem KeepsLoans.of_giveBack {h : Heap} {live : Set Nat} {loan : Loan} (hloans : p.KeepsLoans)
    (hlent : (t, loan) ∈ p.loans) (hreturns : p.heap.Returns loan h) :
    (p.next h live (p.loans.erase (t, loan))).KeepsLoans := by
  show (p.loans.erase (t, loan)).countP _ = h.fallbackHeld.toNat
  rw [hreturns.held, List.countP_erase]
  cases loan with
  | ownCache =>
      rw [if_neg (by simp), Nat.sub_zero]
      exact hloans
  | fallback =>
      -- The loan that is given back was the only one.
      rw [if_pos (by simpa using hlent)]
      have hcount : p.fallbackLoans ≤ 1 := hloans.trans_le (Bool.toNat_le _)
      exact Nat.sub_eq_zero_of_le hcount

theorem Makes.keepsLoans (hmakes : p.Makes t c reply p')
    (hsound : p.heap.Sound spans p.live foreign) (hloans : p.KeepsLoans) : p'.KeepsLoans := by
  obtain ⟨hpermits, hrun⟩ := hmakes
  cases c with
  | request r =>
      obtain ⟨a, hserve, rfl⟩ := Action.exists_of_map hrun
      exact hloans.of_held ((hsound.ensures_serve _ _ hpermits).of_ok hserve).rules.held
  | borrow =>
      obtain ⟨loan, hborrow, rfl⟩ := Action.exists_of_map hrun
      exact hloans.of_borrow ((Heap.ensures_borrow p.heap _).of_ok hborrow)
  | giveBack loan =>
      obtain ⟨_, hreturn, rfl⟩ := Action.exists_of_map hrun
      exact hloans.of_giveBack hpermits ((Heap.ensures_giveBack p.heap _ _).of_ok hreturn)
  | count number =>
      obtain ⟨count?, hcount, rfl⟩ := Action.exists_of_map hrun
      obtain ⟨rfl, -⟩ := (Heap.ensures_cachedCountOf p.heap _ _).of_ok hcount
      exact hloans.of_held rfl
  | beginExit =>
      obtain ⟨_, hexit, rfl⟩ := Action.exists_of_map hrun
      exact hloans.of_held ((hsound.ensures_runPendingHook _).of_ok hexit).1.rules.held
  | finishExit =>
      obtain ⟨_, hexit, rfl⟩ := Action.exists_of_map hrun
      exact hloans.of_held ((hsound.ensures_finishExit _).of_ok hexit).rules.held
  | stage s =>
      obtain ⟨_, hstage, rfl⟩ := Action.exists_of_map hrun
      exact hloans.of_held ((hsound.ensures_stage hpermits).of_ok hstage).rules.held

theorem Reachable.keepsLoans (hreach : p.Reachable) : p.KeepsLoans := by
  induction hreach with
  | start build hvalid => rfl
  | step hreach hstep ih =>
      obtain ⟨spans, foreign, horderly⟩ := hreach.orderly
      rcases step_iff.1 hstep with ⟨t, c, reply, hmakes⟩ | hdrifts
      · exact hmakes.keepsLoans horderly.sound ih
      · cases hdrifts with
        | store => exact ih.of_held rfl
        | environment => exact ih.of_held rfl

/-- While the lock is held, someone has the fallback cache. -/
theorem KeepsLoans.exists_loan (hloans : p.KeepsLoans) (hheld : p.heap.fallbackHeld = true) :
    ∃ u, (u, Loan.fallback) ∈ p.loans := by
  rw [KeepsLoans, hheld] at hloans
  have hpos : 0 < p.fallbackLoans := Nat.one_pos.trans_eq hloans.symm
  obtain ⟨⟨u, loan⟩, hin, hloan⟩ := List.countP_pos_iff.1 hpos
  obtain rfl : loan = .fallback := by simpa using hloan
  exact ⟨u, hin⟩

end Process
end PagedHeap
