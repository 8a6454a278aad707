import PagedHeap.Proofs.Heap.Threads
import PagedHeap.Proofs.Process.Calls
import PagedHeap.Proofs.Process.Conservation

/-!
# The caches of threads

A thread has its cache to itself.  It goes through its life in one direction, and only its own
requests put blocks into its cache and take them out, while it is ready and has not lent it.  A
cache that is lent stays as it is and is not lent again before it is given back; meanwhile the
fallback cache serves, and so it does while a thread is being set up or torn down.  The exit of a
thread brings all its blocks home, and from then on there is nothing in its cache.
-/

namespace PagedHeap

namespace HeapCall

/-- Whether the exit hook of the thread may run. -/
def exits : HeapCall → Bool
  | beginExit | finishExit => true
  | stage s => s.flushes
  | request _ | borrow | giveBack _ | count _ => false

end HeapCall

namespace Heap

open PagedHeap.Action

variable {h h' : Heap} {t : Nat} {c : HeapCall} {reply : HeapReply}

/-- What a call of thread `t` makes of threads. -/
inductive Alters (t : Nat) (h : Heap) : HeapCall → HeapReply → Heap → Prop where
  | request {r : HeapRequest} {reply : HeapReply} {h' : Heap} (hadvances : Advances t h h') :
      Alters t h (.request r) reply h'
  | borrow {loan : Loan} {h' : Heap} (hborrows : Borrows t h loan h') :
      Alters t h .borrow (.lent loan) h'
  | giveBack {loan : Loan} {reply : HeapReply} {h' : Heap}
      (hothers : ∀ u, u ≠ t → h'.thread u = h.thread u)
      (hown : h'.thread t = h.thread t ∨
        loan = .ownCache ∧ h'.thread t = { h.thread t with busy := false }) :
      Alters t h (.giveBack loan) reply h'
  | count {number : Nat} {reply : HeapReply} {h' : Heap} (hsame : ∀ u, h'.thread u = h.thread u) :
      Alters t h (.count number) reply h'
  | beginExit {reply : HeapReply} {h' : Heap} (hretires : Retires t h h') :
      Alters t h .beginExit reply h'
  | finishExit {reply : HeapReply} {h' : Heap} (hothers : ∀ u, u ≠ t → h'.thread u = h.thread u)
      (hfresh : h'.thread t = .fresh) : Alters t h .finishExit reply h'
  | stage {stage : Stage} {reply : HeapReply} {h' : Heap} (htakes : TakesStage t stage h h') :
      Alters t h (.stage stage) reply h'

theorem alters_giveBack {loan : Loan} (hrun : giveBack t loan h = .ok () h') :
    Alters t h (.giveBack loan) reply h' := by
  cases loan with
  | ownCache =>
      obtain ⟨-, rfl⟩ := EStateM.Result.ok.inj hrun
      exact .giveBack (fun u hu => thread_setThread_of_ne hu h _)
        (.inr ⟨rfl, thread_setThread_self h t _⟩)
  | fallback =>
      obtain ⟨-, rfl⟩ := EStateM.Result.ok.inj hrun
      exact .giveBack (fun _ _ => rfl) (.inl rfl)

theorem alters_of_run (hdue : ∀ stage, c = .stage stage → h.Due t stage)
    (hrun : c.run t h = .ok reply h') : Alters t h c reply h' := by
  cases c with
  | request r =>
      obtain ⟨a, hserve, -⟩ := exists_of_map hrun
      exact .request ((leaves_serve t r).of_ok hserve)
  | borrow =>
      obtain ⟨loan, hborrow, rfl⟩ := exists_of_map hrun
      exact .borrow ((ensures_borrow_thread h t).of_ok hborrow)
  | giveBack loan =>
      obtain ⟨_, hreturn, -⟩ := exists_of_map hrun
      exact alters_giveBack hreturn
  | count number =>
      obtain ⟨count?, hcount, -⟩ := exists_of_map hrun
      obtain ⟨rfl, -⟩ := (ensures_cachedCountOf h t number).of_ok hcount
      exact .count fun _ => rfl
  | beginExit =>
      obtain ⟨_, hexit, -⟩ := exists_of_map hrun
      exact .beginExit ((ensures_runPendingHook_thread h t).of_ok hexit)
  | finishExit =>
      obtain ⟨_, hexit, -⟩ := exists_of_map hrun
      obtain ⟨hothers, hfresh⟩ := (ensures_finishExit_thread h t).of_ok hexit
      exact .finishExit hothers hfresh
  | stage stage =>
      obtain ⟨_, hstage, -⟩ := exists_of_map hrun
      exact .stage ((ensures_stage_thread (hdue stage rfl)).of_ok hstage)

namespace Alters

theorem others (h₁ : Alters t h c reply h') {u : Nat} (hu : u ≠ t) :
    h'.thread u = h.thread u := by
  cases h₁ with
  | request hadvances => exact hadvances.others u hu
  | @borrow loan h' hborrows =>
      cases loan with
      | ownCache => exact hborrows.2.1 u hu
      | fallback => exact hborrows u
  | giveBack hothers => exact hothers u hu
  | count hsame => exact hsame u
  | beginExit hretires => exact hretires.others u hu
  | finishExit hothers => exact hothers u hu
  | stage htakes => exact htakes.others u hu

theorem rank_le_of_able {s : ThreadStatus} (hable : ¬h.LacksCache t) (hs : s = .ready) :
    (h.thread t).status.rank ≤ s.rank := by
  rw [hs]
  rcases (able_iff.1 hable).2 with hstatus | hstatus
  · rw [hstatus]
    exact Nat.zero_le _
  · rw [hstatus]

/-- A thread goes forward until its number is free for another. -/
theorem forward (h₁ : Alters t h c reply h') (hstays : c ≠ .finishExit) :
    (h.thread t).status.rank ≤ (h'.thread t).status.rank := by
  cases h₁ with
  | request hadvances => exact hadvances.forward
  | @borrow loan h' hborrows =>
      cases loan with
      | ownCache =>
          obtain ⟨hable, -, hown⟩ := hborrows
          exact rank_le_of_able hable (by rw [hown])
      | fallback => rw [hborrows t]
  | giveBack _ hown =>
      rcases hown with hsame | ⟨-, hsame⟩
      · rw [hsame]
      · rw [hsame]
  | count hsame => rw [hsame t]
  | beginExit hretires =>
      rcases hretires.own with ⟨-, hsame⟩ | ⟨hready, hdead, -⟩
      · rw [hsame]
      · rw [hready, hdead]
        decide
  | finishExit => exact absurd rfl hstays
  | stage htakes => exact htakes.forward

/-- What is lent stays lent until it is given back. -/
theorem busy (h₁ : Alters t h c reply h') (hlent : (h.thread t).busy = true)
    (hstays : c ≠ .finishExit) (hkept : c ≠ .giveBack .ownCache) : (h'.thread t).busy = true := by
  cases h₁ with
  | request hadvances => rw [hadvances.busy, hlent]
  | @borrow loan h' hborrows =>
      cases loan with
      | ownCache => exact absurd (.inl hlent) hborrows.1
      | fallback => rw [hborrows t, hlent]
  | @giveBack loan reply h' _ hown =>
      rcases hown with hsame | ⟨rfl, -⟩
      · rw [hsame, hlent]
      · exact absurd rfl hkept
  | count hsame => rw [hsame t, hlent]
  | beginExit hretires =>
      rcases hretires.own with ⟨-, hsame⟩ | ⟨-, -, hsame⟩
      · rw [hsame, hlent]
      · rw [hsame, hlent]
  | finishExit => exact absurd rfl hstays
  | stage htakes => rw [htakes.busy, hlent]

end Alters

end Heap

namespace Process

open Heap

variable {p p' : Process} {spans spans' : Place → Category → List Span} {foreign : Set Nat}
  {t : Nat} {c : HeapCall} {reply : HeapReply} {allowed : Nat → HeapCall → HeapReply → Prop}

theorem Makes.alters (hmakes : p.Makes t c reply p') : Alters t p.heap c reply p'.heap := by
  obtain ⟨hpermits, hrun⟩ := hmakes
  refine alters_of_run (fun stage hstage => ?_) hrun
  subst hstage
  exact hpermits

/-- The exit of a thread empties its cache, and the client keeps what it has. -/
theorem Makes.flushes (hmakes : p.Makes t c reply p') (hsound : p.heap.Sound spans p.live foreign)
    (hexits : c.exits = true) :
    p.heap.Steady spans p.live foreign p'.heap (Function.update spans (.thread t) fun _ => []) ∧
      p'.live = p.live ∧ p'.home = homeAfter p.home p.used p'.used := by
  obtain ⟨hpermits, hrun⟩ := hmakes
  cases c with
  | beginExit =>
      obtain ⟨_, hexit, rfl⟩ := Action.exists_of_map hrun
      exact ⟨((hsound.ensures_runPendingHook t).of_ok hexit).1, rfl, rfl⟩
  | finishExit =>
      obtain ⟨_, hexit, rfl⟩ := Action.exists_of_map hrun
      exact ⟨(hsound.ensures_finishExit t).of_ok hexit, rfl, rfl⟩
  | stage stage =>
      obtain ⟨_, hstage, rfl⟩ := Action.exists_of_map hrun
      exact ⟨(hsound.ensures_stage hpermits).of_ok hstage, rfl, rfl⟩
  | _ => cases hexits

theorem Makes.emptied (hmakes : p.Makes t c reply p') (hsound : p.heap.Sound spans p.live foreign)
    (hexits : c.exits = true) : (p'.heap.thread t).cache = .empty :=
  ((hmakes.flushes hsound hexits).1.empties hsound).emptied

theorem Drifts.thread_eq (hdrifts : p.Drifts p') (u : Nat) :
    p'.heap.thread u = p.heap.thread u := by
  obtain ⟨⟨k, hheap⟩, -, -⟩ := hdrifts.heap_eq
  rw [hheap]
  rfl

/-! ## Runs -/

theorem Later.forward (hlater : Later allowed p p')
    (hstays : ∀ u c reply, allowed u c reply → u = t → c ≠ .finishExit) :
    (p.heap.thread t).status.rank ≤ (p'.heap.thread t).status.rank := by
  induction hlater with
  | refl => exact Nat.le_refl _
  | @call p₁ p₂ u c reply _ hallowed hmakes ih =>
      by_cases hu : u = t
      · subst hu
        exact ih.trans (hmakes.alters.forward (hstays u c reply hallowed rfl))
      · rwa [hmakes.alters.others fun heq => hu heq.symm]
  | drift _ hdrifts ih => rwa [hdrifts.thread_eq t]

theorem Later.busy (hlater : Later allowed p p')
    (hstays : ∀ u c reply, allowed u c reply → u = t → c ≠ .finishExit ∧ c ≠ .giveBack .ownCache)
    (hlent : (p.heap.thread t).busy = true) : (p'.heap.thread t).busy = true := by
  induction hlater with
  | refl => exact hlent
  | @call p₁ p₂ u c reply _ hallowed hmakes ih =>
      by_cases hu : u = t
      · subst hu
        obtain ⟨hends, hkept⟩ := hstays u c reply hallowed rfl
        exact hmakes.alters.busy ih hends hkept
      · rwa [hmakes.alters.others fun heq => hu heq.symm]
  | drift _ hdrifts ih => rwa [hdrifts.thread_eq t]

theorem Reachable.cache_of_idle (hreach : p.Reachable)
    (hstatus : (p.heap.thread t).status ≠ .ready) : (p.heap.thread t).cache = .empty := by
  obtain ⟨spans, foreign, horderly⟩ := hreach.orderly
  exact horderly.sound.cache_of_idle hstatus

end Process
end PagedHeap
