import PagedHeap.Proofs.Heap.Serving
import PagedHeap.Proofs.Heap.Stages

/-!
# A process step by step

The heap does not tell who has which pointer, or which blocks have come home.  A process keeps
books on that beside its heap.  In a step, the heap does some work for a thread, or the client
stores to its allocations, or others do what they like with the kernel and with memory that the
heap does not need.  Steps come in any order, and any number of threads may be in between two
halves of borrowing a cache.

In every process that is reached by such steps the heap is sound and the books are right.
-/

namespace PagedHeap

/-- The blocks that are home after those of `used` have become those of `used'`.  Where a page is
no run any more, there are none. -/
def homeAfter (home used used' : Set Nat) : Set Nat :=
  {x | (x ∈ home ∨ x ∈ used ∧ x ∉ used') ∧ pageOf x ∈ pagesOf used'}

/-- The blocks of runs are used or have come home. -/
structure Accounts (m : Memory) (used home : Set Nat) : Prop where
  apart : Disjoint used home
  whole : ∀ c x, IsBlock m c x → pageOf x ∈ pagesOf used → x ∈ used ∨ x ∈ home
  inside : ∀ x ∈ home, pageOf x ∈ pagesOf used

theorem accounts_empty (m : Memory) : Accounts m ∅ ∅ := by
  refine ⟨Set.disjoint_empty ∅, fun c x _ hpage => ?_, fun x hx => absurd hx (Set.notMem_empty x)⟩
  obtain ⟨y, hy, -⟩ := hpage
  exact absurd hy (Set.notMem_empty y)

theorem Accounts.recycles {m m' : Memory} {used used' home : Set Nat} (h : Accounts m used home)
    (hrecycles : Recycles m used m' used') : Accounts m' used' (homeAfter home used used') where
  apart := by
    rw [Set.disjoint_left]
    intro x hx hin
    rcases hin.1 with hhome | ⟨-, hnot⟩
    · rcases hrecycles.fresh x hx with hold | hnew
      · exact Set.disjoint_left.1 h.apart hold hhome
      · exact hnew (h.inside x hhome)
    · exact hnot hx
  whole := by
    intro c x hblock hpage
    obtain ⟨y, hy, hsame⟩ := id hpage
    by_cases hin : x ∈ used'
    · exact .inl hin
    · by_cases hold : y ∈ used
      · -- The page was a run of the same category before.
        have hcategory := (hrecycles.alike y hold hy).symm
        rw [hsame] at hcategory
        have hrun : pageOf x ∈ pagesOf used := hsame ▸ mem_pagesOf hold
        rcases h.whole c x (hblock.of_runCategory hcategory) hrun with hused | hhome
        · exact .inr ⟨.inr ⟨hused, hin⟩, hpage⟩
        · exact .inr ⟨.inl hhome, hpage⟩
      · exact .inl (hrecycles.whole y hy hold c x hblock hsame.symm)
  inside _ hx := hx.2

/-- A process, with the pointers that its client has, the blocks that have come home to runs, and
the caches that are lent. -/
structure Process where
  heap : Heap
  live : Set Nat
  home : Set Nat
  loans : List (Nat × Loan)

namespace Process

/-- A process that has not allocated yet. -/
def new (build : Build) (k : Kernel) : Process := ⟨.new build k, ∅, ∅, []⟩

/-- The blocks that have not come home. -/
def used (p : Process) : Set Nat := p.heap.used p.live

/-- The process goes on with another heap and other pointers. -/
def next (p : Process) (h : Heap) (live : Set Nat) (loans : List (Nat × Loan)) : Process :=
  ⟨h, live, homeAfter p.home p.used (h.used live), loans⟩

/-- The heap did some work.  A pointer may have been passed to it, and one granted by it; what is
passed has to be the client's, and what is given back has to be lent. -/
inductive Work (p : Process) : Option Nat → Option Nat → Process → Prop where
  | serve {t : Nat} {r : HeapRequest} {a : Answer} {h : Heap}
      (hpassed : ∀ x, r.passed? = some x → x ∈ p.live) (hrun : Heap.serve t r p.heap = .ok a h) :
      Work p r.passed? a.granted?
        (p.next h (after r.passed? r.frees a.granted? p.live) p.loans)
  | borrow {t : Nat} {loan : Loan} {h : Heap} (hrun : Heap.borrow t p.heap = .ok loan h) :
      Work p none none (p.next h p.live ((t, loan) :: p.loans))
  | giveBack {t : Nat} {loan : Loan} {h : Heap} (hlent : (t, loan) ∈ p.loans)
      (hrun : Heap.giveBack t loan p.heap = .ok () h) :
      Work p none none (p.next h p.live (p.loans.erase (t, loan)))
  | count {t number : Nat} {count? : Option Nat} {h : Heap}
      (hrun : Heap.cachedCountOf t number p.heap = .ok count? h) :
      Work p none none (p.next h p.live p.loans)
  | beginExit {t : Nat} {h : Heap} (hrun : Heap.beginExit t p.heap = .ok () h) :
      Work p none none (p.next h p.live p.loans)
  | finishExit {t : Nat} {h : Heap} (hrun : Heap.finishExit t p.heap = .ok () h) :
      Work p none none (p.next h p.live p.loans)
  | stage {t : Nat} {stage : Stage} {h : Heap} (hdue : p.heap.Due t stage)
      (hrun : stage.run t p.heap = .ok () h) : Work p none none (p.next h p.live p.loans)

/-- Work that would end the process. -/
inductive Fails (p : Process) : Ending → Prop where
  | serve {t : Nat} {r : HeapRequest} {e : Ending} {h : Heap}
      (hpassed : ∀ x, r.passed? = some x → x ∈ p.live)
      (hrun : Heap.serve t r p.heap = .error e h) : Fails p e
  | borrow {t : Nat} {e : Ending} {h : Heap} (hrun : Heap.borrow t p.heap = .error e h) : Fails p e
  | giveBack {t : Nat} {loan : Loan} {e : Ending} {h : Heap}
      (hrun : Heap.giveBack t loan p.heap = .error e h) : Fails p e
  | count {t number : Nat} {e : Ending} {h : Heap}
      (hrun : Heap.cachedCountOf t number p.heap = .error e h) : Fails p e
  | beginExit {t : Nat} {e : Ending} {h : Heap} (hrun : Heap.beginExit t p.heap = .error e h) :
      Fails p e
  | finishExit {t : Nat} {e : Ending} {h : Heap} (hrun : Heap.finishExit t p.heap = .error e h) :
      Fails p e
  | stage {t : Nat} {stage : Stage} {e : Ending} {h : Heap} (hdue : p.heap.Due t stage)
      (hrun : stage.run t p.heap = .error e h) : Fails p e

/-- A step of the heap, of the client, or of others. -/
inductive Step (p : Process) : Process → Prop where
  | work {passed? granted? : Option Nat} {p' : Process} (hwork : p.Work passed? granted? p') :
      Step p p'
  | store {m : Memory}
      (hsame : ∀ y, y ∉ p.heap.bodies p.live → m.byteAt y = p.heap.kernel.memory.byteAt y) :
      Step p (p.next (p.heap.withMemory m) p.live p.loans)
  | environment {k : Kernel} (hvalid : k.Valid) (huse : p.heap.own p.live ⊆ k.inUse)
      (hsame : ∀ y ∈ p.heap.own p.live, k.memory.byteAt y = p.heap.kernel.memory.byteAt y) :
      Step p (p.next { p.heap with kernel := k } p.live p.loans)

/-- The processes that are reached from one that has not allocated. -/
inductive Reachable : Process → Prop where
  | start (build : Build) {k : Kernel} (hvalid : k.Valid) : Reachable (new build k)
  | step {p p' : Process} (hreach : Reachable p) (hstep : p.Step p') : Reachable p'

/-- The process after a request, if that is answered. -/
def serve (t : Nat) (r : HeapRequest) (p : Process) : Process :=
  match Heap.serve t r p.heap with
  | .ok a h => p.next h (after r.passed? r.frees a.granted? p.live) p.loans
  | .error _ _ => p

/-- The pointer that is granted by a request. -/
def granted? (t : Nat) (r : HeapRequest) (p : Process) : Option Nat :=
  match Heap.serve t r p.heap with
  | .ok a _ => a.granted?
  | .error _ _ => none

/-- The heap is sound and the books are right. -/
structure Orderly (p : Process) (spans : Place → Category → List Span) (foreign : Set Nat) :
    Prop where
  sound : p.heap.Sound spans p.live foreign
  accounts : Accounts p.heap.kernel.memory p.used p.home

variable {p p' : Process} {h h' : Heap} {spans spans' : Place → Category → List Span}
  {foreign foreign' live' : Set Nat} {passed? granted? : Option Nat}

/-- Where the heap goes on soundly, so does the process. -/
theorem Orderly.next (horderly : p.Orderly spans foreign)
    (hsound : h.Sound spans' live' foreign')
    (hrecycles : Recycles p.heap.kernel.memory (Heap.usedBlocks spans p.live)
      h.kernel.memory (Heap.usedBlocks spans' live')) (loans : List (Nat × Loan)) :
    (p.next h live' loans).Orderly spans' foreign' := by
  refine ⟨hsound, ?_⟩
  rw [← horderly.sound.used_eq, ← hsound.used_eq] at hrecycles
  exact horderly.accounts.recycles hrecycles

/-! ## Work -/

/-- Borrowing and giving back, and looking at a cache, change neither memory nor caches. -/
theorem evolves_of_parts {live : Set Nat} (hsound : h.Sound spans live foreign)
    (hparts : h.SameParts h') (hready : h.KeepsReady h') :
    h.Evolves spans live foreign (others none live) h' spans live := by
  have hsound' := hsound.congr hparts hready
  have hframes := Heap.Frames.of_parts hparts live foreign
  have halike := hsound.alike hsound' hframes.preserves
  rw [Heap.others_none]
  exact ⟨hsound', hframes, recycles_of_subset (Set.Subset.refl _) halike⟩

theorem evolves_of_steady {live : Set Nat} (hsteady : h.Steady spans live foreign h' spans') :
    h.Evolves spans live foreign (others none live) h' spans' live := by
  rw [Heap.others_none]
  exact ⟨hsteady.sound, hsteady.frames, hsteady.recycles⟩

/-- Whatever the heap does, it stays sound, and preserves what was not passed to it. -/
theorem Work.evolves (hwork : p.Work passed? granted? p')
    (hsound : p.heap.Sound spans p.live foreign) :
    ∃ spans', p.heap.Evolves spans p.live foreign (others passed? p.live)
      p'.heap spans' p'.live := by
  cases hwork with
  | serve hpassed hrun => exact ((hsound.ensures_serve _ _ hpassed).of_ok hrun).evolves
  | borrow hrun =>
      have hlends := (Heap.ensures_borrow p.heap _).of_ok hrun
      exact ⟨spans, evolves_of_parts hsound hlends.parts hlends.ready⟩
  | giveBack _ hrun =>
      have hreturns := (Heap.ensures_giveBack p.heap _ _).of_ok hrun
      exact ⟨spans, evolves_of_parts hsound hreturns.parts hreturns.ready⟩
  | count hrun =>
      obtain ⟨rfl, -⟩ := (Heap.ensures_cachedCountOf p.heap _ _).of_ok hrun
      exact ⟨spans, evolves_of_parts hsound (Heap.SameParts.refl _) (Heap.KeepsReady.refl _)⟩
  | beginExit hrun =>
      exact ⟨_, evolves_of_steady ((hsound.ensures_runPendingHook _).of_ok hrun).1⟩
  | finishExit hrun =>
      exact ⟨_, evolves_of_steady ((hsound.ensures_finishExit _).of_ok hrun)⟩
  | stage hdue hrun => exact ⟨_, evolves_of_steady ((hsound.ensures_stage hdue).of_ok hrun)⟩

/-- Only a request can end the process otherwise than for a lock. -/
theorem Fails.ends {e : Ending} (hfails : p.Fails e)
    (hsound : p.heap.Sound spans p.live foreign) :
    p.heap.LockEnds e ∨ ∃ r, p.heap.ServeEnds r e := by
  cases hfails with
  | serve hpassed hrun => exact .inr ⟨_, (hsound.ensures_serve _ _ hpassed).of_error hrun⟩
  | borrow hrun => exact .inl ((Heap.ensures_borrow p.heap _).of_error hrun)
  | giveBack hrun => exact ((Heap.ensures_giveBack p.heap _ _).of_error hrun).elim
  | count hrun => exact .inl ((Heap.ensures_cachedCountOf p.heap _ _).of_error hrun)
  | beginExit hrun => exact ((hsound.ensures_runPendingHook _).of_error hrun).elim
  | finishExit hrun => exact ((hsound.ensures_finishExit _).of_error hrun).elim
  | stage hdue hrun => exact ((hsound.ensures_stage hdue).of_error hrun).elim

theorem Work.heap_next (hwork : p.Work passed? granted? p') :
    p' = p.next p'.heap p'.live p'.loans := by
  cases hwork with
  | serve => rfl
  | borrow => rfl
  | giveBack => rfl
  | count => rfl
  | beginExit => rfl
  | finishExit => rfl
  | stage => rfl

theorem Work.orderly (hwork : p.Work passed? granted? p') (horderly : p.Orderly spans foreign) :
    ∃ spans', p'.Orderly spans' foreign := by
  obtain ⟨spans', hevolves⟩ := hwork.evolves horderly.sound
  rw [hwork.heap_next]
  exact ⟨spans', horderly.next hevolves.sound hevolves.recycles p'.loans⟩

/-! ## Runs -/

theorem Step.orderly (hstep : p.Step p') (horderly : p.Orderly spans foreign) :
    ∃ spans' foreign', p'.Orderly spans' foreign' := by
  have hsound := horderly.sound
  have hself := hsound.steady_self.recycles
  cases hstep with
  | work hwork =>
      obtain ⟨spans', horderly'⟩ := hwork.orderly horderly
      exact ⟨spans', foreign, horderly'⟩
  | store hsame =>
      have hbodies := Set.Subset.refl (p.heap.bodies p.live)
      have hsound' := hsound.withMemory hbodies hsame
      refine ⟨spans, foreign, horderly.next hsound' (hself.of_headers fun x hx => ?_) p.loans⟩
      exact hsound.runCategory_withMemory hbodies hsame hx
  | environment hvalid huse hsame =>
      have hsound' := hsound.environment hvalid huse hsame
      refine ⟨spans, _, horderly.next hsound' (hself.of_headers fun x hx => ?_) p.loans⟩
      exact hsound.runCategory_environment hsame hx

theorem Reachable.orderly (hreach : p.Reachable) : ∃ spans foreign, p.Orderly spans foreign := by
  induction hreach with
  | start build hvalid =>
      have hsound := Heap.sound_new build hvalid
      have hused : (new build _).used = ∅ := hsound.used_eq.trans Heap.usedBlocks_empty
      refine ⟨_, _, hsound, ?_⟩
      rw [hused]
      exact accounts_empty _
  | step _ hstep ih =>
      obtain ⟨spans, foreign, horderly⟩ := ih
      exact hstep.orderly horderly

/-! ## Requests one after the other -/

theorem reachable_boot (build : Build) {arenaPages : Nat}
    (hstop : (Kernel.firstPage + arenaPages) * pageSize ≤ Word.signedLimit) :
    (new build (.boot arenaPages none)).Reachable := by
  apply Reachable.start
  apply Kernel.valid_boot hstop
  intro b hnone
  cases hnone

theorem passed_malloc (live : Set Nat) (size : Nat) :
    ∀ x, (HeapRequest.malloc size).passed? = some x → x ∈ live :=
  fun _ hsome => absurd hsome (by simp [HeapRequest.passed?])

theorem Work.of_granted {t x : Nat} {r : HeapRequest}
    (hpassed : ∀ x, r.passed? = some x → x ∈ p.live) (hgranted : p.granted? t r = some x) :
    p.Work r.passed? (some x) (p.serve t r) := by
  unfold granted? at hgranted
  unfold Process.serve
  cases hrun : Heap.serve t r p.heap with
  | ok a h =>
      simp only [hrun] at hgranted ⊢
      rw [← hgranted]
      exact .serve hpassed hrun
  | error e h =>
      simp only [hrun] at hgranted
      exact absurd hgranted (by simp)

theorem Reachable.serve {t : Nat} {r : HeapRequest} (hreach : p.Reachable)
    (hpassed : ∀ x, r.passed? = some x → x ∈ p.live) : (p.serve t r).Reachable := by
  unfold Process.serve
  cases hrun : Heap.serve t r p.heap with
  | ok a h => exact hreach.step (.work (.serve hpassed hrun))
  | error e h => exact hreach

theorem mem_live_serve {t x : Nat} {r : HeapRequest} (hgranted : p.granted? t r = some x) :
    x ∈ (p.serve t r).live := by
  unfold granted? at hgranted
  unfold Process.serve
  cases hrun : Heap.serve t r p.heap with
  | ok a h =>
      simp only [hrun] at hgranted ⊢
      rw [hgranted]
      exact Set.mem_insert x _
  | error e h =>
      simp only [hrun] at hgranted
      exact absurd hgranted (by simp)

end Process
end PagedHeap
