import PagedHeap.Proofs.Block.Plain
import PagedHeap.Proofs.Heap.Threads
import PagedHeap.Proofs.Large.Plain

/-!
# One thread on a heap for many

A thread that has a heap for many threads to itself has its blocks in its own cache, and the
fallback cache stays empty.  A heap for one thread has all blocks in the fallback cache.  The two
are in different places, so what the one does is carried over to the other: `Heap.unshared` makes
of a heap for many threads, with one thread on it, the heap for one thread that stands for it.

`Agrees t action h` says that an action does the same in both, and there is a rule for every way in
which actions are put together.
-/

namespace PagedHeap
namespace Heap

open PagedHeap.Action

/-- The heap for one thread that has the blocks of thread `t` in its fallback cache. -/
def unshared (t : Nat) (h : Heap) : Heap where
  build := .singleThread
  kernel := h.kernel
  supplier := h.supplier.plain
  table := h.table
  fallback := (h.thread t).cache
  fallbackHeld := (h.thread t).busy
  bootstrap := .initial
  threads := ∅
  log := h.log
  errorNumber? := h.errorNumber?

/-- Nobody has used the fallback cache, and no thread is being set up. -/
structure Dormant (h : Heap) : Prop where
  build : h.build = .standard
  fallback : h.fallback = BlockCache.empty
  unlocked : h.fallbackHeld = false
  bootstrap : h.bootstrap = .initial ∨ h.bootstrap = .ready

/-- No other thread than `t` has used the heap.  The thread has its own cache to use, which is empty
at first. -/
structure Lone (t : Nat) (h : Heap) : Prop where
  dormant : h.Dormant
  idle : (h.thread t).busy = false
  status : (h.thread t).status = .ready ∨
    (h.thread t).status = .initial ∧ (h.thread t).cache = BlockCache.empty

/-- Thread `t` is alone and stays so, and what the action does is carried over. -/
structure Agrees {α : Type} (t : Nat) (action : Action Heap α) (h : Heap) : Prop where
  mirrors : Mirrors (unshared t) action action h
  lone : Ensures action h (fun _ h' => Lone t h') (fun _ _ => True)

variable {α β : Type} {h h₁ : Heap} {t : Nat}

theorem unshared_setThread (h : Heap) (t : Nat) (s : ThreadState) :
    (h.setThread t s).unshared t =
      { h.unshared t with fallback := s.cache, fallbackHeld := s.busy } := by
  rw [unshared, thread_setThread_self]
  rfl

theorem Dormant.congr (hdormant : h.Dormant) (hbuild : h₁.build = h.build)
    (hfallback : h₁.fallback = h.fallback) (hheld : h₁.fallbackHeld = h.fallbackHeld)
    (hbootstrap : h₁.bootstrap = h.bootstrap) : h₁.Dormant := by
  refine ⟨hbuild.trans hdormant.build, hfallback.trans hdormant.fallback,
    hheld.trans hdormant.unlocked, ?_⟩
  rw [hbootstrap]
  exact hdormant.bootstrap

theorem Dormant.threading (hdormant : h.Dormant) : h.build.threading = .shared := by
  rw [hdormant.build]
  rfl

theorem Lone.congr (hlone : Lone t h) (hbuild : h₁.build = h.build)
    (hfallback : h₁.fallback = h.fallback) (hheld : h₁.fallbackHeld = h.fallbackHeld)
    (hbootstrap : h₁.bootstrap = h.bootstrap) (hthread : h₁.thread t = h.thread t) :
    Lone t h₁ := by
  refine ⟨hlone.dormant.congr hbuild hfallback hheld hbootstrap, ?_, ?_⟩
  · rw [hthread]
    exact hlone.idle
  · rw [hthread]
    exact hlone.status

/-! ## Rules -/

theorem agrees_pure (a : α) (hlone : Lone t h) : Agrees t (pure a) h :=
  ⟨mirrors_pure a h, .answer hlone⟩

theorem Agrees.bind {action : Action Heap α} {next : α → Action Heap β}
    (hagrees : Agrees t action h)
    (hnext : ∀ a h₁, action h = .ok a h₁ → Lone t h₁ → Agrees t (next a) h₁) :
    Agrees t (action >>= next) h := by
  have hlone : ∀ {a h₁}, action h = .ok a h₁ → Lone t h₁ := fun hrun => hagrees.lone.of_ok hrun
  refine ⟨hagrees.mirrors.bind fun a h₁ hrun => (hnext a h₁ hrun (hlone hrun)).mirrors, ?_⟩
  rw [ensures_bind, ensures_iff]
  cases hrun : action h with
  | ok a h₁ => exact (hnext a h₁ hrun (hlone hrun)).lone
  | error e h₁ => trivial

theorem Agrees.map {action : Action Heap α} (hagrees : Agrees t action h) (f : α → β) :
    Agrees t (f <$> action) h := by
  refine ⟨hagrees.mirrors.map f, ?_⟩
  rw [ensures_map]
  exact hagrees.lone

theorem Agrees.onlyIf {action : Action Heap Unit} {condition : Bool} (hlone : Lone t h)
    (hagrees : Agrees t action h) : Agrees t (onlyIf condition action) h := by
  cases condition with
  | true => exact hagrees
  | false => exact agrees_pure () hlone

theorem Agrees.ite {p : Prop} [Decidable p] {action other : Action Heap α}
    (hagrees : Agrees t action h) (hother : Agrees t other h) :
    Agrees t (if p then action else other) h := by
  split
  · exact hagrees
  · exact hother

theorem agrees_checked (n? : Option Nat) (hlone : Lone t h) : Agrees t (checked n?) h := by
  refine ⟨mirrors_checked n? h, ?_⟩
  cases n? with
  | some n => exact .answer hlone
  | none => exact ensures_halt.2 trivial

/-! ## Parts -/

theorem agrees_onKernel (action : Action Kernel α) (hlone : Lone t h) :
    Agrees t (onKernel action) h := by
  have hblind : Blind (unshared t) (onKernel action) :=
    blind_within action (fun _ => rfl) fun _ _ => rfl
  refine ⟨hblind h, ?_⟩
  rw [onKernel, ensures_within]
  exact .of_all (fun _ _ => hlone.congr rfl rfl rfl rfl rfl) fun _ _ => trivial

theorem agrees_onLarge {action : Action LargeHeap α} (hlone : Lone t h)
    (hmirrors : Mirrors LargeHeap.plain action action h.largeHeap) :
    Agrees t (onLarge action) h := by
  refine ⟨hmirrors.within rfl fun _ => rfl, ?_⟩
  rw [onLarge, ensures_within]
  exact .of_all (fun _ _ => hlone.congr rfl rfl rfl rfl rfl) fun _ _ => trivial

theorem agrees_logRecord (r : LogRecord) (hlone : Lone t h) : Agrees t (logRecord r) h :=
  ⟨mirrors_modify rfl, ensures_modify.2 (hlone.congr rfl rfl rfl rfl rfl)⟩

theorem agrees_setErrorNumber (e : ErrorNumber) (hlone : Lone t h) :
    Agrees t (setErrorNumber e) h :=
  ⟨mirrors_modify rfl, ensures_modify.2 (hlone.congr rfl rfl rfl rfl rfl)⟩

/-! ## Caches -/

/-- The heap after thread `t` was set up. -/
def readied (t : Nat) (h : Heap) : Heap :=
  let h₁ : Heap := { h.setThread t { h.thread t with status := .settingUp } with bootstrap := .ready }
  h₁.setThread t { h₁.thread t with status := .ready }

theorem thread_readied (h : Heap) (t : Nat) :
    (h.readied t).thread t = { h.thread t with status := .ready } := by
  have hset : ∀ s, ({ h.setThread t s with bootstrap := .ready } : Heap).thread t = s :=
    fun s => thread_setThread_self h t s
  rw [readied, thread_setThread_self, hset]

theorem unshared_readied (h : Heap) (t : Nat) : (h.readied t).unshared t = h.unshared t := by
  have hset : ∀ s, ({ h.setThread t s with bootstrap := .ready } : Heap).thread t = s :=
    fun s => thread_setThread_self h t s
  rw [readied, unshared_setThread, hset]
  show { ({ h.setThread t { h.thread t with status := .settingUp } with
    bootstrap := .ready } : Heap).unshared t with
      fallback := (h.thread t).cache, fallbackHeld := (h.thread t).busy } = h.unshared t
  rfl

/-- A thread that is alone has a cache of its own or gets one, and that does not show in the heap for
one thread. -/
theorem Lone.ensures_usesOwnCache (hlone : Lone t h) :
    Ensures (usesOwnCache t) h
      (fun own h₁ => own = true ∧ h₁.Dormant ∧ (h₁.thread t).status = .ready ∧
        h₁.unshared t = h.unshared t) never := by
  have hthreading := hlone.dormant.threading
  simp only [usesOwnCache, ensures_bind, ensures_get, hthreading, hlone.idle, Bool.false_eq_true,
    if_false, obtainCache]
  rcases hlone.status with hready | ⟨hinitial, -⟩
  · rw [hready]
    exact .answer ⟨rfl, hlone.dormant, hready, rfl⟩
  · have hfirst : h.bootstrap = .ready ∨ h.bootstrap = .initial := hlone.dormant.bootstrap.symm
    have hset : ∀ b, (({ h with bootstrap := b } : Heap).readied t).Dormant ∧
        ((({ h with bootstrap := b } : Heap).readied t).thread t).status = .ready ∧
        (({ h with bootstrap := b } : Heap).readied t).unshared t = h.unshared t := by
      intro b
      refine ⟨⟨hlone.dormant.build, hlone.dormant.fallback, hlone.dormant.unlocked, .inr rfl⟩, ?_,
        unshared_readied _ t⟩
      rw [thread_readied]
    simp only [hinitial, setUp, beginSetUp, finishSetUp, ensures_bind, ensures_get, if_pos hfirst,
      ensures_onlyIf, ensures_setBootstrap, ensures_setStatus, ensures_pure, if_true, true_and]
    split
    · exact hset .settingUp
    · exact hset h.bootstrap

/-- Thread `t` borrows its own cache, and the heap for one thread is locked. -/
theorem Lone.exists_borrow (hlone : Lone t h) :
    ∃ h₁, borrow t h = .ok .ownCache h₁ ∧ h₁.Dormant ∧ (h₁.thread t).status = .ready ∧
      h₁.unshared t = { h.unshared t with fallbackHeld := true } := by
  have hborrows : Ensures (borrow t) h
      (fun loan h₁ => loan = .ownCache ∧ h₁.Dormant ∧ (h₁.thread t).status = .ready ∧
        h₁.unshared t = { h.unshared t with fallbackHeld := true }) never := by
    rw [borrow, ensures_bind]
    apply hlone.ensures_usesOwnCache.imp
    rintro own h₁ ⟨rfl, hdormant, hready, hsame⟩
    simp only [if_true, ensures_bind, ensures_setBusy, ensures_pure, true_and]
    refine ⟨hdormant.congr rfl rfl rfl rfl, ?_, ?_⟩
    · rw [thread_setThread_self]
      exact hready
    · rw [unshared_setThread, hsame, ← hsame]
      rfl
  obtain ⟨_, h₁, hrun, rfl, hborrowed⟩ := hborrows.exists_ok
  exact ⟨h₁, hrun, hborrowed⟩

theorem lockFallback_of_free (hfree : h.fallbackHeld = false) :
    lockFallback h = .ok () { h with fallbackHeld := true } := by
  rw [lockFallback, get_bind_apply, hfree]
  rfl

/-- What is done on the cache of the thread is carried over to the fallback cache. -/
theorem agrees_withCache {operation : Action BlockHeap α} (hlone : Lone t h)
    (hblind : Blind BlockHeap.plain operation) : Agrees t (withCache t operation) h := by
  obtain ⟨h₁, hborrow, hdormant, hready, hunshared⟩ := hlone.exists_borrow
  have hlock := lockFallback_of_free (h := h.unshared t) hlone.idle
  rw [← hunshared] at hlock
  have hread : fallbackPart.read (h₁.unshared t) = ((threadPart t).read h₁).plain := rfl
  have hwrite : ∀ b : BlockHeap, fallbackPart.write b.plain (h₁.unshared t) =
      ((threadPart t).write b h₁).unshared t := by
    intro b
    rw [threadPart, unshared_setThread]
    rfl
  constructor
  · have hmirrors : Mirrors (unshared t) (withCache t operation) (onFallback operation) h := by
      refine Mirrors.of_answers hborrow hlock ?_
      refine (Mirrors.within hread hwrite (hblind _)).bind fun a h₂ _ => ?_
      refine (mirrors_modify ?_).bind fun _ h₃ _ => mirrors_pure a h₃
      rw [unshared_setThread]
      rfl
    show withCache t operation (h.unshared t) = _
    rw [withCache_of_notOwn (usesOwnCache_of_exclusive rfl)]
    exact hmirrors
  · rw [withCache, ensures_bind, ensures_iff, hborrow]
    show Ensures _ h₁ _ _
    rw [ensures_bind, ensures_within]
    refine .of_all (fun a b => ?_) fun _ _ => trivial
    simp only [giveBack, ensures_bind, ensures_setBusy]
    refine .answer ⟨hdormant.congr rfl rfl rfl rfl, ?_, .inl ?_⟩
    · rw [thread_setThread_self]
    · rw [thread_setThread_self, loanPart, thread_threadPart_self]
      exact hready

/-! ## Flushing -/

/-- There is nothing to flush in a cache without blocks. -/
theorem flushEach_of_empty {b : BlockHeap} (hempty : b.cache = BlockCache.empty)
    (categories : List Category) : BlockHeap.flushEach categories b = .ok () b := by
  have hflush : ∀ c, BlockHeap.flush c b = .ok () b := by
    intro c
    have hlist : b.cache.list c = {} := by
      rw [hempty]
      exact BlockCache.list_empty c
    have hsame : b.cache.setList c {} = b.cache := by
      rw [← hlist]
      exact congrArg BlockCache.mk (Vector.set_getElem_self c.isLt)
    show BlockHeap.releaseChain Word.limit (b.cache.list c).head?
      ({ b with cache := b.cache.setList c {} } : BlockHeap) = _
    rw [hlist, hsame]
    cases Word.limit <;> rfl
  induction categories with
  | nil => rfl
  | cons c rest ih =>
      show (BlockHeap.flush c >>= fun _ => BlockHeap.flushEach rest) b = _
      simp only [bind, EStateM.bind, hflush, ih]

theorem flushFallback_of_empty (hempty : h.fallback = BlockCache.empty)
    (hfree : h.fallbackHeld = false) : flushFallback h = .ok () h := by
  have hflush : within fallbackPart BlockHeap.flushAll { h with fallbackHeld := true } =
      .ok () { h with fallbackHeld := true } := by
    have hnothing : BlockHeap.flushAll (fallbackPart.read { h with fallbackHeld := true }) =
        .ok () (fallbackPart.read { h with fallbackHeld := true }) :=
      flushEach_of_empty hempty Category.all
    rw [Action.within, hnothing]
    rfl
  simp only [flushFallback, bind, EStateM.bind, lockFallback_of_free hfree, hflush]
  show EStateM.Result.ok () ({ h with fallbackHeld := false } : Heap) = _
  rw [← hfree]

/-- A thread that has a cache of its own flushes that. -/
theorem flushOwn_of_ready (hlone : Lone t h) (hready : (h.thread t).status = .ready) :
    flushOwn t h = withCache t BlockHeap.flushAll h := by
  have hthreading := hlone.dormant.threading
  have huses : usesOwnCache t h = .ok true h := by
    simp only [usesOwnCache, get_bind_apply, hthreading, hlone.idle, Bool.false_eq_true, if_false,
      obtainCache, hready]
    rfl
  rw [flushOwn, get_bind_apply, if_pos ⟨hthreading, hlone.idle, hready⟩]
  simp only [withCache, borrow, bind, EStateM.bind, huses]
  rfl

theorem Agrees.congr {action other : Action Heap α} (hagrees : Agrees t other h)
    (hsame : action h = other h) (himage : action (h.unshared t) = other (h.unshared t)) :
    Agrees t action h := by
  constructor
  · show action (h.unshared t) = carry (unshared t) (action h)
    rw [hsame, himage]
    exact hagrees.mirrors
  · rw [ensures_iff, hsame]
    exact hagrees.lone.outcome

/-- The cache of the thread is flushed, or the fallback cache in the heap for one thread. -/
theorem agrees_flushes (hlone : Lone t h) : Agrees t (do flushOwn t; flushFallback) h := by
  have hother : ∀ h₁ : Heap, h₁.Dormant → flushFallback h₁ = .ok () h₁ :=
    fun _ hdormant => flushFallback_of_empty hdormant.fallback hdormant.unlocked
  have himage : (do flushOwn t; flushFallback : Action Heap Unit) (h.unshared t) =
      flushFallback (h.unshared t) := rfl
  rcases hlone.status with hready | ⟨hinitial, hempty⟩
  · have hflush := agrees_withCache hlone BlockHeap.blind_flushAll
    refine hflush.congr ?_ ?_
    · have hafter := hflush.lone.outcome
      simp only [bind, EStateM.bind, flushOwn_of_ready hlone hready]
      cases hrun : withCache t BlockHeap.flushAll h with
      | ok a h₁ =>
          rw [hrun] at hafter
          exact hother h₁ hafter.dormant
      | error e h₁ => rfl
    · rw [himage, withCache_of_notOwn (usesOwnCache_of_exclusive rfl)]
      rfl
  · -- The thread has no cache yet, and no block was freed.
    refine (agrees_pure () hlone).congr ?_ (himage.trans (flushFallback_of_empty hempty hlone.idle))
    have hnone : flushOwn t h = .ok () h := by
      rw [flushOwn, get_bind_apply, if_neg fun hflushes => ?_]
      · rfl
      · rw [hinitial] at hflushes
        exact absurd hflushes.2.2 (by decide)
    simp only [bind, EStateM.bind, hnone]
    exact hother h hlone.dormant

end Heap
end PagedHeap
