import PagedHeap.Heap.Operations
import PagedHeap.Proofs.Action

/-!
# Lending a cache

Borrowing a cache and giving it back changes nothing but who may use it.  Between the two, an
operation on blocks works on the cache at one place, that of the thread or the fallback, and
leaves those at all other places alone.
-/

namespace PagedHeap

/-- Where there is a cache of blocks. -/
inductive Place where
  | fallback
  | thread (t : Nat)
  deriving DecidableEq, Repr

namespace Heap

/-- The cache at a place. -/
def cacheAt (h : Heap) : Place → BlockCache
  | .fallback => h.fallback
  | .thread t => (h.thread t).cache

/-- The supplier at work. -/
def paging (h : Heap) : Paging := ⟨h.kernel, h.supplier⟩

/-- The blocks, on the cache at a place. -/
def blocksAt (h : Heap) (place : Place) : BlockHeap := ⟨⟨h.kernel, h.supplier⟩, h.cacheAt place⟩

/-- The large allocations. -/
def largeHeap (h : Heap) : LargeHeap := ⟨⟨h.kernel, h.supplier⟩, h.table⟩

/-- The same kernel, supplier, sizes and caches. -/
structure SameParts (h h' : Heap) : Prop where
  kernel : h'.kernel = h.kernel
  supplier : h'.supplier = h.supplier
  table : h'.table = h.table
  caches : ∀ place, h'.cacheAt place = h.cacheAt place

/-- The same build, and the same use of the fallback cache. -/
structure SameRules (h h' : Heap) : Prop where
  build : h'.build = h.build
  held : h'.fallbackHeld = h.fallbackHeld

/-- The blocks on the cache at a place are now `b`, and everything else is as before. -/
structure Receives (h : Heap) (place : Place) (b : BlockHeap) (h' : Heap) : Prop where
  blocks : h'.blocksAt place = b
  table : h'.table = h.table
  others : ∀ other, other ≠ place → h'.cacheAt other = h.cacheAt other

/-- A thread that had a cache of its own has one still. -/
def KeepsReady (h h' : Heap) : Prop :=
  ∀ t, (h'.thread t).status ≠ .ready → (h.thread t).status ≠ .ready

/-- A request that needs the fallback cache ends the process while that is held. -/
def LockEnds (h : Heap) (e : Ending) : Prop :=
  h.fallbackHeld = true ∧ e = LockWord.reentered h.build.threading

variable {h h' h'' : Heap} {t : Nat} {place : Place} {α : Type} {b : BlockHeap}

theorem SameParts.refl (h : Heap) : h.SameParts h := ⟨rfl, rfl, rfl, fun _ => rfl⟩

theorem SameParts.trans (first : h.SameParts h') (second : h'.SameParts h'') :
    h.SameParts h'' :=
  ⟨second.kernel.trans first.kernel, second.supplier.trans first.supplier,
    second.table.trans first.table, fun place => (second.caches place).trans (first.caches place)⟩

theorem SameParts.blocksAt (h₁ : h.SameParts h') (place : Place) :
    h'.blocksAt place = h.blocksAt place := by
  rw [Heap.blocksAt, Heap.blocksAt, h₁.kernel, h₁.supplier, h₁.caches]

theorem SameParts.paging (h₁ : h.SameParts h') : h'.paging = h.paging := by
  rw [Heap.paging, Heap.paging, h₁.kernel, h₁.supplier]

theorem SameRules.refl (h : Heap) : h.SameRules h := ⟨rfl, rfl⟩

theorem SameRules.trans (first : h.SameRules h') (second : h'.SameRules h'') : h.SameRules h'' :=
  ⟨second.build.trans first.build, second.held.trans first.held⟩

theorem KeepsReady.refl (h : Heap) : h.KeepsReady h := fun _ hready => hready

theorem KeepsReady.trans (first : h.KeepsReady h') (second : h'.KeepsReady h'') :
    h.KeepsReady h'' :=
  fun t hready => first t (second t hready)

/-- What is received after and before a change of other things. -/
theorem Receives.congr (before : h.SameParts h') (received : h'.Receives place b h'')
    {h₃ : Heap} (after : h''.SameParts h₃) : h.Receives place b h₃ where
  blocks := (after.blocksAt place).trans received.blocks
  table := after.table.trans (received.table.trans before.table)
  others other hother :=
    (after.caches other).trans ((received.others other hother).trans (before.caches other))

/-! ## Threads -/

/-- A thread is told something else, and keeps its cache. -/
theorem sameParts_setThread {s : ThreadState} (hcache : s.cache = (h.thread t).cache) :
    h.SameParts (h.setThread t s) := by
  refine ⟨rfl, rfl, rfl, fun place => ?_⟩
  cases place with
  | fallback => rfl
  | thread u =>
      rw [cacheAt, thread_setThread]
      split
      · rename_i heq
        rw [hcache, heq]
        rfl
      · rfl

theorem keepsReady_setThread {s : ThreadState}
    (hstatus : s.status ≠ .ready → (h.thread t).status ≠ .ready) :
    h.KeepsReady (h.setThread t s) := by
  intro u hready
  rw [thread_setThread] at hready
  split at hready
  · rename_i heq
    rw [heq]
    exact hstatus hready
  · exact hready

variable {ends : Ending → Heap → Prop}

@[simp] theorem ensures_setStatus {status : ThreadStatus} {post : Unit → Heap → Prop} :
    Action.Ensures (setStatus t status) h post ends ↔
      post () (h.setThread t { h.thread t with status := status }) :=
  Action.ensures_iff

@[simp] theorem ensures_setBusy {busy : Bool} {post : Unit → Heap → Prop} :
    Action.Ensures (setBusy t busy) h post ends ↔
      post () (h.setThread t { h.thread t with busy := busy }) :=
  Action.ensures_iff

@[simp] theorem ensures_setBootstrap {status : ThreadStatus} {post : Unit → Heap → Prop} :
    Action.Ensures (setBootstrap status) h post ends ↔ post () { h with bootstrap := status } :=
  Action.ensures_iff

theorem sameParts_held (h : Heap) (held : Bool) :
    h.SameParts { h with fallbackHeld := held } := by
  refine ⟨rfl, rfl, rfl, fun place => ?_⟩
  cases place with
  | fallback => rfl
  | thread u => rfl

/-! ## Borrowing -/

/-- What borrowing comes to.  A thread that uses its own cache is ready. -/
structure Lends (h : Heap) (t : Nat) (loan : Loan) (h' : Heap) : Prop where
  parts : h.SameParts h'
  ready : h.KeepsReady h'
  build : h'.build = h.build
  own : loan = .ownCache → h'.fallbackHeld = h.fallbackHeld ∧ (h'.thread t).status = .ready
  shared : loan = .fallback → h.fallbackHeld = false ∧ h'.fallbackHeld = true

/-- Whether a thread uses its own cache, after it may have been set up. -/
structure Chooses (h : Heap) (t : Nat) (own : Bool) (h' : Heap) : Prop where
  parts : h.SameParts h'
  ready : h.KeepsReady h'
  rules : h.SameRules h'
  own : own = true → (h'.thread t).status = .ready

theorem Chooses.no (h : Heap) (t : Nat) : h.Chooses t false h :=
  ⟨SameParts.refl h, KeepsReady.refl h, SameRules.refl h, fun htrue => absurd htrue (by simp)⟩

theorem Chooses.trans {own : Bool} (first : h.Chooses t false h')
    (second : h'.Chooses t own h'') : h.Chooses t own h'' :=
  ⟨first.parts.trans second.parts, first.ready.trans second.ready,
    first.rules.trans second.rules, second.own⟩

theorem chooses_bootstrap (h : Heap) (t : Nat) (status : ThreadStatus) :
    h.Chooses t false { h with bootstrap := status } := by
  refine ⟨⟨rfl, rfl, rfl, fun place => ?_⟩, fun _ hready => hready, ⟨rfl, rfl⟩, by simp⟩
  cases place with
  | fallback => rfl
  | thread u => rfl

theorem chooses_setStatus {status : ThreadStatus} {own : Bool}
    (hstatus : status ≠ .ready → (h.thread t).status ≠ .ready)
    (hown : own = true → status = .ready) :
    h.Chooses t own (h.setThread t { h.thread t with status := status }) := by
  refine ⟨sameParts_setThread rfl, keepsReady_setThread hstatus, ⟨rfl, rfl⟩, fun htrue => ?_⟩
  rw [thread_setThread, if_pos rfl]
  exact hown htrue

/-- A thread that has begun to set up is not ready yet. -/
theorem ensures_beginSetUp (hunready : (h.thread t).status ≠ .ready) :
    Action.Ensures (beginSetUp t) h
      (fun _ h' => h.Chooses t false h' ∧ (h'.thread t).status ≠ .ready) Action.never := by
  simp only [beginSetUp, Action.ensures_bind, Action.ensures_get, Action.ensures_ite]
  split
  · have hset : ∀ h₁ : Heap, h.Chooses t false h₁ → (h₁.thread t).status ≠ .ready →
        h.Chooses t false (h₁.setThread t { h₁.thread t with status := .settingUp }) ∧
          ((h₁.setThread t { h₁.thread t with status := .settingUp }).thread t).status ≠ .ready := by
      intro h₁ hfirst hunready
      refine ⟨hfirst.trans (chooses_setStatus (fun _ => hunready) (by simp)), ?_⟩
      rw [thread_setThread, if_pos rfl]
      simp
    simp only [Action.ensures_onlyIf, ensures_setBootstrap, ensures_setStatus, Action.ensures_pure]
    split
    · exact hset _ (chooses_bootstrap h t .settingUp) hunready
    · exact hset h (Chooses.no h t) hunready
  · exact .answer ⟨Chooses.no h t, hunready⟩

theorem ensures_finishSetUp (hunready : (h.thread t).status ≠ .ready) (registered : Bool) :
    Action.Ensures (finishSetUp t registered) h (fun own h' => h.Chooses t own h')
      Action.never := by
  simp only [finishSetUp, Action.ensures_bind, ensures_setBootstrap, ensures_setStatus,
    Action.ensures_pure]
  refine (chooses_bootstrap h t .ready).trans (chooses_setStatus (fun _ => hunready) fun hown => ?_)
  rw [if_pos hown]

theorem ensures_setUp (hunready : (h.thread t).status ≠ .ready) :
    Action.Ensures (setUp t) h (fun own h' => h.Chooses t own h') Action.never := by
  rw [setUp, Action.ensures_bind]
  apply (ensures_beginSetUp hunready).imp
  rintro begun h₁ ⟨hbegins, hunready'⟩
  rw [Action.ensures_ite]
  split
  · exact (ensures_finishSetUp hunready' true).imp fun own h' hfinishes => hbegins.trans hfinishes
  · exact .answer hbegins

theorem ensures_usesOwnCache (h : Heap) (t : Nat) :
    Action.Ensures (usesOwnCache t) h (fun own h' => h.Chooses t own h') Action.never := by
  simp only [usesOwnCache, Action.ensures_bind, Action.ensures_get]
  cases h.build.threading with
  | exclusive => exact .answer (Chooses.no h t)
  | shared =>
      rw [Action.ensures_ite]
      split
      · exact .answer (Chooses.no h t)
      · simp only [obtainCache, Action.ensures_bind, Action.ensures_get]
        cases hstatus : (h.thread t).status with
        | ready =>
            exact .answer ⟨SameParts.refl h, KeepsReady.refl h, SameRules.refl h,
              fun _ => hstatus⟩
        | initial => exact ensures_setUp (by simp [hstatus])
        | settingUp => exact .answer (Chooses.no h t)
        | tearingDown => exact .answer (Chooses.no h t)
        | dead => exact .answer (Chooses.no h t)

theorem ensures_lockFallback (h : Heap) :
    Action.Ensures lockFallback h
      (fun _ h' => h.fallbackHeld = false ∧ h' = { h with fallbackHeld := true })
      (fun e _ => h.LockEnds e) := by
  simp only [lockFallback, Action.ensures_bind, Action.ensures_get, Action.ensures_ite]
  split
  · rename_i hheld
    have hends : h.LockEnds (LockWord.reentered h.build.threading) := ⟨hheld, rfl⟩
    cases hthreading : h.build.threading with
    | exclusive =>
        rw [hthreading] at hends
        simp only [LockWord.reentered, corrupted, Action.ensures_within, Kernel.ensures_corrupted]
        exact hends
    | shared =>
        rw [hthreading] at hends
        simp only [LockWord.reentered, Action.ensures_halt]
        exact hends
  · rename_i hfree
    rw [Action.ensures_set]
    exact ⟨by simpa using hfree, rfl⟩

/-- Where the blocks are that are counted for a thread, if they are counted. -/
def countedPlace? (h : Heap) (t : Nat) : Option Place :=
  match h.build.threading with
  | .shared =>
      if (h.thread t).status = .ready ∧ (h.thread t).busy = false then some (.thread t) else none
  | .exclusive => some .fallback

/-- Counting changes nothing. -/
theorem ensures_cachedCount (h : Heap) (t : Nat) (c : Category) :
    Action.Ensures (cachedCount t c) h
      (fun n? h' => h' = h ∧
        n? = (h.countedPlace? t).map fun place => (h.cacheAt place).count c)
      (fun e _ => h.LockEnds e) := by
  simp only [cachedCount, countedPlace?, Action.ensures_bind, Action.ensures_get]
  cases h.build.threading with
  | shared =>
      refine .answer ⟨rfl, ?_⟩
      simp only
      split <;> rfl
  | exclusive =>
      simp only [Action.ensures_bind, unlockFallback, Action.ensures_modify]
      apply (ensures_lockFallback h).imp
      rintro _ _ ⟨hfree, rfl⟩
      refine .answer ⟨?_, rfl⟩
      rw [← hfree]

theorem ensures_cachedCountOf (h : Heap) (t number : Nat) :
    Action.Ensures (cachedCountOf t number) h
      (fun n? h' => h' = h ∧ n? = (Category.ofNat? number).bind fun c =>
        (h.countedPlace? t).map fun place => (h.cacheAt place).count c)
      (fun e _ => h.LockEnds e) := by
  rw [cachedCountOf]
  cases Category.ofNat? number with
  | none => exact .answer ⟨rfl, rfl⟩
  | some c => exact ensures_cachedCount h t c

theorem ensures_borrow (h : Heap) (t : Nat) :
    Action.Ensures (borrow t) h (fun loan h' => h.Lends t loan h') (fun e _ => h.LockEnds e) := by
  rw [borrow, Action.ensures_bind]
  apply (ensures_usesOwnCache h t).weaken
  intro own h₁ hchooses
  cases own with
  | true =>
      simp only [if_true, Action.ensures_bind, ensures_setBusy, Action.ensures_pure]
      refine ⟨hchooses.parts.trans (sameParts_setThread rfl),
        hchooses.ready.trans (keepsReady_setThread fun hready => hready), hchooses.rules.build,
        fun _ => ⟨hchooses.rules.held, ?_⟩, fun hother => absurd hother (by simp)⟩
      rw [thread_setThread, if_pos rfl]
      exact hchooses.own rfl
  | false =>
      simp only [Bool.false_eq_true, if_false, Action.ensures_bind, Action.ensures_pure]
      apply (ensures_lockFallback h₁).mono
      · intro _ h₂ hpost
        obtain ⟨hfree, rfl⟩ := hpost
        rw [hchooses.rules.held] at hfree
        exact ⟨hchooses.parts.trans (sameParts_held h₁ true), hchooses.ready, hchooses.rules.build,
          fun hother => absurd hother (by simp), fun _ => ⟨hfree, rfl⟩⟩
      · intro e _ hends
        rwa [LockEnds, hchooses.rules.held, hchooses.rules.build] at hends

/-- What giving a cache back comes to. -/
structure Returns (h : Heap) (loan : Loan) (h' : Heap) : Prop where
  parts : h.SameParts h'
  ready : h.KeepsReady h'
  build : h'.build = h.build
  held : h'.fallbackHeld = match loan with
    | .ownCache => h.fallbackHeld
    | .fallback => false
  status : ∀ u, (h'.thread u).status = (h.thread u).status

theorem ensures_giveBack (h : Heap) (t : Nat) (loan : Loan) :
    Action.Ensures (giveBack t loan) h (fun _ h' => h.Returns loan h') Action.never := by
  cases loan with
  | ownCache =>
      simp only [giveBack, ensures_setBusy]
      refine ⟨sameParts_setThread rfl, keepsReady_setThread fun hready => hready, rfl, rfl,
        fun u => ?_⟩
      rw [thread_setThread]
      split
      · rename_i heq
        rw [heq]
      · rfl
  | fallback =>
      simp only [giveBack, unlockFallback, Action.ensures_modify]
      exact ⟨sameParts_held h false, fun _ hready => hready, rfl, rfl, fun _ => rfl⟩

/-! ## An operation on a borrowed cache -/

/-- The place of a loan. -/
def placeOf (t : Nat) : Loan → Place
  | .ownCache => .thread t
  | .fallback => .fallback

theorem read_loanPart (h : Heap) (t : Nat) (loan : Loan) :
    (loanPart t loan).read h = h.blocksAt (placeOf t loan) := by
  cases loan with
  | ownCache => rfl
  | fallback => rfl

theorem thread_threadPart (h : Heap) (t : Nat) (b : BlockHeap) (u : Nat) :
    ((threadPart t).write b h).thread u =
      if u = t then { h.thread t with cache := b.cache } else h.thread u :=
  thread_setThread { h with kernel := b.paging.kernel, supplier := b.paging.supplier } t u
    { h.thread t with cache := b.cache }

theorem receives_threadPart (h : Heap) (t : Nat) (b : BlockHeap) :
    h.Receives (.thread t) b ((threadPart t).write b h) := by
  have hthread := thread_threadPart h t b
  refine ⟨?_, rfl, fun other hother => ?_⟩
  · simp only [blocksAt, cacheAt, hthread, if_pos]
    rfl
  · cases other with
    | fallback => rfl
    | thread u =>
        have hne : u ≠ t := fun heq => hother (by rw [heq])
        simp only [cacheAt, hthread, if_neg hne]

theorem status_threadPart (h : Heap) (t : Nat) (b : BlockHeap) (u : Nat) :
    (((threadPart t).write b h).thread u).status = (h.thread u).status := by
  rw [thread_threadPart]
  split
  · rename_i heq
    rw [heq]
  · rfl

theorem receives_fallbackPart (h : Heap) (b : BlockHeap) :
    h.Receives .fallback b (fallbackPart.write b h) := by
  refine ⟨rfl, rfl, fun other hother => ?_⟩
  cases other with
  | fallback => exact absurd rfl hother
  | thread u => rfl

theorem receives_loanPart (h : Heap) (t : Nat) (loan : Loan) (b : BlockHeap) :
    h.Receives (placeOf t loan) b ((loanPart t loan).write b h) := by
  cases loan with
  | ownCache => exact receives_threadPart h t b
  | fallback => exact receives_fallbackPart h b

theorem status_loanPart (h : Heap) (t : Nat) (loan : Loan) (b : BlockHeap) (u : Nat) :
    (((loanPart t loan).write b h).thread u).status = (h.thread u).status := by
  cases loan with
  | ownCache => exact status_threadPart h t b u
  | fallback => rfl

theorem sameRules_loanPart (h : Heap) (t : Nat) (loan : Loan) (b : BlockHeap) :
    h.SameRules ((loanPart t loan).write b h) := by
  cases loan with
  | ownCache => exact ⟨rfl, rfl⟩
  | fallback => exact ⟨rfl, rfl⟩

/-- The operation was served by the cache at a place, and came to `b` there. -/
structure Served (h : Heap) (place : Place) (b : BlockHeap) (h' : Heap) : Prop where
  receives : h.Receives place b h'
  rules : h.SameRules h'
  ready : h.KeepsReady h'
  own : ∀ t, place = .thread t → (h'.thread t).status = .ready

/-- The thread was served by the cache that it borrows, and that came to `b`. -/
def ServedBy (h : Heap) (t : Nat) (place : Place) (b : BlockHeap) (h' : Heap) : Prop :=
  h.Served place b h' ∧ ∃ loan h₁, borrow t h = .ok loan h₁ ∧ place = placeOf t loan

/-- Whatever cache serves a thread, the operation there comes out as it does by itself. -/
theorem ensures_withCache_or {operation : Action BlockHeap α}
    {post : Place → α → BlockHeap → Prop} {P : Ending → Prop}
    (hoperation : ∀ place,
      Action.Ensures operation (h.blocksAt place) (post place) (fun e _ => P e)) :
    Action.Ensures (withCache t operation) h
      (fun a h' => ∃ place b, post place a b ∧ h.ServedBy t place b h')
      (fun e _ => h.LockEnds e ∨ P e) := by
  rw [withCache, Action.ensures_bind]
  apply (ensures_borrow h t).with_run.mono
  · rintro loan h₁ ⟨hrun, hlends⟩
    rw [Action.ensures_bind, Action.ensures_within, read_loanPart, hlends.parts.blocksAt]
    apply (hoperation (placeOf t loan)).mono
    · intro a b hpost
      have hreceives := receives_loanPart h₁ t loan b
      rw [Action.ensures_bind]
      apply (ensures_giveBack ((loanPart t loan).write b h₁) t loan).weaken
      intro _ h₂ hreturns
      have hrules := sameRules_loanPart h₁ t loan b
      have hstatus := fun u => (hreturns.status u).trans (status_loanPart h₁ t loan b u)
      refine .answer ⟨placeOf t loan, b, hpost, ⟨hreceives.congr hlends.parts hreturns.parts,
        ⟨hreturns.build.trans (hrules.build.trans hlends.build), ?_⟩, fun u hready => ?_,
        fun u hplace => ?_⟩, loan, h₁, hrun, rfl⟩
      · have hheld := hreturns.held
        cases loan with
        | ownCache => exact hheld.trans (hrules.held.trans (hlends.own rfl).1)
        | fallback => exact hheld.trans (hlends.shared rfl).1.symm
      · rw [hstatus] at hready
        exact hlends.ready u hready
      · cases loan with
        | ownCache =>
            obtain rfl := Place.thread.inj hplace
            rw [hstatus]
            exact (hlends.own rfl).2
        | fallback => exact absurd hplace (by simp [placeOf])
    · exact fun _ _ hends => .inr hends
  · exact fun _ _ hends => .inl hends

/-- Whatever cache serves a thread, what is ensured of the operation there is ensured. -/
theorem ensures_withCache {operation : Action BlockHeap α}
    {post : Place → α → BlockHeap → Prop}
    (hoperation : ∀ place,
      Action.Ensures operation (h.blocksAt place) (post place) Action.never) :
    Action.Ensures (withCache t operation) h
      (fun a h' => ∃ place b, post place a b ∧ h.ServedBy t place b h')
      (fun e _ => h.LockEnds e) := by
  apply (ensures_withCache_or (P := fun _ => False) hoperation).mono
  · exact fun _ _ hpost => hpost
  · exact fun _ _ hends => hends.resolve_right id

end Heap
end PagedHeap
