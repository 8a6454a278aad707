import PagedHeap.Proofs.Heap.Confinement
import PagedHeap.Proofs.Heap.Resizing

/-!
# Running out of memory

A demand for memory is met, and then nothing is said of it, or memory has run out.  What comes of
that is a matter of the build alone: the failure is logged once, the error number is set and the
client is told, or the process says what it lacks and ends.  It makes no difference where on the
way memory was found to be missing.

It makes a difference for the size that is named.  That is the size asked for, except where a large
allocation is resized and stays as aligned as asked: there it is the size rounded up to the
alignment.
-/

namespace PagedHeap

namespace Layout

/-- A layout has a proper alignment. -/
theorem isPowerOfTwo_alignment (l : Layout) (zeroed : Bool) :
    Word.isPowerOfTwo (l.options zeroed).alignment = true := by
  rw [AllocOptions.alignment]
  split
  · rfl
  · exact l.valid.1

end Layout

namespace Heap

open PagedHeap.Action

/-- Nothing was logged, and no error number set. -/
structure Untold (h h' : Heap) : Prop where
  log : h'.log = h.log
  errorNumber : h'.errorNumber? = h.errorNumber?

instance : Std.Refl Untold := ⟨fun _ => ⟨rfl, rfl⟩⟩

instance : IsTrans Heap Untold :=
  ⟨fun _ _ _ first second => ⟨second.log.trans first.log,
    second.errorNumber.trans first.errorNumber⟩⟩

/-- What comes of a demand that does not end the process. -/
def Heeds (h : Heap) : Option Nat → Heap → Prop
  | some _, h' => h.Untold h'
  | none, h' => h.build.neverFails = false ∧ h'.errorNumber? = some .noMemory ∧
      ∃ size, h'.log = .failed (.outOfMemory size) :: h.log

/-- The process was built to end without memory, and has said how much it lacks. -/
structure Exhausted (h : Heap) (e : Ending) (h' : Heap) : Prop where
  never : h.build.neverFails = true
  reason : ∃ size, e = .outOfMemory size
  report : ∃ k : Kernel, h'.kernel = k.sendError e.reportText
  untold : h.Untold h'

/-- How a demand may end the process: a lock is held, or there is no memory. -/
def DemandEnds (h : Heap) (e : Ending) (h' : Heap) : Prop := h.LockEnds e ∨ h.Exhausted e h'

/-- What an attempt to get `size` bytes comes to. -/
inductive Attempted (size : Nat) (opts : AllocOptions) : Except AllocError (Option Nat) → Prop where
  | got {x : Nat} : Attempted size opts (.ok (some x))
  | empty (hempty : size = 0) : Attempted size opts (.ok none)
  | misaligned (halign : Word.isPowerOfTwo opts.alignment = false) :
      Attempted size opts (.error (.invalidAlignment opts.align))
  | lacking (hpos : 0 < size) (halign : Word.isPowerOfTwo opts.alignment = true) :
      Attempted size opts (.error (.outOfMemory size))

/-- What comes of a request of `size` bytes that does not end the process, and what is told of it.
A lack of memory is told of `named` bytes. -/
inductive Reported (h : Heap) (size named : Nat) (opts : AllocOptions) :
    Option Nat → Heap → Prop where
  | met {x : Nat} {h' : Heap} (huntold : h.Untold h') : Reported h size named opts (some x) h'
  | empty {h' : Heap} (hempty : size = 0) (huntold : h.Untold h') :
      Reported h size named opts none h'
  | misaligned {h' : Heap} (halign : Word.isPowerOfTwo opts.alignment = false)
      (hnumber : h'.errorNumber? = some .invalidArgument)
      (hlog : h'.log = .failed (.invalidAlignment opts.align) :: h.log) :
      Reported h size named opts none h'
  | lacking {h' : Heap} (hpos : 0 < size) (halign : Word.isPowerOfTwo opts.alignment = true)
      (hmay : h.build.neverFails = false) (hnumber : h'.errorNumber? = some .noMemory)
      (hlog : h'.log = .failed (.outOfMemory named) :: h.log) : Reported h size named opts none h'

/-- How a request may end the process: a lock is held, or there are no `named` bytes. -/
def ReportEnds (h : Heap) (named : Nat) (e : Ending) (h' : Heap) : Prop :=
  h.LockEnds e ∨ h.Exhausted e h' ∧ e = .outOfMemory named

/-- The size that a reallocation names if it lacks memory. -/
def namedSize (passed? : Option Nat) (size : Nat) (opts : AllocOptions) : Nat :=
  match passed?, route size opts with
  | some x, .ok (some (.large rounded align)) =>
      if pageOffset x = 0 ∧ x % align = 0 then rounded else size
  | _, _ => size

variable {h h' h'' : Heap} {spans : Place → Category → List Span} {live foreign : Set Nat}
  {t x old size named : Nat} {opts : AllocOptions} {passed? : Option Nat}

theorem Untold.reported {got? : Option Nat} (huntold : h.Untold h') (hrules : h.SameRules h')
    (hreports : h'.Reported size named opts got? h'') : h.Reported size named opts got? h'' := by
  cases hreports with
  | met hlater => exact .met (IsTrans.trans _ _ _ huntold hlater)
  | empty hempty hlater => exact .empty hempty (IsTrans.trans _ _ _ huntold hlater)
  | misaligned halign hnumber hlog =>
      rw [huntold.log] at hlog
      exact .misaligned halign hnumber hlog
  | lacking hpos halign hmay hnumber hlog =>
      rw [hrules.build] at hmay
      rw [huntold.log] at hlog
      exact .lacking hpos halign hmay hnumber hlog

theorem Untold.exhausted {e : Ending} (huntold : h.Untold h') (hrules : h.SameRules h')
    (hexhausted : h'.Exhausted e h'') : h.Exhausted e h'' := by
  refine ⟨?_, hexhausted.reason, hexhausted.report, IsTrans.trans _ _ _ huntold hexhausted.untold⟩
  rw [← hrules.build]
  exact hexhausted.never

/-! ## What is not told -/

theorem leaves_setThreads {f : Heap → Heap} (hlog : ∀ h, (f h).log = h.log)
    (hnumber : ∀ h, (f h).errorNumber? = h.errorNumber?) :
    Leaves Untold (modify f : Action Heap PUnit) :=
  confined_modify fun h => ⟨hlog h, hnumber h⟩

theorem untold_setUp (t : Nat) : Leaves Untold (setUp t) := by
  have hbootstrap : ∀ status, Leaves Untold (setBootstrap status) :=
    fun status => leaves_setThreads (fun _ => rfl) fun _ => rfl
  have hstatus : ∀ status, Leaves Untold (setStatus t status) :=
    fun status => leaves_setThreads (fun _ => rfl) fun _ => rfl
  have hbegin : Leaves Untold (beginSetUp t) := by
    refine confined_get.bind fun h => Confined.ite ?_ (confined_pure false)
    exact ((hbootstrap _).onlyIf _).bind fun _ => (hstatus _).bind fun _ => confined_pure true
  have hfinish : Leaves Untold (finishSetUp t true) :=
    (hbootstrap _).bind fun _ => (hstatus _).bind fun _ => confined_pure true
  exact hbegin.bind fun begun => Confined.ite hfinish (confined_pure false)

theorem untold_usesOwnCache (t : Nat) : Leaves Untold (usesOwnCache t) := by
  refine confined_get.bind fun h => ?_
  cases h.build.threading with
  | exclusive => exact confined_pure false
  | shared =>
      refine Confined.ite (confined_pure false) (confined_get.bind fun h' => ?_)
      cases (h'.thread t).status with
      | ready => exact confined_pure true
      | initial => exact untold_setUp t
      | _ => exact confined_pure false

theorem untold_lockFallback : Leaves Untold lockFallback := by
  intro h
  apply (ensures_lockFallback h).answers
  intro _ h' hpost
  obtain ⟨-, rfl⟩ := hpost
  exact ⟨rfl, rfl⟩

theorem untold_withCache {α : Type} (t : Nat) (operation : Action BlockHeap α) :
    Leaves Untold (withCache t operation) := by
  have hborrow : Leaves Untold (borrow t) := by
    refine (untold_usesOwnCache t).bind fun own => Confined.ite ?_ ?_
    · have hbusy : Leaves Untold (setBusy t true) := leaves_setThreads (fun _ => rfl) fun _ => rfl
      exact hbusy.bind fun _ => confined_pure _
    · exact untold_lockFallback.bind fun _ => confined_pure _
  refine hborrow.bind fun loan => ?_
  cases loan with
  | ownCache =>
      have hbusy : Leaves Untold (setBusy t false) := leaves_setThreads (fun _ => rfl) fun _ => rfl
      refine (leaves_within (f := threadPart t) (fun _ _ => ⟨rfl, rfl⟩) operation).bind fun a => ?_
      exact hbusy.bind fun _ => confined_pure a
  | fallback =>
      have hunlock : Leaves Untold unlockFallback := leaves_setThreads (fun _ => rfl) fun _ => rfl
      refine (leaves_within (f := fallbackPart) (fun _ _ => ⟨rfl, rfl⟩) operation).bind fun a => ?_
      exact hunlock.bind fun _ => confined_pure a

theorem tolerates_untold (t : Nat) : Tolerates t Untold where
  withCache operation := untold_withCache t operation
  onLarge action := leaves_within (fun _ _ => ⟨rfl, rfl⟩) action
  onKernel action := leaves_within (fun _ _ => ⟨rfl, rfl⟩) action

/-! ## The policy -/

/-- A lack of memory is told, or it ends the process. -/
theorem ensures_fail_lacking (hpos : 0 < size) (halign : Word.isPowerOfTwo opts.alignment = true)
    (named : Nat) (h : Heap) :
    Ensures (fail (.outOfMemory named)) h (h.Reported size named opts) (h.ReportEnds named) := by
  simp only [fail, ensures_bind, ensures_get, ensures_ite]
  split
  · rename_i hnever
    simp only [onKernel, ensures_within, Kernel.ensures_abort]
    exact .inr ⟨⟨hnever, ⟨named, rfl⟩, ⟨h.kernel, rfl⟩, ⟨rfl, rfl⟩⟩, rfl⟩
  · rename_i hmay
    simp only [reportFailure, ensures_bind, ensures_logRecord, ensures_setErrorNumber]
    exact .answer (.lacking hpos halign (by simpa using hmay) rfl rfl)

/-- An attempt that failed is told. -/
theorem Attempted.ensures_fail {error : AllocError}
    (hattempted : Attempted size opts (.error error)) (h : Heap) :
    Ensures (fail error) h (h.Reported size size opts) (h.ReportEnds size) := by
  cases hattempted with
  | misaligned halign =>
      simp only [fail, reportFailure, ensures_bind, ensures_logRecord, ensures_setErrorNumber]
      exact .answer (.misaligned halign rfl rfl)
  | lacking hpos halign => exact ensures_fail_lacking hpos halign size h

/-- A request is served along a route, or the attempt comes to nothing at once. -/
theorem route_cases (size : Nat) (opts : AllocOptions) :
    (∃ error, route size opts = .error error ∧ Attempted size opts (.error error)) ∨
      (route size opts = .ok none ∧ size = 0) ∨
        ∃ target, route size opts = .ok (some target) := by
  simp only [route]
  rw [← AllocOptions.alignment]
  cases halign : Word.isPowerOfTwo opts.alignment with
  | false => exact .inl ⟨_, rfl, .misaligned halign⟩
  | true =>
      simp only [Bool.not_true, Bool.false_eq_true, if_false]
      rcases Nat.eq_zero_or_pos size with rfl | hpos
      · exact .inr (.inl ⟨rfl, rfl⟩)
      · rw [if_neg (Nat.pos_iff_ne_zero.1 hpos)]
        cases Word.alignUp? size opts.alignment with
        | none => exact .inl ⟨_, rfl, .lacking hpos halign⟩
        | some rounded =>
            simp only
            split
            · exact .inr (.inr ⟨_, rfl⟩)
            · exact .inl ⟨_, rfl, .lacking hpos halign⟩

/-- An attempt tells nothing, and a lack of memory names the size asked for. -/
theorem ensures_tryAllocate_attempted (t size : Nat) (opts : AllocOptions) (h : Heap) :
    Ensures (tryAllocate t size opts) h
      (fun result h' => h.Untold h' ∧ Attempted size opts result) (fun _ _ => True) := by
  have huntold := (tolerates_untold t).tryAllocate size opts h
  have hresult : Ensures (tryAllocate t size opts) h (fun result _ => Attempted size opts result)
      (fun _ _ => True) := by
    unfold tryAllocate
    rcases route_cases size opts with ⟨error, hroute, hattempted⟩ | ⟨hroute, hempty⟩ | ⟨_, hroute⟩
    · rw [hroute]
      exact .answer hattempted
    · rw [hroute]
      exact .answer (.empty hempty)
    · obtain ⟨hpos, halign, -⟩ := route_eq_some hroute
      rw [hroute]
      simp only [ensures_bind]
      refine .of_all (fun got? _ => ?_) fun _ _ => trivial
      cases got? with
      | none => exact .answer (.lacking hpos halign)
      | some got => exact .answer .got
  exact (huntold.and hresult).answers fun _ _ hpost => hpost

theorem LockEnds.of_rules {e : Ending} (hrules : h.SameRules h') (hends : h'.LockEnds e) :
    h.LockEnds e := by
  rwa [LockEnds, hrules.build, hrules.held] at hends

/-- What is told of a request in the end is told of it as a whole. -/
theorem Untold.ensures_reports {action : Action Heap (Option Nat)} (huntold : h.Untold h')
    (hrules : h.SameRules h')
    (hreports : Ensures action h' (h'.Reported size named opts) (h'.ReportEnds named)) :
    Ensures action h' (h.Reported size named opts) (h.ReportEnds named) := by
  apply hreports.mono
  · exact fun _ _ hpost => huntold.reported hrules hpost
  · rintro e h'' (hheld | ⟨hexhausted, hnamed⟩)
    · exact .inl (hheld.of_rules hrules)
    · exact .inr ⟨huntold.exhausted hrules hexhausted, hnamed⟩

theorem Sound.allocate_reports (hsound : h.Sound spans live foreign) (t size : Nat)
    (opts : AllocOptions) :
    Ensures (allocate t size opts) h (h.Reported size size opts) (h.ReportEnds size) := by
  rw [allocate, ensures_bind]
  apply ((hsound.ensures_tryAllocate t size opts).and
    (ensures_tryAllocate_attempted t size opts h)).mono
  · intro result h₁ hpost
    obtain ⟨htries, huntold, hattempted⟩ := hpost
    cases result with
    | error error => exact huntold.ensures_reports htries.rules (hattempted.ensures_fail h₁)
    | ok got? =>
        cases hattempted with
        | got => exact .answer (.met huntold)
        | empty hempty => exact .answer (.empty hempty huntold)
  · exact fun _ _ hends => .inl hends.1

/-! ## Resizing -/

theorem Sound.moveTo_reports (hsound : h.Sound spans live foreign) (hx : x ∈ live)
    (t old size : Nat) (opts : AllocOptions) :
    Ensures (moveTo t x old size opts) h (h.Reported size size opts) (h.ReportEnds size) := by
  rw [moveTo, ensures_bind]
  apply ((hsound.ensures_allocate t size opts).and (hsound.allocate_reports t size opts)).mono
  · intro moved? h₁ hpost
    obtain ⟨hallocates, hreports⟩ := hpost
    cases moved? with
    | none => exact .answer hreports
    | some moved =>
        obtain ⟨n, spans', hgrants, hmeets, -⟩ := hallocates
        obtain ⟨hgranted⟩ := hreports
        -- Only the new block is written to, so the heap is sound when the old one is freed.
        have hfilled := hgrants.filled (Nat.le_trans (Nat.min_le_right old size) hmeets.size_le) x
        rw [ensures_bind, ensures_copy, ensures_bind]
        apply ((hfilled.sound.ensures_reclaim t (Set.mem_insert_of_mem moved hx)).and
          ((tolerates_untold t).reclaim (some x) _)).mono
        · intro _ h₂ hpost
          have huntold : h.Untold h₂ := ⟨hpost.2.log.trans hgranted.log,
            hpost.2.errorNumber.trans hgranted.errorNumber⟩
          exact .answer (.met huntold)
        · intro e _ hends
          exact .inl (hends.1.of_rules hfilled.rules)
  · exact fun _ _ hends => hends.2

theorem Sound.resizeBlock_reports (hsound : h.Sound spans live foreign) (hx : x ∈ live)
    {c : Category} (hblock : IsBlock h.kernel.memory c x) (t size : Nat) (opts : AllocOptions)
    (target : Route) :
    Ensures (resizeBlock t x size opts target) h (h.Reported size size opts)
      (h.ReportEnds size) := by
  simp only [resizeBlock, onKernel, ensures_bind, ensures_within]
  apply BlockHeap.ensures_blockCategory hblock
  rw [ensures_ite]
  split
  · exact .answer (.met (Std.Refl.refl (r := Untold) h))
  · exact hsound.moveTo_reports hx t _ size opts

/-- In place, a lack of memory names the size that the allocation was to have. -/
theorem Sound.resizeInPlace_reports {rounded : Nat} (hsound : h.Sound spans live foreign)
    (hsize : h.table.get? x = some old)
    (hroute : route size opts = .ok (some (.large rounded opts.alignment))) :
    Ensures (do
        match ← onLarge (LargeHeap.resize x rounded opts.alignment) with
        | some got => return some got
        | none => fail (.outOfMemory rounded)) h
      (h.Reported size rounded opts) (h.ReportEnds rounded) := by
  obtain ⟨hpos, hrounded, -, halign, -⟩ := route_large hroute
  rw [ensures_bind, onLarge, ensures_within]
  apply (hsound.large.ensures_resize hsize (Nat.lt_of_lt_of_le hpos hrounded) halign).weaken
  intro moved? l _
  have huntold : h.Untold (largePart.write l h) := ⟨rfl, rfl⟩
  cases moved? with
  | none =>
      exact huntold.ensures_reports ⟨rfl, rfl⟩ (ensures_fail_lacking hpos halign rounded _)
  | some moved => exact .answer (.met huntold)

theorem Sound.resizeLarge_reports {target : Route} (hsound : h.Sound spans live foreign)
    (hx : x ∈ live) (hoffset : pageOffset x = 0) (hsize : h.table.get? x = some old)
    (hroute : route size opts = .ok (some target)) (t : Nat) :
    Ensures (resizeLarge t x size opts target) h
      (h.Reported size (namedSize (some x) size opts) opts)
      (h.ReportEnds (namedSize (some x) size opts)) := by
  have hmove : Ensures (do
      let old ← onLarge (LargeHeap.sizeOf x)
      moveTo t x old size opts) h (h.Reported size size opts) (h.ReportEnds size) := by
    rw [ensures_bind, onLarge, ensures_within]
    apply LargeHeap.ensures_sizeOf hsize
    exact hsound.moveTo_reports hx t old size opts
  cases target with
  | small c =>
      simp only [namedSize, hroute]
      exact hmove
  | large rounded align =>
      obtain ⟨-, -, rfl, -, -⟩ := route_large hroute
      simp only [resizeLarge, namedSize, hroute, hoffset, true_and]
      rw [ensures_ite]
      split
      · exact hsound.resizeInPlace_reports hsize hroute
      · exact hmove

theorem namedSize_of_offset (hoffset : pageOffset x ≠ 0) (size : Nat) (opts : AllocOptions) :
    namedSize (some x) size opts = size := by
  unfold namedSize
  split
  · rename_i hpassed _
    obtain rfl := Option.some.inj hpassed
    rw [if_neg fun haligned => hoffset haligned.1]
  · rfl

/-- What is told of a request of a client that passes its own pointers. -/
theorem Sound.reallocate_reports (hsound : h.Sound spans live foreign)
    (hpassed : ∀ x, passed? = some x → x ∈ live) (t size : Nat) (opts : AllocOptions) :
    Ensures (reallocate t passed? size opts) h (h.Reported size (namedSize passed? size opts) opts)
      (h.ReportEnds (namedSize passed? size opts)) := by
  cases passed? with
  | none => exact hsound.allocate_reports t size opts
  | some x =>
      have hx : x ∈ live := hpassed x rfl
      simp only [reallocate, ensures_ite]
      split
      · -- A size of zero frees, and freeing tells nothing.
        rename_i hzero
        rw [ensures_bind]
        apply ((hsound.ensures_reclaim t hx).and ((tolerates_untold t).reclaim (some x) h)).mono
        · exact fun _ _ hpost => .answer (.empty hzero hpost.2)
        · exact fun _ _ hends => .inl hends.1
      · rcases route_cases size opts with ⟨error, hroute, hattempted⟩ | ⟨hroute, hempty⟩ |
          ⟨target, hroute⟩
        · simp only [namedSize, hroute]
          exact hattempted.ensures_fail h
        · exact absurd hempty ‹_›
        · rw [hroute]
          obtain ⟨n, -, hn⟩ := hsound.occupies hx
          rcases hn with ⟨hoffset, hentry⟩ | ⟨c, hblock, -⟩
          · have hlarge := isBlock_eq_false hoffset
            simp only [hlarge, Bool.false_eq_true, if_false]
            exact hsound.resizeLarge_reports hx hoffset hentry hroute t
          · have hsmall := isBlock_eq_true hblock.offset_ne
            simp only [hsmall, if_true]
            rw [namedSize_of_offset hblock.offset_ne]
            exact hsound.resizeBlock_reports hx hblock t size opts target

/-! ## Demands -/

/-- Where something is demanded with a proper alignment, only memory can be lacking. -/
theorem Reported.heeds {got? : Option Nat} (hpos : 0 < size)
    (halign : Word.isPowerOfTwo opts.alignment = true)
    (hreports : h.Reported size named opts got? h') : h.Heeds got? h' := by
  cases hreports with
  | met huntold => exact huntold
  | empty hempty => exact absurd hempty (Nat.pos_iff_ne_zero.1 hpos)
  | misaligned hmisaligned =>
      rw [halign] at hmisaligned
      cases hmisaligned
  | lacking _ _ hmay hnumber hlog => exact ⟨hmay, hnumber, named, hlog⟩

theorem ReportEnds.demandEnds {e : Ending} (hends : h.ReportEnds named e h') :
    h.DemandEnds e h' := hends.imp_right And.left

/-- All demands of a client that passes its own pointers heed the policy. -/
theorem Sound.reallocate_heeds (hsound : h.Sound spans live foreign)
    (hpassed : ∀ x, passed? = some x → x ∈ live) (hpos : 0 < size)
    (halign : Word.isPowerOfTwo opts.alignment = true) (t : Nat) :
    Ensures (reallocate t passed? size opts) h h.Heeds h.DemandEnds :=
  (hsound.reallocate_reports hpassed t size opts).mono
    (fun _ _ hreports => hreports.heeds hpos halign) fun _ _ hends => hends.demandEnds

/-! ## The size that is named -/

/-- The size that is named is the size asked for, or a large allocation keeps its place and its size
is rounded up to the alignment. -/
theorem namedSize_cases (passed? : Option Nat) (size : Nat) (opts : AllocOptions) :
    namedSize passed? size opts = size ∨
      ∃ x, passed? = some x ∧ pageOffset x = 0 ∧ opts.alignment ∣ x ∧
        smallLimit < namedSize passed? size opts ∧
        IsLeast {m | size ≤ m ∧ opts.alignment ∣ m} (namedSize passed? size opts) := by
  cases passed? with
  | none => exact .inl rfl
  | some x =>
      rcases route_cases size opts with ⟨error, hroute, -⟩ | ⟨hroute, -⟩ | ⟨target, hroute⟩
      · exact .inl (by simp only [namedSize, hroute])
      · exact .inl (by simp only [namedSize, hroute])
      · obtain ⟨-, -, rounded, hleast, -, rfl⟩ := route_eq_some hroute
        unfold Route.ofRounded at hroute
        split at hroute
        · exact .inl (by simp only [namedSize, hroute])
        · rename_i hlarge
          by_cases haligned : pageOffset x = 0 ∧ x % opts.alignment = 0
          · right
            simp only [namedSize, hroute, if_pos haligned]
            exact ⟨x, rfl, haligned.1, Nat.dvd_of_mod_eq_zero haligned.2, Nat.not_le.1 hlarge,
              hleast⟩
          · exact .inl (by simp only [namedSize, hroute, if_neg haligned])

end Heap
end PagedHeap
