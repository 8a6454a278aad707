import PagedHeap.Interface.Request
import PagedHeap.Proofs.Heap.Resizing
import PagedHeap.Proofs.Page.Serving

/-!
# Serving a client that keeps the rules

A client keeps the rules if it passes only pointers that it has.  Whatever it asks for then, it
has afterwards what the answer says and what it had besides the pointer that it passed, and that
is untouched.  The process ends only for a reason that is the client's or lies in the memory at
hand, and never because the heap has lost its way.
-/

namespace PagedHeap

/-- The pointer that a request passes. -/
def HeapRequest.passed? : HeapRequest → Option Nat
  | .allocate _ _ | .trim _ | .trimPages _ | .flushOwn | .flushFallback | .tryAllocateLayout _
  | .allocateLayout _ _ | .allocateSlice _ _ | .malloc _ | .calloc _ _ | .alignedAlloc _ _
  | .posixMemalign _ _ => none
  | .reallocate pointer? _ _ | .reclaim pointer? | .reclaimSized pointer? _
  | .allocatedSize pointer? | .deallocateLayout pointer? _ | .reallocateLayout pointer? _ _
  | .deallocateSlice pointer? _ | .resizeSlice pointer? _ _ | .growSliceZeroed pointer? _ _
  | .realloc pointer? _ => pointer?

/-- Whether a request gives up the pointer that it passes, also if it gets none for it. -/
def HeapRequest.frees : HeapRequest → Bool
  | .reclaim _ | .reclaimSized _ _ | .deallocateLayout _ _ | .deallocateSlice _ _ => true
  | .reallocate _ size _ | .realloc _ size => size == 0
  | .allocate _ _ | .allocatedSize _ | .trim _ | .trimPages _ | .flushOwn | .flushFallback
  | .tryAllocateLayout _ | .allocateLayout _ _ | .reallocateLayout _ _ _ | .allocateSlice _ _
  | .resizeSlice _ _ _ | .growSliceZeroed _ _ _ | .malloc _ | .calloc _ _ | .alignedAlloc _ _
  | .posixMemalign _ _ => false

/-- Whether a request asks for memory. -/
def HeapRequest.asks : HeapRequest → Bool
  | .allocate _ _ | .tryAllocateLayout _ | .allocateLayout _ _ | .reallocateLayout _ _ _
  | .allocateSlice _ _ | .resizeSlice _ _ _ | .growSliceZeroed _ _ _ | .malloc _ | .calloc _ _
  | .alignedAlloc _ _ | .posixMemalign _ _ => true
  | .reallocate pointer? size _ | .realloc pointer? size => pointer?.isNone || size != 0
  | .reclaim _ | .reclaimSized _ _ | .deallocateLayout _ _ | .deallocateSlice _ _
  | .allocatedSize _ | .trim _ | .trimPages _ | .flushOwn | .flushFallback => false

/-- A request asks for memory and gets none. -/
structure HeapRequest.Refused (r : HeapRequest) (a : Answer) : Prop where
  asks : r.asks = true
  nothing : a.granted? = none

/-- What a request claims of the size of the allocation that it frees. -/
def HeapRequest.claims? : HeapRequest → Option Nat
  | .reclaimSized _ size => some size
  | .deallocateLayout _ l | .deallocateSlice _ l => some l.size
  | _ => none

/-- The pointers besides one that is passed. -/
def others (passed? : Option Nat) (live : Set Nat) : Set Nat := {x ∈ live | passed? ≠ some x}

/-- The pointers of the client after a request was answered. -/
def after (passed? : Option Nat) (frees : Bool) (granted? : Option Nat) (live : Set Nat) :
    Set Nat :=
  match granted? with
  | some x => insert x (others passed? live)
  | none => if frees then others passed? live else live

namespace Heap

/-- How a request of a client that keeps the rules may end the process. -/
inductive ServeEnds (h : Heap) (r : HeapRequest) : Ending → Prop where
  | stuck {e : Ending} (hends : h.Ends e) : ServeEnds h r e
  | claim {x n size : Nat} (hpassed : r.passed? = some x) (hclaims : r.claims? = some size)
      (hn : h.Occupies x n) (hlt : n < size) :
      ServeEnds h r (.corrupted (.sizeMismatch x size n))
  | shrink {pointer? : Option Nat} {old new : Layout}
      (hrequest : r = .growSliceZeroed pointer? old new) (hlt : new.size < old.size) :
      ServeEnds h r (.violated .arithmetic)

/-- The client has other pointers, and those that were `kept` are preserved. -/
structure Evolves (h : Heap) (spans : Place → Category → List Span) (live foreign kept : Set Nat)
    (h' : Heap) (spans' : Place → Category → List Span) (live' : Set Nat) : Prop where
  sound : h'.Sound spans' live' foreign
  frames : h.Frames kept foreign h'
  recycles : Recycles h.kernel.memory (usedBlocks spans live)
    h'.kernel.memory (usedBlocks spans' live')

/-- A request that passes a pointer, or none, was served, and `granted?` came back.  If it asks for
memory and gets none, nothing that is out of the supplier's hands has changed. -/
structure Serves (h : Heap) (spans : Place → Category → List Span) (live foreign : Set Nat)
    (passed? : Option Nat) (asks frees : Bool) (granted? : Option Nat) (h' : Heap) : Prop where
  rules : h.SameRules h'
  rests : asks = true → granted? = none → h.Rests spans live foreign h'
  fresh : ∀ x, granted? = some x → x ∉ others passed? live
  evolves : ∃ spans', h.Evolves spans live foreign (others passed? live) h' spans'
    (after passed? frees granted? live)

variable {h h' : Heap} {spans spans' : Place → Category → List Span} {live foreign : Set Nat}
  {passed? : Option Nat} {asks frees : Bool} {t x n old size : Nat} {opts : AllocOptions}

theorem Evolves.preserves {kept live' : Set Nat}
    (hevolves : h.Evolves spans live foreign kept h' spans' live') : h.Preserves kept h' :=
  hevolves.frames.preserves

theorem others_none (live : Set Nat) : others none live = live := by
  ext x
  exact ⟨fun hx => hx.1, fun hx => ⟨hx, by simp⟩⟩

theorem others_some (x : Nat) (live : Set Nat) : others (some x) live = live \ {x} := by
  ext y
  refine ⟨fun hy => ⟨hy.1, fun heq => hy.2 (by rw [heq])⟩, fun hy => ⟨hy.1, fun heq => ?_⟩⟩
  exact hy.2 (Option.some.inj heq).symm

theorem others_subset (passed? : Option Nat) (live : Set Nat) : others passed? live ⊆ live :=
  fun _ hx => hx.1

theorem after_of_none (frees : Bool) (got? : Option Nat) (live : Set Nat) :
    after none frees got? live = after none false got? live := by
  cases got? with
  | some got => rfl
  | none =>
      cases frees with
      | false => rfl
      | true => exact others_none live

theorem Steady.serves (hsteady : h.Steady spans live foreign h' spans') (passed? : Option Nat) :
    h.Serves spans live foreign passed? false false none h' where
  rules := hsteady.rules
  rests hasks := absurd hasks (by simp)
  fresh _ hnone := absurd hnone (by simp)
  evolves := ⟨spans', hsteady.sound, hsteady.frames.mono (others_subset passed? live),
    hsteady.recycles⟩

theorem Rests.serves (hrests : h.Rests spans live foreign h') (hsound : h.Sound spans live foreign)
    (passed? : Option Nat) (asks : Bool) : h.Serves spans live foreign passed? asks false none h' where
  rules := hrests.rules
  rests _ _ := hrests
  fresh _ hnone := absurd hnone (by simp)
  evolves := ((hrests.steady hsound).serves passed?).evolves

theorem Releases.serves (hreleases : h.Releases spans live foreign x h' spans') :
    h.Serves spans live foreign (some x) false true none h' := by
  have hlive : after (some x) true none live = live \ {x} := others_some x live
  refine ⟨hreleases.rules, fun hasks => absurd hasks (by simp), fun _ hnone => absurd hnone (by simp),
    spans', ?_⟩
  rw [hlive, others_some]
  exact ⟨hreleases.sound, hreleases.frames, hreleases.recycles⟩

theorem serves_of_none {got? : Option Nat}
    (hserves : h.Serves spans live foreign none asks false got? h') (frees : Bool) :
    h.Serves spans live foreign none asks frees got? h' := by
  refine ⟨hserves.rules, hserves.rests, hserves.fresh, ?_⟩
  rw [after_of_none]
  exact hserves.evolves

/-! ## One allocation for another -/

/-- What making an allocation, or resizing one, comes to. -/
def Provides (h : Heap) (spans : Place → Category → List Span) (live foreign : Set Nat)
    (passed? : Option Nat) (size : Nat) : Option Nat → Heap → Prop
  | none, h' => h.Rests spans live foreign h'
  | some got, h' => got ∉ others passed? live ∧ h.SameRules h' ∧
      ∃ n spans', size ≤ n ∧ h'.Occupies got n ∧
        h.Evolves spans live foreign (others passed? live) h' spans'
          (insert got (others passed? live))

theorem Allocates.provides {got? : Option Nat}
    (hallocates : h.Allocates spans live foreign size opts got? h') :
    h.Provides spans live foreign none size got? h' := by
  cases got? with
  | none => exact hallocates
  | some got =>
      obtain ⟨n, spans', hgrants, hmeets, -⟩ := hallocates
      refine ⟨?_, hgrants.rules, n, spans', hmeets.size_le, hgrants.occupies, ?_⟩
      · rw [others_none]
        exact hgrants.fresh
      · rw [others_none]
        exact ⟨hgrants.sound, hgrants.frames, hgrants.recycles⟩

theorem Resizes.provides {got? : Option Nat}
    (hresizes : h.Resizes spans live foreign x old size opts got? h') :
    h.Provides spans live foreign (some x) size got? h' := by
  cases got? with
  | none => exact hresizes
  | some got =>
      obtain ⟨n, spans', hmoves⟩ := hresizes
      refine ⟨fun hin => ?_, hmoves.rules, n, spans', hmoves.size_le, hmoves.occupies, ?_⟩
      · rw [others_some] at hin
        exact hmoves.fresh (fun heq => hin.2 heq) hin.1
      · rw [others_some]
        exact ⟨hmoves.sound, hmoves.frames, hmoves.recycles⟩

theorem Provides.serves {got? : Option Nat}
    (hprovides : h.Provides spans live foreign passed? size got? h')
    (hsound : h.Sound spans live foreign) :
    h.Serves spans live foreign passed? true false got? h' := by
  cases got? with
  | none => exact Rests.serves hprovides hsound passed? true
  | some got =>
      obtain ⟨hnew, hrules, n, spans', -, -, hevolves⟩ := hprovides
      refine ⟨hrules, fun _ hnone => absurd hnone (by simp), fun x hgot => ?_, spans', hevolves⟩
      obtain rfl := Option.some.inj hgot
      exact hnew

/-- The allocation that was provided may be filled. -/
theorem Provides.withMemory {m : Memory} {got : Nat}
    (hprovides : h.Provides spans live foreign passed? size (some got) h')
    (hsame : ∀ y, y ∉ bytesAt got size → m.byteAt y = h'.kernel.memory.byteAt y) :
    h.Provides spans live foreign passed? size (some got) (h'.withMemory m) := by
  obtain ⟨hnew, hrules, n, spans', hsize, hn, hevolves⟩ := hprovides
  have hself := Set.mem_insert got (others passed? live)
  have hbody : bytesAt got size ⊆ h'.body got := by
    rw [hn.body_eq]
    exact bytesAt_subset (Nat.le_refl _) (Nat.add_le_add_left hsize got)
  have hgone : bytesAt got size ⊆ h'.bodies (insert got (others passed? live)) :=
    fun y hy => ⟨got, hself, hbody hy⟩
  have hapart : ∀ x ∈ others passed? live, Disjoint (h'.body x) (bytesAt got size) := by
    intro x hx
    have hne : x ≠ got := fun heq => hnew (heq ▸ hx)
    exact (hevolves.sound.body_apart (Set.mem_insert_of_mem got hx) hself hne).mono_right hbody
  have hstored := hevolves.sound.frames_withMemory hgone hsame (Set.subset_insert got _) hapart
  refine ⟨hnew, ⟨hrules.build, hrules.held⟩, n, spans', hsize,
    hevolves.sound.occupies_withMemory hgone hsame hself hn,
    hevolves.sound.withMemory hgone hsame, hevolves.frames.trans hstored, ?_⟩
  exact hevolves.recycles.of_headers fun y hy =>
    hevolves.sound.runCategory_withMemory hgone hsame hy

theorem Sound.ensures_provide (hsound : h.Sound spans live foreign) (t : Nat)
    (hpassed : ∀ x, passed? = some x → x ∈ live) (hpos : 0 < size) (opts : AllocOptions) :
    Action.Ensures (reallocate t passed? size opts) h
      (h.Provides spans live foreign passed? size) (fun e _ => h.Ends e) := by
  cases passed? with
  | none =>
      simp only [reallocate]
      exact (hsound.ensures_allocate t size opts).imp fun _ _ hallocates => hallocates.provides
  | some x =>
      obtain ⟨n, -, hn⟩ := hsound.occupies (hpassed x rfl)
      exact (hsound.ensures_reallocate t (hpassed x rfl) hn hpos opts).imp
        fun _ _ hresizes => hresizes.provides

/-! ## Requests for memory -/

theorem Sound.ensures_allocateServes (hsound : h.Sound spans live foreign) (t size : Nat)
    (opts : AllocOptions) :
    Action.Ensures (allocate t size opts) h (h.Serves spans live foreign none true false)
      (fun e _ => h.Ends e) :=
  (hsound.ensures_allocate t size opts).imp fun _ _ hallocates => hallocates.provides.serves hsound

theorem Sound.ensures_calloc (hsound : h.Sound spans live foreign) (t count size : Nat) :
    Action.Ensures (calloc t count size) h (h.Serves spans live foreign none true false)
      (fun e _ => h.Ends e) := by
  unfold calloc
  cases htotal : Word.mul? count size with
  | none =>
      have hrests := hsound.rests_self.notes (notes_errorNumber h .noMemory)
      rw [Action.ensures_bind, ensures_setErrorNumber]
      exact .answer (hrests.serves hsound none true)
  | some total => exact hsound.ensures_allocateServes t (servedSize total) { zero := true }

theorem Sound.ensures_posixMemalign (hsound : h.Sound spans live foreign) (t align size : Nat) :
    Action.Ensures (posixMemalign t align size) h
      (fun a h' => h.Serves spans live foreign none true false a.stored? h') (fun e _ => h.Ends e) := by
  unfold posixMemalign
  rw [Action.ensures_ite]
  split
  · exact .answer (hsound.rests_self.serves hsound none true)
  · rw [Action.ensures_bind]
    apply (hsound.ensures_allocateServes t (servedSize size) { align := align }).imp
    intro got? h' hserves
    cases got? with
    | none => exact .answer hserves
    | some got => exact .answer hserves

/-- An attempt that fails leaves things alone, like one that answers with nothing. -/
theorem Sound.ensures_tryAllocateServes (hsound : h.Sound spans live foreign) (t size : Nat)
    (opts : AllocOptions) :
    Action.Ensures (tryAllocate t size opts) h
      (fun result h' => h.Serves spans live foreign none true false result.toOption.join h')
      (fun e _ => h.Ends e) := by
  apply (hsound.ensures_tryAllocate t size opts).mono
  · intro result h' htries
    cases result with
    | error error =>
        have hrests : h.Rests spans live foreign h' := htries
        exact hrests.serves hsound none true
    | ok got? =>
        have hallocates : h.Allocates spans live foreign _ _ got? h' := htries
        exact hallocates.provides.serves hsound
  · exact fun _ _ hends => .inl hends

theorem Sound.ensures_tryAllocateLayout (hsound : h.Sound spans live foreign) (t : Nat)
    (l : Layout) :
    Action.Ensures (tryAllocateLayout t l) h
      (fun result h' => h.Serves spans live foreign none true false
        (Answer.ofExcept result).granted? h') (fun e _ => h.Ends e) := by
  rw [tryAllocateLayout, Action.ensures_bind]
  apply (hsound.ensures_tryAllocateServes t (servedSize l.size) (l.options false)).imp
  intro result h' hserves
  match result with
  | .error _ => exact .answer hserves
  | .ok none => exact .answer hserves
  | .ok (some _) => exact .answer hserves

theorem Sound.ensures_allocateSlice (hsound : h.Sound spans live foreign) (t : Nat) (l : Layout)
    (zeroed : Bool) :
    Action.Ensures (allocateSlice t l zeroed) h
      (fun slice? h' => h.Serves spans live foreign none true false (slice?.map Slice.address) h')
      (fun e _ => h.Ends e) := by
  rw [allocateSlice, Action.ensures_bind]
  apply (hsound.ensures_tryAllocateServes t (servedSize l.size) (l.options zeroed)).imp
  intro result h' hserves
  match result with
  | .error _ => exact .answer hserves
  | .ok none => exact .answer hserves
  | .ok (some _) => exact .answer hserves

/-! ## Requests to resize -/

theorem Sound.ensures_reallocateAny (hsound : h.Sound spans live foreign) (t : Nat)
    (hpassed : ∀ x, passed? = some x → x ∈ live) (size : Nat) (opts : AllocOptions) :
    Action.Ensures (reallocate t passed? size opts) h
      (h.Serves spans live foreign passed? (passed?.isNone || size != 0) (size == 0))
      (fun e _ => h.Ends e) := by
  rcases Nat.eq_zero_or_pos size with rfl | hpos
  · cases passed? with
    | none =>
        exact (hsound.ensures_allocateServes t 0 opts).imp
          fun _ _ hserves => serves_of_none hserves true
    | some x =>
        apply (hsound.ensures_reallocate_zero t (hpassed x rfl) opts).mono
        · intro got? h' hpost
          obtain ⟨rfl, spans', hreleases⟩ := hpost
          exact hreleases.serves
        · exact fun _ _ hends => .inl hends
  · have hsize : (size == 0) = false := by simpa using Nat.pos_iff_ne_zero.1 hpos
    have hasks : (passed?.isNone || size != 0) = true := by
      rw [bne, hsize, Bool.not_false, Bool.or_true]
    rw [hasks, hsize]
    exact (hsound.ensures_provide t hpassed hpos opts).imp
      fun _ _ hprovides => hprovides.serves hsound

theorem Sound.ensures_realloc (hsound : h.Sound spans live foreign) (t : Nat)
    (hpassed : ∀ x, passed? = some x → x ∈ live) (size : Nat) :
    Action.Ensures (realloc t passed? size) h
      (h.Serves spans live foreign passed? (passed?.isNone || size != 0) (size == 0))
      (fun e _ => h.Ends e) := by
  cases passed? with
  | none =>
      exact (hsound.ensures_allocateServes t (servedSize size) {}).imp
        fun _ _ hserves => serves_of_none hserves _
  | some x => exact hsound.ensures_reallocateAny t hpassed size {}

theorem le_servedSize (size : Nat) : size ≤ servedSize size := Nat.le_max_left size 1

theorem servedSize_pos (size : Nat) : 0 < servedSize size := by
  rw [servedSize]
  omega

theorem Sound.ensures_resizeSlice (hsound : h.Sound spans live foreign) (t : Nat)
    (hpassed : ∀ x, passed? = some x → x ∈ live) (new : Layout) :
    Action.Ensures (resizeSlice t passed? new) h
      (fun slice? h' => h.Provides spans live foreign passed? (servedSize new.size)
        (slice?.map Slice.address) h') (fun e _ => h.Ends e) := by
  rw [resizeSlice, Action.ensures_bind]
  apply (hsound.ensures_provide t hpassed (servedSize_pos new.size) (new.options false)).imp
  intro got? h' hprovides
  cases got? with
  | none => exact .answer hprovides
  | some got => exact .answer hprovides

/-- A slice that grows is zero behind its old end; one that shrinks by this ends the process. -/
theorem Sound.ensures_growSliceZeroed (hsound : h.Sound spans live foreign) (t : Nat)
    (hpassed : ∀ x, passed? = some x → x ∈ live) (old new : Layout) :
    Action.Ensures (growSliceZeroed t passed? old new) h
      (fun slice? h' => h.Provides spans live foreign passed? (servedSize new.size)
        (slice?.map Slice.address) h')
      (fun e _ => h.Ends e ∨ e = .violated .arithmetic ∧ new.size < old.size) := by
  rw [growSliceZeroed, Action.ensures_bind]
  apply (hsound.ensures_resizeSlice t hpassed new).mono
  · intro slice? h₁ hprovides
    cases slice? with
    | none => exact .answer hprovides
    | some slice =>
        cases hadded : Word.sub? new.size old.size with
        | none =>
            rw [Action.ensures_bind, Action.checked, Action.ensures_halt]
            exact .inr ⟨rfl, Word.sub?_eq_none_iff.1 hadded⟩
        | some added =>
            obtain ⟨hle, rfl⟩ := Word.sub?_eq_some_iff.1 hadded
            simp only [Action.ensures_bind, Action.ensures_checked_some, ensures_zero]
            refine .answer (hprovides.withMemory fun y hy => Memory.byteAt_clear_outside ?_)
            simp only [mem_bytesAt, servedSize] at hy ⊢
            omega
  · exact fun _ _ hends => .inl hends

/-! ## Requests to free -/

theorem Sound.ensures_reclaimAny (hsound : h.Sound spans live foreign) (t : Nat)
    (hpassed : ∀ x, passed? = some x → x ∈ live) :
    Action.Ensures (reclaim t passed?) h
      (fun _ h' => h.Serves spans live foreign passed? false true none h') (fun e _ => h.LockEnds e) := by
  cases passed? with
  | none => exact .answer (serves_of_none (hsound.steady_self.serves none) true)
  | some x =>
      apply (hsound.ensures_reclaim t (hpassed x rfl)).imp
      intro _ h' hpost
      obtain ⟨spans', hreleases⟩ := hpost
      exact hreleases.serves

/-- A claim of more than is allocated ends the process. -/
theorem Sound.ensures_freeSized {r : HeapRequest} (hsound : h.Sound spans live foreign) (t : Nat)
    (hpassed : ∀ x, r.passed? = some x → x ∈ live) (hclaims : r.claims? = some size) :
    Action.Ensures (reclaimSized t r.passed? size) h
      (fun _ h' => h.Serves spans live foreign r.passed? false true none h')
      (fun e _ => h.ServeEnds r e) := by
  cases hpointer : r.passed? with
  | none => exact .answer (serves_of_none (hsound.steady_self.serves none) true)
  | some x =>
      have hx := hpassed x hpointer
      obtain ⟨n, -, hn⟩ := hsound.occupies hx
      apply (hsound.ensures_reclaimSized t size hx hn).mono
      · intro _ h' hpost
        obtain ⟨spans', hreleases⟩ := hpost
        exact hreleases.serves
      · intro e _ hends
        rcases hends with hlock | ⟨hlt, rfl⟩
        · exact .stuck (.inl hlock)
        · exact .claim hpointer hclaims hn hlt

theorem Sound.ensures_sizeAny {ends : Ending → Heap → Prop} (hsound : h.Sound spans live foreign)
    (hpassed : ∀ x, passed? = some x → x ∈ live) :
    Action.Ensures (allocatedSize passed?) h
      (fun _ h' => h.Serves spans live foreign passed? false false none h') ends := by
  cases passed? with
  | none => exact .answer (hsound.steady_self.serves none)
  | some x =>
      obtain ⟨n, -, hn⟩ := hsound.occupies (hpassed x rfl)
      exact ensures_allocatedSize hn (hsound.steady_self.serves (some x))

/-! ## All requests -/

/-- A request is served by an action that serves it, whatever form its answer takes. -/
theorem ensures_served {α : Type} {action : Action Heap α} {f : α → Answer} {r : HeapRequest}
    (hserves : Action.Ensures action h
      (fun a h' => h.Serves spans live foreign r.passed? r.asks r.frees (f a).granted? h')
      (fun e _ => h.Ends e)) :
    Action.Ensures (f <$> action) h
      (fun a h' => h.Serves spans live foreign r.passed? r.asks r.frees a.granted? h')
      (fun e _ => h.ServeEnds r e) := by
  rw [Action.ensures_map]
  exact hserves.mono (fun _ _ hserved => hserved) fun _ _ hends => .stuck hends

theorem Sound.ensures_serve (hsound : h.Sound spans live foreign) (t : Nat) (r : HeapRequest)
    (hpassed : ∀ x, r.passed? = some x → x ∈ live) :
    Action.Ensures (serve t r) h
      (fun a h' => h.Serves spans live foreign r.passed? r.asks r.frees a.granted? h')
      (fun e _ => h.ServeEnds r e) := by
  cases r with
  | allocate size opts => exact ensures_served (hsound.ensures_allocateServes t size opts)
  | reallocate pointer? size opts =>
      exact ensures_served (hsound.ensures_reallocateAny t hpassed size opts)
  | reclaim pointer? =>
      apply ensures_served
      apply (hsound.ensures_reclaimAny t hpassed).mono
      · exact fun _ _ hserves => hserves
      · exact fun _ _ hends => .inl hends
  | reclaimSized pointer? size =>
      rw [serve, Action.ensures_map]
      exact hsound.ensures_freeSized t hpassed rfl
  | allocatedSize pointer? => exact ensures_served (hsound.ensures_sizeAny hpassed)
  | trim pad =>
      apply ensures_served
      apply (hsound.ensures_trim t pad).mono
      · intro _ h' hpost
        obtain ⟨spans', hsteady⟩ := hpost
        exact hsteady.serves none
      · exact fun _ _ hends => .inl hends
  | trimPages pad =>
      apply ensures_served
      exact (hsound.ensures_trimPages pad).weaken fun _ _ hsteady => hsteady.serves none
  | flushOwn =>
      apply ensures_served
      apply (hsound.ensures_flushOwn t).weaken
      intro _ h' hpost
      obtain ⟨spans', hsteady, -⟩ := hpost
      exact hsteady.serves none
  | flushFallback =>
      apply ensures_served
      apply hsound.ensures_flushFallback.mono
      · exact fun _ _ hsteady => hsteady.serves none
      · exact fun _ _ hends => .inl hends
  | tryAllocateLayout l => exact ensures_served (hsound.ensures_tryAllocateLayout t l)
  | allocateLayout l zeroed =>
      exact ensures_served (hsound.ensures_allocateServes t (servedSize l.size) (l.options zeroed))
  | deallocateLayout pointer? l =>
      rw [serve, Action.ensures_map, deallocateLayout]
      exact hsound.ensures_freeSized t hpassed rfl
  | reallocateLayout pointer? l size =>
      apply ensures_served
      exact (hsound.ensures_provide t hpassed (servedSize_pos size) (l.options false)).imp
        fun _ _ hprovides => hprovides.serves hsound
  | allocateSlice l zeroed => exact ensures_served (hsound.ensures_allocateSlice t l zeroed)
  | deallocateSlice pointer? l =>
      rw [serve, Action.ensures_map, deallocateLayout]
      exact hsound.ensures_freeSized t hpassed rfl
  | resizeSlice pointer? old new =>
      apply ensures_served
      exact (hsound.ensures_resizeSlice t hpassed new).imp
        fun _ _ hprovides => hprovides.serves hsound
  | growSliceZeroed pointer? old new =>
      rw [serve, Action.ensures_map]
      apply (hsound.ensures_growSliceZeroed t hpassed old new).mono
      · exact fun _ _ hprovides => hprovides.serves hsound
      · intro e _ hends
        rcases hends with hends | ⟨rfl, hlt⟩
        · exact .stuck hends
        · exact .shrink rfl hlt
  | malloc size => exact ensures_served (hsound.ensures_allocateServes t (servedSize size) {})
  | calloc count size => exact ensures_served (hsound.ensures_calloc t count size)
  | realloc pointer? size => exact ensures_served (hsound.ensures_realloc t hpassed size)
  | alignedAlloc align size =>
      exact ensures_served
        (hsound.ensures_allocateServes t (servedSize size) { align := align })
  | posixMemalign align size => exact ensures_served (hsound.ensures_posixMemalign t align size)

/-! ## Requests that are refused -/

/-- Where a request that asks for memory gives up what it passes, that is nothing. -/
theorem passed?_of_frees {r : HeapRequest} (hasks : r.asks = true) (hfrees : r.frees = true) :
    r.passed? = none := by
  cases r <;> simp_all [HeapRequest.asks, HeapRequest.frees, HeapRequest.passed?]

/-- The client of a request that is refused has what it had. -/
theorem after_refused {r : HeapRequest} {a : Answer} (hrefused : r.Refused a) (live : Set Nat) :
    after r.passed? r.frees a.granted? live = live := by
  rw [hrefused.nothing]
  cases hfrees : r.frees with
  | false => rfl
  | true =>
      rw [passed?_of_frees hrefused.asks hfrees]
      exact others_none live

theorem Sound.rests_serve {r : HeapRequest} {a : Answer} (hsound : h.Sound spans live foreign)
    (hpassed : ∀ x, r.passed? = some x → x ∈ live) (hrefused : r.Refused a)
    (hrun : serve t r h = .ok a h') : h.Rests spans live foreign h' :=
  ((hsound.ensures_serve t r hpassed).of_ok hrun).rests hrefused.asks hrefused.nothing

end Heap
end PagedHeap
