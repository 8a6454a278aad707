import PagedHeap.Interface.Request
import PagedHeap.Proofs.Heap.Unshared

/-!
# Requests to a heap for many threads and to one for a single thread

What a thread asks for is served in the same way by a heap for many threads, as long as no other
thread uses that, and by the heap for one thread that stands for it.  The one exception are whole
huge pages, which only the heap for many threads places on their boundaries, so it is told here
what a request asks the page supplier for.
-/

namespace PagedHeap

open Heap

/-- How many bytes the supplier is asked for along a route; for a block, at most a page. -/
def Route.asks? : Route → Option Nat
  | .small _ => some pageSize
  | .large size align => LargeHeap.allocateAsks? size align

namespace Heap

/-- How many bytes the supplier is asked for when `size` bytes are allocated. -/
def allocateAsks? (size : Nat) (opts : AllocOptions) : Option Nat :=
  match route size opts with
  | .ok (some target) => target.asks?
  | .ok none | .error _ => none

/-- How many bytes the supplier is asked for when the allocation at `address` is moved: none where
the process ends because there is no allocation. -/
def moveAsks? (h : Heap) (address size : Nat) (opts : AllocOptions) : Option Nat :=
  if (h.table.get? address).isSome then allocateAsks? size opts else none

/-- How many bytes the supplier is asked for when the allocation at `address` is resized, to be
served along `target`. -/
def resizeAsks? (h : Heap) (address size : Nat) (opts : AllocOptions) (target : Route) :
    Option Nat :=
  if isBlock address then
    match Kernel.blockCategory address h.kernel with
    | .ok c _ => if target = .small c then none else allocateAsks? size opts
    | .error _ _ => none
  else
    match target with
    | .small _ => h.moveAsks? address size opts
    | .large rounded align =>
        if address % align = 0 then h.largeHeap.resizeAsks? address rounded align
        else h.moveAsks? address size opts

/-- How many bytes the supplier is asked for in a reallocation. -/
def reallocateAsks? (h : Heap) (pointer? : Option Nat) (size : Nat) (opts : AllocOptions) :
    Option Nat :=
  match pointer? with
  | none => allocateAsks? size opts
  | some address =>
      if size = 0 then none
      else
        match route size opts with
        | .ok (some target) => h.resizeAsks? address size opts target
        | .ok none | .error _ => none

end Heap

namespace HeapRequest

/-- How many bytes the page supplier is asked for when a request is served, if it is asked for any. -/
def asks? (h : Heap) : HeapRequest → Option Nat
  | .allocate size opts => allocateAsks? size opts
  | .reallocate pointer? size opts => h.reallocateAsks? pointer? size opts
  | .tryAllocateLayout l => allocateAsks? (servedSize l.size) (l.options false)
  | .allocateLayout l zeroed | .allocateSlice l zeroed =>
      allocateAsks? (servedSize l.size) (l.options zeroed)
  | .reallocateLayout pointer? l size =>
      h.reallocateAsks? pointer? (servedSize size) (l.options false)
  | .resizeSlice pointer? _ new | .growSliceZeroed pointer? _ new =>
      h.reallocateAsks? pointer? (servedSize new.size) (new.options false)
  | .malloc size => allocateAsks? (servedSize size) {}
  | .calloc count size =>
      (Word.mul? count size).bind fun total => allocateAsks? (servedSize total) { zero := true }
  | .realloc none size => allocateAsks? (servedSize size) {}
  | .realloc (some address) size => h.reallocateAsks? (some address) size {}
  | .alignedAlloc align size => allocateAsks? (servedSize size) { align := align }
  | .posixMemalign align size =>
      if !Word.isPowerOfTwo align || align < pointerSize then none
      else allocateAsks? (servedSize size) { align := align }
  | .reclaim _ | .reclaimSized _ _ | .allocatedSize _ | .trim _ | .trimPages _ | .flushOwn
  | .flushFallback | .deallocateLayout _ _ | .deallocateSlice _ _ => none

/-- The request is for one cache alone, that of the thread or the fallback cache. -/
def NamesCache : HeapRequest → Prop
  | .flushOwn | .flushFallback => True
  | _ => False

end HeapRequest

namespace Heap

open PagedHeap.Action

variable {h : Heap} {t size : Nat} {opts : AllocOptions} {pointer? : Option Nat}

/-! ## Freeing -/

theorem agrees_reclaim (hlone : Lone t h) (pointer? : Option Nat) :
    Agrees t (reclaim t pointer?) h := by
  cases pointer? with
  | none => exact agrees_pure () hlone
  | some address =>
      exact Agrees.ite (agrees_withCache hlone (BlockHeap.blind_free address))
        (agrees_onLarge hlone (LargeHeap.blind_free address none _))

theorem agrees_reclaimSized (hlone : Lone t h) (pointer? : Option Nat) (size : Nat) :
    Agrees t (reclaimSized t pointer? size) h := by
  cases pointer? with
  | none => exact agrees_pure () hlone
  | some address =>
      refine Agrees.ite ((agrees_onKernel _ hlone).bind fun actual h₁ _ hlone₁ => ?_)
        (agrees_onLarge hlone (LargeHeap.blind_free address (some size) _))
      refine (Agrees.onlyIf hlone₁ (agrees_onKernel _ hlone₁)).bind fun _ h₂ _ hlone₂ => ?_
      exact agrees_withCache hlone₂ (BlockHeap.blind_free address)

theorem agrees_allocatedSize (hlone : Lone t h) (pointer? : Option Nat) :
    Agrees t (allocatedSize pointer?) h := by
  cases pointer? with
  | none => exact agrees_pure 0 hlone
  | some address =>
      exact Agrees.ite (agrees_onKernel _ hlone)
        (agrees_onLarge hlone (LargeHeap.blind_sizeOf address _))

/-! ## Allocating -/

theorem agrees_follow (hlone : Lone t h) (zeroed : Bool) {target : Route}
    (hasks : NotHuge target.asks?) : Agrees t (follow t zeroed target) h := by
  cases target with
  | small c =>
      refine (agrees_withCache hlone (BlockHeap.blind_allocate c)).bind fun block? h₁ _ hlone₁ => ?_
      cases block? with
      | none => exact agrees_pure none hlone₁
      | some block =>
          exact (Agrees.onlyIf hlone₁ (agrees_onKernel _ hlone₁)).bind
            fun _ h₂ _ hlone₂ => agrees_pure _ hlone₂
  | large size align => exact agrees_onLarge hlone (LargeHeap.blind_allocate hasks _)

theorem agrees_tryAllocate (hlone : Lone t h) (hasks : NotHuge (allocateAsks? size opts)) :
    Agrees t (tryAllocate t size opts) h := by
  unfold allocateAsks? at hasks
  unfold tryAllocate
  cases hroute : route size opts with
  | error error => exact agrees_pure _ hlone
  | ok target? =>
      cases target? with
      | none => exact agrees_pure _ hlone
      | some target =>
          rw [hroute] at hasks
          refine (agrees_follow hlone opts.zero hasks).bind fun got? h₁ _ hlone₁ => ?_
          cases got? with
          | none => exact agrees_pure _ hlone₁
          | some address => exact agrees_pure _ hlone₁

/-- Neither of the two builds ends the process when memory runs out. -/
theorem agrees_fail (hlone : Lone t h) (error : AllocError) : Agrees t (fail error) h := by
  have hreport : ∀ number, Agrees t (reportFailure error number) h := fun number =>
    (agrees_logRecord _ hlone).bind fun _ h₁ _ hlone₁ =>
      (agrees_setErrorNumber number hlone₁).bind fun _ h₂ _ hlone₂ => agrees_pure none hlone₂
  cases error with
  | outOfMemory size =>
      have hfails : h.build.neverFails = false := by
        rw [hlone.dormant.build]
        rfl
      refine (hreport .noMemory).congr ?_ rfl
      rw [fail, get_bind_apply, hfails]
      rfl
  | invalidAlignment align => exact hreport .invalidArgument

theorem agrees_allocate (hlone : Lone t h) (hasks : NotHuge (allocateAsks? size opts)) :
    Agrees t (allocate t size opts) h := by
  refine (agrees_tryAllocate hlone hasks).bind fun result h₁ _ hlone₁ => ?_
  cases result with
  | ok got? => exact agrees_pure got? hlone₁
  | error error => exact agrees_fail hlone₁ error

/-! ## Resizing -/

theorem agrees_moveTo (hlone : Lone t h) (address old : Nat)
    (hasks : NotHuge (allocateAsks? size opts)) : Agrees t (moveTo t address old size opts) h := by
  refine (agrees_allocate hlone hasks).bind fun moved? h₁ _ hlone₁ => ?_
  cases moved? with
  | none => exact agrees_pure none hlone₁
  | some moved =>
      exact (agrees_onKernel _ hlone₁).bind fun _ h₂ _ hlone₂ =>
        (agrees_reclaim hlone₂ _).bind fun _ h₃ _ hlone₃ => agrees_pure _ hlone₃

/-- A large allocation that cannot stay where it is moves. -/
theorem agrees_move (hlone : Lone t h) {address : Nat}
    (hasks : NotHuge (h.moveAsks? address size opts)) :
    Agrees t (do
      let old ← onLarge (LargeHeap.sizeOf address)
      moveTo t address old size opts) h := by
  refine (agrees_onLarge hlone (LargeHeap.blind_sizeOf address _)).bind
    fun old h₁ hrun hlone₁ => agrees_moveTo hlone₁ address old ?_
  obtain ⟨l, hsize, -⟩ := exists_of_within hrun
  have hentry : h.table.get? address = some old := (LargeHeap.sizeOf_eq_ok hsize).1
  rw [moveAsks?, hentry] at hasks
  exact hasks

theorem agrees_resizeBlock (hlone : Lone t h) {address : Nat} {target : Route}
    (hblock : isBlock address = true) (hasks : NotHuge (h.resizeAsks? address size opts target)) :
    Agrees t (resizeBlock t address size opts target) h := by
  unfold resizeAsks? at hasks
  rw [if_pos hblock] at hasks
  refine (agrees_onKernel _ hlone).bind fun c h₁ hrun hlone₁ => ?_
  obtain ⟨k, hcategory, -⟩ := exists_of_within hrun
  have hkernel : Kernel.blockCategory address h.kernel = .ok c k := hcategory
  rw [hkernel] at hasks
  by_cases htarget : target = .small c
  · rw [if_pos htarget]
    exact agrees_pure _ hlone₁
  · simp only [if_neg htarget] at hasks ⊢
    exact agrees_moveTo hlone₁ address _ hasks

theorem agrees_resizeLarge (hlone : Lone t h) {address : Nat} {target : Route}
    (hlarge : isBlock address ≠ true) (hasks : NotHuge (h.resizeAsks? address size opts target)) :
    Agrees t (resizeLarge t address size opts target) h := by
  unfold resizeAsks? at hasks
  rw [if_neg hlarge] at hasks
  cases target with
  | small c => exact agrees_move hlone hasks
  | large rounded align =>
      unfold resizeLarge
      by_cases haligned : address % align = 0
      · simp only [if_pos haligned] at hasks ⊢
        refine (agrees_onLarge hlone (LargeHeap.mirrors_resize hasks)).bind
          fun got? h₁ _ hlone₁ => ?_
        cases got? with
        | some got => exact agrees_pure _ hlone₁
        | none => exact agrees_fail hlone₁ _
      · simp only [if_neg haligned] at hasks ⊢
        exact agrees_move hlone hasks

theorem agrees_reallocate (hlone : Lone t h)
    (hasks : NotHuge (h.reallocateAsks? pointer? size opts)) :
    Agrees t (reallocate t pointer? size opts) h := by
  cases pointer? with
  | none => exact agrees_allocate hlone hasks
  | some address =>
      unfold reallocateAsks? at hasks
      unfold reallocate
      by_cases hzero : size = 0
      · simp only [if_pos hzero]
        exact (agrees_reclaim hlone _).bind fun _ h₁ _ hlone₁ => agrees_pure none hlone₁
      · simp only [if_neg hzero] at hasks ⊢
        cases hroute : route size opts with
        | error error => exact agrees_fail hlone error
        | ok target? =>
            cases target? with
            | none => exact agrees_pure none hlone
            | some target =>
                simp only [hroute] at hasks
                by_cases hblock : isBlock address = true
                · simp only [if_pos hblock]
                  exact agrees_resizeBlock hlone hblock hasks
                · simp only [if_neg hblock]
                  exact agrees_resizeLarge hlone hblock hasks

/-! ## Layouts and C functions -/

theorem agrees_resizeSlice (hlone : Lone t h) {new : Layout}
    (hasks : NotHuge (h.reallocateAsks? pointer? (servedSize new.size) (new.options false))) :
    Agrees t (resizeSlice t pointer? new) h := by
  refine (agrees_reallocate hlone hasks).bind fun got? h₁ _ hlone₁ => ?_
  cases got? with
  | some got => exact agrees_pure _ hlone₁
  | none => exact agrees_pure none hlone₁

theorem agrees_growSliceZeroed (hlone : Lone t h) (old : Layout) {new : Layout}
    (hasks : NotHuge (h.reallocateAsks? pointer? (servedSize new.size) (new.options false))) :
    Agrees t (growSliceZeroed t pointer? old new) h := by
  refine (agrees_resizeSlice hlone hasks).bind fun slice? h₁ _ hlone₁ => ?_
  cases slice? with
  | none => exact agrees_pure none hlone₁
  | some slice =>
      exact (agrees_checked _ hlone₁).bind fun added h₂ _ hlone₂ =>
        (agrees_onKernel _ hlone₂).bind fun _ h₃ _ hlone₃ => agrees_pure _ hlone₃

theorem agrees_tryAllocateLayout (hlone : Lone t h) {l : Layout}
    (hasks : NotHuge (allocateAsks? (servedSize l.size) (l.options false))) :
    Agrees t (tryAllocateLayout t l) h := by
  refine (agrees_tryAllocate hlone hasks).bind fun result h₁ _ hlone₁ => ?_
  cases result with
  | error error => exact agrees_pure _ hlone₁
  | ok got? =>
      cases got? with
      | some got => exact agrees_pure _ hlone₁
      | none => exact agrees_pure _ hlone₁

theorem agrees_allocateSlice (hlone : Lone t h) {l : Layout} {zeroed : Bool}
    (hasks : NotHuge (allocateAsks? (servedSize l.size) (l.options zeroed))) :
    Agrees t (allocateSlice t l zeroed) h := by
  refine (agrees_tryAllocate hlone hasks).bind fun result h₁ _ hlone₁ => ?_
  cases result with
  | error error => exact agrees_pure _ hlone₁
  | ok got? =>
      cases got? with
      | some got => exact agrees_pure _ hlone₁
      | none => exact agrees_pure _ hlone₁

theorem agrees_calloc (hlone : Lone t h) {count : Nat}
    (hasks : NotHuge ((Word.mul? count size).bind fun total =>
      allocateAsks? (servedSize total) { zero := true })) :
    Agrees t (calloc t count size) h := by
  unfold calloc
  cases htotal : Word.mul? count size with
  | none =>
      exact (agrees_setErrorNumber _ hlone).bind fun _ h₁ _ hlone₁ => agrees_pure none hlone₁
  | some total =>
      rw [htotal] at hasks
      exact agrees_allocate hlone hasks

theorem agrees_posixMemalign (hlone : Lone t h) {align : Nat}
    (hasks : NotHuge (if !Word.isPowerOfTwo align || align < pointerSize then none
      else allocateAsks? (servedSize size) { align := align })) :
    Agrees t (posixMemalign t align size) h := by
  unfold posixMemalign
  split
  · exact agrees_pure _ hlone
  · rename_i hvalid
    rw [if_neg hvalid] at hasks
    refine (agrees_allocate hlone hasks).bind fun got? h₁ _ hlone₁ => ?_
    cases got? with
    | none => exact agrees_pure _ hlone₁
    | some got => exact agrees_pure _ hlone₁

theorem agrees_trim (hlone : Lone t h) (pad : Nat) : Agrees t (trim t pad) h := by
  have hassoc : trim t pad = (do flushOwn t; flushFallback) >>= fun _ => do
      let released ← trimPages pad
      logRecord (.trimmed released)
      return decide (0 < released) := by
    rw [bind_assoc]
    rfl
  rw [hassoc]
  exact (agrees_flushes hlone).bind fun _ h₁ _ hlone₁ =>
    (agrees_onLarge hlone₁ (LargeHeap.blind_trim pad _)).bind fun released h₂ _ hlone₂ =>
      (agrees_logRecord _ hlone₂).bind fun _ h₃ _ hlone₃ => agrees_pure _ hlone₃

/-! ## Requests -/

/-- A request is served in the same way in both heaps, unless it is for one cache alone, or whole huge
pages are asked for. -/
theorem agrees_serve (hlone : Lone t h) {r : HeapRequest} (hcaches : ¬r.NamesCache)
    (hasks : NotHuge (r.asks? h)) : Agrees t (serve t r) h := by
  cases r with
  | allocate size opts => exact (agrees_allocate hlone hasks).map _
  | reallocate pointer? size opts => exact (agrees_reallocate hlone hasks).map _
  | reclaim pointer? => exact (agrees_reclaim hlone pointer?).map _
  | reclaimSized pointer? size => exact (agrees_reclaimSized hlone pointer? size).map _
  | allocatedSize pointer? => exact (agrees_allocatedSize hlone pointer?).map _
  | trim pad => exact (agrees_trim hlone pad).map _
  | trimPages pad => exact (agrees_onLarge hlone (LargeHeap.blind_trim pad _)).map _
  | flushOwn => exact absurd trivial hcaches
  | flushFallback => exact absurd trivial hcaches
  | tryAllocateLayout l => exact (agrees_tryAllocateLayout hlone hasks).map _
  | allocateLayout l zeroed => exact (agrees_allocate hlone hasks).map _
  | deallocateLayout pointer? l => exact (agrees_reclaimSized hlone pointer? l.size).map _
  | reallocateLayout pointer? l size => exact (agrees_reallocate hlone hasks).map _
  | allocateSlice l zeroed => exact (agrees_allocateSlice hlone hasks).map _
  | deallocateSlice pointer? l => exact (agrees_reclaimSized hlone pointer? l.size).map _
  | resizeSlice pointer? old new => exact (agrees_resizeSlice hlone hasks).map _
  | growSliceZeroed pointer? old new => exact (agrees_growSliceZeroed hlone old hasks).map _
  | malloc size => exact (agrees_allocate hlone hasks).map _
  | calloc count size => exact (agrees_calloc hlone hasks).map _
  | realloc pointer? size =>
      cases pointer? with
      | none => exact (agrees_allocate hlone hasks).map _
      | some address =>
          have hmoves : NotHuge (h.reallocateAsks? (some address) size {}) := hasks
          exact (agrees_reallocate hlone hmoves).map _
  | alignedAlloc align size => exact (agrees_allocate hlone hasks).map _
  | posixMemalign align size => exact (agrees_posixMemalign hlone hasks).map _

end Heap
end PagedHeap
