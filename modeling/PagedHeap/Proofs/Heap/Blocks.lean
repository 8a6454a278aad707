import PagedHeap.Proofs.Heap.Outcomes

/-!
# Blocks of the process-wide heap

A block is taken from the cache that serves the thread and comes back to the one that serves the
thread that frees it, which may be another.  A flush empties a cache, and no block that the client
has or another cache has is touched by that.
-/

namespace PagedHeap
namespace Heap

open SizeTable

variable {h h' : Heap} {spans : Place → Category → List Span} {live foreign : Set Nat}
  {place : Place} {c : Category} {t x : Nat} {b : BlockHeap}

/-- What an allocation of a block comes to. -/
def GivesBlock (h : Heap) (spans : Place → Category → List Span) (live foreign : Set Nat)
    (c : Category) : Option Nat → Heap → Prop
  | none, h' => h.Rests spans live foreign h'
  | some x, h' => ∃ spans', h.Grants spans live foreign x c.blockSize h' spans' ∧
      IsBlock h'.kernel.memory c x

theorem cachedOff_subset_elsewhere (place : Place) (spans : Place → Category → List Span)
    (live : Set Nat) : cachedOff place spans ⊆ elsewhere place spans live :=
  Set.subset_union_left

/-- A block that the client gets is elsewhere. -/
theorem elsewhere_insert (hoffset : pageOffset x ≠ 0) :
    elsewhere place spans (insert x live) = insert x (elsewhere place spans live) := by
  have hheld : heldBlocks (insert x live) = insert x (heldBlocks live) := by
    ext y
    constructor
    · intro hy
      rcases Set.mem_insert_iff.1 hy.1 with rfl | hin
      · exact Set.mem_insert y _
      · exact Set.mem_insert_of_mem x ⟨hin, hy.2⟩
    · intro hy
      rcases Set.mem_insert_iff.1 hy with rfl | hin
      · exact ⟨Set.mem_insert y live, hoffset⟩
      · exact ⟨Set.mem_insert_of_mem x hin.1, hin.2⟩
  rw [elsewhere, hheld, Set.union_insert]
  rfl

theorem insert_diff_self (hx : x ∈ live) : insert x (live \ {x}) = live := by
  rw [Set.insert_sdiff_singleton, Set.insert_eq_of_mem hx]

theorem Receives.kernel_eq (hreceives : h.Receives place b h') : h'.kernel = b.paging.kernel :=
  congrArg (fun b : BlockHeap => b.paging.kernel) hreceives.blocks

theorem keeps_cachedOff (hkeeps : (h.blocksAt place).paging.Keeps
      (reserved h.kernel.memory (elsewhere place spans live) ∪ h.beside foreign) b.paging) :
    (h.blocksAt place).paging.Keeps
      (reserved h.kernel.memory (cachedOff place spans) ∪ h.beside foreign) b.paging :=
  hkeeps.mono (Set.union_subset_union_left _
    (reserved_mono (cachedOff_subset_elsewhere place spans live)))

/-! ## Taking a block -/

theorem Sound.grants_block {new : Category → List Span} (hsound : h.Sound spans live foreign)
    (hserved : h.Served place b h')
    (hblocks : b.Sound new (insert x (elsewhere place spans live)) (h.beside foreign)
      h.table.total)
    (hkeeps : (h.blocksAt place).paging.Keeps
      (reserved h.kernel.memory (elsewhere place spans live) ∪ h.beside foreign) b.paging)
    (hnew : x ∉ elsewhere place spans live) (hblock : IsBlock b.paging.kernel.memory c x)
    (hopens : Opens h.kernel.memory c
      (BlockHeap.cachedBlocks (spans place) ∪ elsewhere place spans live)
      b.paging.kernel.memory
      (BlockHeap.cachedBlocks new ∪ insert x (elsewhere place spans live))) :
    h.Grants spans live foreign x c.blockSize h' (Function.update spans place new) := by
  have hoffset := hblock.offset_ne
  have hfresh : x ∉ live := fun hin => hnew (.inr ⟨hin, hoffset⟩)
  have hkernel := hserved.receives.kernel_eq
  rw [← elsewhere_insert hoffset] at hblocks hopens
  rw [← usedBlocks_eq, ← usedBlocks_update, ← hkernel] at hopens
  rw [← hkernel] at hblock
  have hsound' := hsound.of_receives hserved.receives hblocks (keeps_cachedOff hkeeps)
    (fun y hy => ⟨fun hin => hin.resolve_left fun heq => hoffset (heq ▸ hy),
      Set.mem_insert_of_mem x⟩)
    (fun y hy hin => by
      rcases Set.mem_insert_iff.1 hin with rfl | hin
      · exact hnew (.inl hy)
      · exact hsound.cached_notMem y (cachedOff_subset place spans hy) hin)
    (hsound.idle.served hserved new)
  exact ⟨hsound', hserved.rules, Frames.of_receives hserved.receives hkeeps, hfresh,
    .inr ⟨c, hblock, rfl⟩, hopens.recycles,
    fun y hy hnot => ⟨c, hblock, hopens.shaped y hy hnot⟩⟩

/-- No block was taken from the cache at a place. -/
theorem Sound.rests_block (hsound : h.Sound spans live foreign) (hserved : h.Served place b h')
    (hrests : (h.blocksAt place).Rests
      (BlockHeap.cachedBlocks (spans place) ∪ elsewhere place spans live) (h.beside foreign)
      h.table.total b) :
    h.Rests spans live foreign h' := by
  have hreceives := hserved.receives
  have hlarge : h'.largeHeap = { h.largeHeap with paging := b.paging } := by
    have hpaging : h'.paging = b.paging := congrArg BlockHeap.paging hreceives.blocks
    rw [← hpaging, Heap.largeHeap, hreceives.table]
    rfl
  have hbefore := hsound.large
  rw [← Nat.add_zero ((pagesOf _).ncard * pageSize)] at hbefore
  rw [← usedBlocks_eq, ← Nat.add_zero h.table.total] at hrests
  have hafter := hbefore.rests_of_blocks (b := h.blocksAt place) rfl hrests
  rw [Nat.add_zero] at hafter
  refine ⟨?_, fun other => ?_, hserved.ready, hserved.rules⟩
  · rwa [hlarge]
  · by_cases hother : other = place
    · rw [hother]
      exact (congrArg BlockHeap.cache hreceives.blocks).trans hrests.cache_eq
    · exact hreceives.others other hother

theorem Sound.ensures_takeBlock (hsound : h.Sound spans live foreign) (t : Nat) (c : Category) :
    Action.Ensures (withCache t (BlockHeap.allocate c)) h (h.GivesBlock spans live foreign c)
      (fun e _ => h.LockEnds e) := by
  have hserve := ensures_withCache (t := t) fun place =>
    (hsound.blocks place).ensures_allocate c
  apply hserve.imp
  rintro x? h' ⟨place, b, hgives, hserved, -⟩
  cases x? with
  | none => exact hsound.rests_block hserved hgives.1
  | some x =>
      obtain ⟨new, hblocks, hkeeps, hnew, hblock, hopens, -⟩ := hgives
      refine ⟨_, hsound.grants_block hserved hblocks hkeeps hnew hblock hopens, ?_⟩
      rwa [hserved.receives.kernel_eq]

/-- A block that was asked for zeroed is zero. -/
def Zeroed (zeroed : Bool) (n : Nat) : Option Nat → Heap → Prop
  | none, _ => True
  | some x, h => zeroed = true → ∀ y ∈ bytesAt x n, h.kernel.memory.byteAt y = 0

theorem ensures_zero {address len : Nat} {post : Unit → Heap → Prop} {ends : Ending → Heap → Prop} :
    Action.Ensures (zero address len) h post ends ↔
      post () (h.withMemory (h.kernel.memory.clear address len)) :=
  Action.ensures_iff

theorem Sound.ensures_allocateBlock (hsound : h.Sound spans live foreign) (t : Nat) (c : Category)
    (zeroed : Bool) :
    Action.Ensures (allocateBlock t c zeroed) h
      (fun x? h' => h.GivesBlock spans live foreign c x? h' ∧ Zeroed zeroed c.blockSize x? h')
      (fun e _ => h.LockEnds e) := by
  rw [allocateBlock, Action.ensures_bind]
  apply (hsound.ensures_takeBlock t c).imp
  intro x? h₁ hgives
  cases x? with
  | none => exact .answer ⟨hgives, trivial⟩
  | some x =>
      obtain ⟨spans', hgrants, hblock⟩ := hgives
      rw [Action.ensures_bind, Action.ensures_onlyIf]
      split
      · -- The bytes are cleared after the block was taken; its node may have been in them.
        have hfilled := hgrants.withMemory fun y hy =>
          Memory.byteAt_clear_outside (m := h₁.kernel.memory) hy
        rw [ensures_zero]
        refine .answer ⟨⟨spans', hfilled, ?_⟩, fun _ y hy => Memory.byteAt_clear_inside hy⟩
        rcases hfilled.occupies with ⟨hoffset, -⟩ | ⟨d, hblock', hsize⟩
        · exact absurd hoffset hblock.offset_ne
        · obtain rfl := Category.blockSize_injective hsize
          exact hblock'
      · rename_i hplain
        exact .answer ⟨⟨spans', hgrants, hblock⟩, fun hzeroed => absurd hzeroed hplain⟩

/-! ## Freeing a block -/

theorem Sound.releases_block {new : List Span} (hsound : h.Sound spans live foreign)
    (hx : x ∈ live) (hblock : IsBlock h.kernel.memory c x) (hserved : h.Served place b h')
    (htakes : (h.blocksAt place).Takes (spans place) (elsewhere place spans (live \ {x}))
      (h.beside foreign) h.table.total c x new b) :
    h.Releases spans live foreign x h'
      (Function.update spans place (Function.update (spans place) c new)) := by
  have hoffset := hblock.offset_ne
  have hkernel := hserved.receives.kernel_eq
  have hcloses := htakes.closes
  rw [← elsewhere_insert hoffset, insert_diff_self hx] at hcloses
  rw [← usedBlocks_eq, ← usedBlocks_update, ← hkernel] at hcloses
  have hothers : ∀ y ∈ cachedOff place spans, y ∉ live \ {x} := fun y hy hin =>
    hsound.cached_notMem y (cachedOff_subset place spans hy) hin.1
  have hsound' := hsound.of_receives hserved.receives htakes.sound (keeps_cachedOff htakes.keeps)
    (fun y hy => ⟨fun hin => hin.1, fun hin => ⟨hin, fun heq => hoffset (heq ▸ hy)⟩⟩)
    hothers (hsound.idle.served hserved _)
  refine ⟨hsound', hserved.rules, Frames.of_receives hserved.receives htakes.keeps, .inl ?_,
    hcloses.shrinks, hcloses.alike, fun y hy hnot => ⟨c, hblock, hcloses.lost y hy hnot⟩⟩
  rw [cachedIn_update]
  refine .inl ⟨c, ?_⟩
  rw [Function.update_self]
  exact htakes.mem

/-- The block `x` was put on the list of category `c` at a place, which has other rows now. -/
structure Files (h : Heap) (spans : Place → Category → List Span) (live foreign : Set Nat)
    (place : Place) (c : Category) (x : Nat) (new : List Span) (h' : Heap) : Prop where
  releases : h.Releases spans live foreign x h'
    (Function.update spans place (Function.update (spans place) c new))
  piles : blocksOf c new = BlockHeap.pile x ((h.cacheAt place).count c) (blocksOf c (spans place c))

/-- The block `x` was put on a list of the cache that thread `t` borrows. -/
def FiledBy (h : Heap) (spans : Place → Category → List Span) (live foreign : Set Nat) (t : Nat)
    (c : Category) (x : Nat) (h' : Heap) : Prop :=
  ∃ place new, h.Files spans live foreign place c x new h' ∧
    ∃ loan h₁, borrow t h = .ok loan h₁ ∧ place = placeOf t loan

theorem FiledBy.releases (hfiled : h.FiledBy spans live foreign t c x h') :
    ∃ spans', h.Releases spans live foreign x h' spans' := by
  obtain ⟨place, new, hfiles, -⟩ := hfiled
  exact ⟨_, hfiles.releases⟩

theorem Sound.ensures_freeBlock (hsound : h.Sound spans live foreign) (t : Nat) (hx : x ∈ live)
    (hblock : IsBlock h.kernel.memory c x) :
    Action.Ensures (freeBlock t x) h (fun _ h' => h.FiledBy spans live foreign t c x h')
      (fun e _ => h.LockEnds e) := by
  have hnew : ∀ place, x ∉ elsewhere place spans (live \ {x}) := by
    intro place hin
    rcases hin with hin | hin
    · exact hsound.cached_notMem x (cachedOff_subset place spans hin) hx
    · exact hin.1.2 rfl
  have hall : ∀ place, (h.blocksAt place).Sound (spans place)
      (insert x (elsewhere place spans (live \ {x}))) (h.beside foreign) h.table.total := by
    intro place
    rw [← elsewhere_insert hblock.offset_ne, insert_diff_self hx]
    exact hsound.blocks place
  have hserve := ensures_withCache (t := t) fun place =>
    (hall place).ensures_free hblock (hnew place)
  apply hserve.imp
  rintro _ h' ⟨place, b, ⟨new, htakes⟩, hserved, hloan⟩
  exact ⟨place, new, ⟨hsound.releases_block hx hblock hserved htakes, htakes.piles⟩, hloan⟩

/-! ## Flushing -/

/-- The cache at a place is empty, and what it had has come home. -/
theorem Sound.steady_flushed (hsound : h.Sound spans live foreign)
    (hreceives : h.Receives place b h') (hrules : h.SameRules h')
    (hblocks : b.Sound (fun _ => []) (elsewhere place spans live) (h.beside foreign)
      h.table.total)
    (hkeeps : (h.blocksAt place).paging.Keeps
      (reserved h.kernel.memory (elsewhere place spans live) ∪ h.beside foreign) b.paging)
    (hidle : h'.Idle (Function.update spans place fun _ => [])) :
    h.Steady spans live foreign h' (Function.update spans place fun _ => []) := by
  have hnone : BlockHeap.cachedBlocks (fun _ => []) = ∅ := by
    ext y
    refine ⟨fun hy => ?_, fun hy => absurd hy (Set.notMem_empty y)⟩
    obtain ⟨c, hy⟩ := hy
    exact absurd hy List.not_mem_nil
  have hused : usedBlocks (Function.update spans place fun _ => []) live =
      elsewhere place spans live := by
    rw [usedBlocks_update, hnone, Set.empty_union]
  refine ⟨hsound.of_receives hreceives hblocks (keeps_cachedOff hkeeps) (fun _ _ => Iff.rfl)
    (fun y hy => hsound.cached_notMem y (cachedOff_subset place spans hy)) hidle, hrules,
    Frames.of_receives hreceives hkeeps, ?_, fun y _ hy => ?_⟩
  · rw [hused, usedBlocks_eq place]
    exact Set.subset_union_right
  · rw [hused] at hy
    rw [hreceives.kernel_eq]
    exact Memory.runCategory_congr fun z hz =>
      hkeeps.byteAt z (.inl (header_subset_reserved hy hz))

theorem Sound.ensures_flushFallback (hsound : h.Sound spans live foreign) :
    Action.Ensures flushFallback h
      (fun _ h' => h.Steady spans live foreign h' (Function.update spans .fallback fun _ => []))
      (fun e _ => h.LockEnds e) := by
  rw [flushFallback, Action.ensures_bind]
  apply (ensures_lockFallback h).imp
  intro _ h₁ hpost
  obtain ⟨hfree, rfl⟩ := hpost
  have hbefore := sameParts_held h true
  rw [Action.ensures_bind, Action.ensures_within]
  show Action.Ensures BlockHeap.flushAll (h.blocksAt .fallback) _ _
  apply (hsound.blocks .fallback).ensures_flushAll.weaken
  intro _ b hpost
  obtain ⟨hblocks, hkeeps⟩ := hpost
  rw [unlockFallback, Action.ensures_modify]
  have hreceives := (receives_fallbackPart { h with fallbackHeld := true } b).congr hbefore
    (sameParts_held _ false)
  have hidle : Idle { fallbackPart.write b { h with fallbackHeld := true } with
      fallbackHeld := false } (Function.update spans .fallback fun _ => []) := by
    intro t hne
    rw [Function.update_of_ne (by simp)]
    exact hsound.idle t hne
  exact hsound.steady_flushed hreceives ⟨rfl, hfree.symm⟩ hblocks hkeeps hidle

/-! ## Threads that flush their cache -/

/-- Only what is known of a thread has changed, and not its cache. -/
structure Touches (h : Heap) (t : Nat) (h' : Heap) : Prop where
  parts : h.SameParts h'
  rules : h.SameRules h'
  others : ∀ u, u ≠ t → (h'.thread u).status = (h.thread u).status

theorem touches_setThread {s : ThreadState} (hcache : s.cache = (h.thread t).cache) :
    h.Touches t (h.setThread t s) := by
  refine ⟨sameParts_setThread hcache, ⟨rfl, rfl⟩, fun u hu => ?_⟩
  rw [thread_setThread, if_neg hu]

/-- The cache of a thread is flushed after such a change. -/
theorem Sound.ensures_flushThread {h₁ : Heap} (hsound : h.Sound spans live foreign)
    (htouches : h.Touches t h₁) :
    Action.Ensures (Action.within (threadPart t) BlockHeap.flushAll) h₁
      (fun _ h' => h.Steady spans live foreign h' (Function.update spans (.thread t) fun _ => []) ∧
        (h'.thread t).status = (h₁.thread t).status) Action.never := by
  rw [Action.ensures_within]
  show Action.Ensures BlockHeap.flushAll (h₁.blocksAt (.thread t)) _ _
  rw [htouches.parts.blocksAt]
  apply (hsound.blocks (.thread t)).ensures_flushAll.weaken
  intro _ b hpost
  obtain ⟨hblocks, hkeeps⟩ := hpost
  have hreceives := (receives_threadPart h₁ t b).congr htouches.parts (SameParts.refl _)
  have hwritten : h₁.SameRules ((threadPart t).write b h₁) := ⟨rfl, rfl⟩
  refine ⟨hsound.steady_flushed hreceives (htouches.rules.trans hwritten) hblocks hkeeps
    fun u hne => ?_, status_threadPart h₁ t b t⟩
  by_cases hu : u = t
  · rw [hu, Function.update_self]
  · have hplace : Place.thread u ≠ .thread t := fun heq => hu (Place.thread.inj heq)
    rw [status_threadPart, htouches.others u hu] at hne
    rw [Function.update_of_ne hplace]
    exact hsound.idle u hne

/-- A thread that is not ready has nothing to flush. -/
theorem Sound.update_idle (hsound : h.Sound spans live foreign) (hnot : (h.thread t).status ≠ .ready) :
    Function.update spans (.thread t) (fun _ => []) = spans := by
  rw [← hsound.idle t hnot, Function.update_eq_self]

/-- The cache of a thread is flushed if the build has one for each thread, and this one is not
lent. -/
theorem Sound.ensures_flushOwn (hsound : h.Sound spans live foreign) (t : Nat) :
    Action.Ensures (flushOwn t) h
      (fun _ h' => ∃ spans', h.Steady spans live foreign h' spans' ∧
        (h.build.threading = .shared → (h.thread t).busy = false →
          spans' = Function.update spans (.thread t) fun _ => [])) Action.never := by
  simp only [flushOwn, Action.ensures_bind, Action.ensures_get, Action.ensures_ite]
  split
  · have hbusy : h.Touches t (h.setThread t { h.thread t with busy := true }) :=
      touches_setThread rfl
    rw [ensures_setBusy]
    apply (hsound.ensures_flushThread hbusy).weaken
    rintro _ h₂ ⟨hsteady, -⟩
    have hnotes : h₂.Notes (h₂.setThread t { h₂.thread t with busy := false }) :=
      ⟨sameParts_setThread rfl, keepsReady_setThread id, ⟨rfl, rfl⟩⟩
    exact ensures_setBusy.2 ⟨_, hsteady.notes hnotes, fun _ _ => rfl⟩
  · rename_i hskips
    refine .answer ⟨spans, hsound.steady_self, fun hshared hfree => ?_⟩
    exact (hsound.update_idle fun hready => hskips ⟨hshared, hfree, hready⟩).symm

/-- The exit hook of a thread empties its cache. -/
theorem Sound.ensures_startExitHook (hsound : h.Sound spans live foreign) (t : Nat) :
    Action.Ensures (startExitHook t) h
      (fun _ h' => h.Steady spans live foreign h' (Function.update spans (.thread t) fun _ => []) ∧
        (h'.thread t).status = .tearingDown) Action.never := by
  have hbegun : h.Touches t (h.setThread t { h.thread t with status := .tearingDown }) :=
    touches_setThread rfl
  rw [startExitHook, Action.ensures_bind, ensures_setStatus]
  apply (hsound.ensures_flushThread hbegun).weaken
  rintro _ h' ⟨hsteady, hstatus⟩
  refine ⟨hsteady, hstatus.trans ?_⟩
  rw [thread_setThread, if_pos rfl]

/-- From when its exit hook is done, a thread has no cache. -/
theorem ensures_endExitHook (hunready : (h.thread t).status ≠ .ready) :
    Action.Ensures (endExitHook t) h (fun _ h' => h.Notes h' ∧ (h'.thread t).status ≠ .ready)
      Action.never := by
  rw [endExitHook, ensures_setStatus]
  refine ⟨⟨sameParts_setThread rfl, keepsReady_setThread fun _ => hunready, ⟨rfl, rfl⟩⟩, ?_⟩
  rw [thread_setThread, if_pos rfl]
  simp

/-- A thread whose exit hook has run has no cache any more. -/
theorem Sound.ensures_runPendingHook (hsound : h.Sound spans live foreign) (t : Nat) :
    Action.Ensures (runPendingHook t) h
      (fun _ h' => h.Steady spans live foreign h' (Function.update spans (.thread t) fun _ => []) ∧
        (h'.thread t).status ≠ .ready) Action.never := by
  simp only [runPendingHook, Action.ensures_bind, Action.ensures_get, Action.ensures_ite]
  split
  · rw [runExitHook, Action.ensures_bind]
    apply (hsound.ensures_startExitHook t).weaken
    rintro _ h₁ ⟨hsteady, htearing⟩
    apply (ensures_endExitHook (by simp [htearing])).weaken
    exact fun _ h' hends => ⟨hsteady.notes hends.1, hends.2⟩
  · rename_i hnot
    refine .answer ⟨?_, hnot⟩
    rw [hsound.update_idle hnot]
    exact hsound.steady_self

theorem thread_erase (h : Heap) (t u : Nat) :
    ({ h with threads := h.threads.erase t } : Heap).thread u =
      if u = t then .fresh else h.thread u := by
  unfold thread
  rw [Std.TreeMap.getElem?_erase]
  by_cases hu : u = t
  · simp [hu]
  · have hne : compare t u ≠ .eq := by simpa using fun heq : t = u => hu heq.symm
    simp [hu, hne]

/-- A cache with nothing in it is the empty cache. -/
theorem cache_eq_empty {cache : BlockCache} {m : Memory}
    (hholds : ∀ c, Holds m c (cache.list c) []) : cache = .empty := by
  obtain ⟨lists⟩ := cache
  rw [BlockCache.empty, BlockCache.mk.injEq]
  apply Vector.ext
  intro i hi
  have hlist := hholds ⟨i, hi⟩
  have hhead : lists[i].head? = none := hlist.linked.chain
  have hcount : lists[i].count = 0 := hlist.count_eq
  rw [Vector.getElem_replicate]
  cases hentry : lists[i] with
  | mk head? count =>
      rw [hentry] at hhead hcount
      rw [show head? = none from hhead, show count = 0 from hcount]

/-- A thread that is not ready has an empty cache. -/
theorem Sound.cache_of_idle (hsound : h.Sound spans live foreign) {t : Nat}
    (hstatus : (h.thread t).status ≠ .ready) : (h.thread t).cache = .empty := by
  have hholds := hsound.holds (.thread t)
  rw [hsound.idle t hstatus] at hholds
  exact cache_eq_empty hholds

/-- The number of a thread without a cache may be that of a new thread. -/
theorem Sound.forget (hsound : h.Sound spans live foreign) {t : Nat}
    (hstatus : (h.thread t).status ≠ .ready) :
    h.SameParts { h with threads := h.threads.erase t } ∧
      h.KeepsReady { h with threads := h.threads.erase t } := by
  refine ⟨⟨rfl, rfl, rfl, fun place => ?_⟩, fun u hready => ?_⟩
  · cases place with
    | fallback => rfl
    | thread u =>
        simp only [cacheAt, thread_erase]
        split
        · rename_i heq
          subst heq
          exact (hsound.cache_of_idle hstatus).symm
        · rfl
  · rw [thread_erase] at hready
    split at hready
    · rename_i heq
      rwa [heq]
    · exact hready

theorem Sound.ensures_finishExit (hsound : h.Sound spans live foreign) (t : Nat) :
    Action.Ensures (finishExit t) h
      (fun _ h' => h.Steady spans live foreign h' (Function.update spans (.thread t) fun _ => []))
      Action.never := by
  rw [finishExit, Action.ensures_bind]
  apply (hsound.ensures_runPendingHook t).weaken
  intro _ h₁ hpost
  obtain ⟨hsteady, hstatus⟩ := hpost
  obtain ⟨hparts, hready⟩ := hsteady.sound.forget hstatus
  rw [Action.ensures_modify]
  exact hsteady.notes ⟨hparts, hready, ⟨rfl, rfl⟩⟩

/-- The cache at a place has been emptied, and nothing was put into one that was empty. -/
structure Empties (h : Heap) (place : Place) (h' : Heap) : Prop where
  emptied : h'.cacheAt place = .empty
  stays : ∀ other, h.cacheAt other = .empty → h'.cacheAt other = .empty

/-- There are no blocks in an empty cache. -/
theorem Sound.spans_of_empty (hsound : h.Sound spans live foreign)
    (hempty : h.cacheAt place = .empty) : spans place = fun _ => [] := by
  funext c
  have hholds := hsound.holds place c
  rw [hempty, BlockCache.list_empty] at hholds
  exact hholds.linked.head?_eq_none

theorem Steady.empties (hsteady : h.Steady spans live foreign h'
      (Function.update spans place fun _ => [])) (hsound : h.Sound spans live foreign) :
    h.Empties place h' := by
  have hempty : ∀ other, (Function.update spans place fun _ => []) other = (fun _ => []) →
      h'.cacheAt other = .empty := by
    intro other hnone
    apply cache_eq_empty (m := h'.kernel.memory)
    intro c
    have hholds := hsteady.sound.holds other c
    rwa [hnone] at hholds
  refine ⟨hempty place (Function.update_self ..), fun other hother => hempty other ?_⟩
  by_cases hplace : other = place
  · rw [hplace, Function.update_self]
  · rw [Function.update_of_ne hplace]
    exact hsound.spans_of_empty hother

end Heap
end PagedHeap
