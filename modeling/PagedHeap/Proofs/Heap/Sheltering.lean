import PagedHeap.Proofs.Heap.Checks

/-!
# Headers that someone stored over

Where someone has stored over the header of a run, the heap is not sound any more, but an
allocation does not notice.  It takes the first block of a list and stores a node behind it, or it
gets pages from the supplier, and nothing of that is in a header of a run.  So if a block passes
the check against its header, it passes again after its content was moved and it is to be freed.
-/

namespace PagedHeap

open PagedHeap.Action Ending

/-- The bytes `kept` are as they were, and none of them is among the `size` bytes that were handed
out, if any were. -/
structure Avoids (kept : Set Nat) (size : Nat) (m : Memory) (got? : Option Nat) (m' : Memory) :
    Prop where
  byteAt : ∀ y ∈ kept, m'.byteAt y = m.byteAt y
  apart : ∀ x, got? = some x → Disjoint kept (bytesAt x size)

/-- The first block of every list is off the bytes `kept`, and so is the node that is to be stored
behind it when it is taken. -/
structure Fronts (m : Memory) (cache : BlockCache) (kept : Set Nat) : Prop where
  first : ∀ (c : Category) block, (cache.list c).head? = some block →
    Disjoint kept (bytesAt block c.blockSize)
  second : ∀ (c : Category) block, (cache.list c).head? = some block →
    1 < (m.loadNode block).count → Disjoint kept (bytesAt (block + c.blockSize) Node.width)

variable {m m' : Memory} {kept : Set Nat} {c : Category} {size : Nat}

theorem avoids_none (hsame : ∀ y ∈ kept, m'.byteAt y = m.byteAt y) :
    Avoids kept size m none m' :=
  ⟨hsame, fun _ hnone => absurd hnone (by simp)⟩

theorem avoids_some {x : Nat} (hsame : ∀ y ∈ kept, m'.byteAt y = m.byteAt y)
    (hapart : Disjoint kept (bytesAt x size)) : Avoids kept size m (some x) m' := by
  refine ⟨hsame, fun y hsome => ?_⟩
  rwa [← Option.some.inj hsome]

/-! ## Blocks -/

namespace BlockHeap

variable {b : BlockHeap} {block page first count : Nat}

/-- The supplier does not have the bytes `kept`, and the lists do not begin there. -/
structure Shelters (b : BlockHeap) (kept : Set Nat) : Prop where
  paging : ∃ out lent, b.paging.Sound out lent ∧ kept ⊆ out
  fronts : Fronts b.paging.kernel.memory b.cache kept

theorem ensures_behindFirst_apart {node : Node}
    (hapart : 1 < node.count → Disjoint kept (bytesAt (block + c.blockSize) Node.width)) :
    Ensures (behindFirst c block node) b (fun _ b' => ∀ y ∈ kept,
      b'.paging.kernel.memory.byteAt y = b.paging.kernel.memory.byteAt y) never := by
  simp only [behindFirst, ensures_ite, ensures_bind, ensures_updateMemory, ensures_pure]
  split
  · rename_i hmany
    exact fun y hy =>
      Memory.byteAt_storeNode_outside (Set.disjoint_left.1 (hapart hmany) hy)
  · exact fun _ _ => trivial

theorem Shelters.ensures_pop (h : b.Shelters kept) (c : Category) :
    Ensures (pop c) b
      (fun x? b' => (x? = none → b' = b) ∧
        Avoids kept c.blockSize b.paging.kernel.memory x? b'.paging.kernel.memory)
      (fun e _ => e.Blameless) := by
  simp only [pop, ensures_bind, ensures_list]
  cases hhead : (b.cache.list c).head? with
  | none => exact .answer ⟨fun _ => rfl, avoids_none fun _ _ => rfl⟩
  | some block =>
      simp only [ensures_bind, ensures_memory]
      apply (ensures_behindFirst_apart (h.fronts.second c block hhead)).weaken
      intro head? b₁ hsame
      apply ((confined_checked (R := Eq) (blameless_violated _) _) b₁).imp
      intro n b₂ heq
      subst heq
      rw [ensures_setList]
      exact .answer ⟨fun hnone => absurd hnone (by simp),
        avoids_some hsame (h.fronts.first c block hhead)⟩

theorem ensures_push_apart (hapart : Disjoint kept (bytesAt first Node.width)) :
    Ensures (push c first count) b (fun _ b' => ∀ y ∈ kept,
      b'.paging.kernel.memory.byteAt y = b.paging.kernel.memory.byteAt y)
      (fun e _ => e.Blameless) := by
  simp only [push, ensures_bind, ensures_list, ensures_updateMemory]
  apply ((confined_require (R := Eq) (blameless_violated _) _) _).imp
  intro _ b₁ heq
  subst heq
  rw [ensures_setList]
  dsimp only
  exact fun y hy => Memory.byteAt_storeNode_outside (Set.disjoint_left.1 hapart hy)

/-- A page from elsewhere is made a run. -/
theorem ensures_openRun_apart (hapart : Disjoint kept (bytesAt page pageSize)) :
    Ensures (openRun c page) b
      (fun x b' => Avoids kept c.blockSize b.paging.kernel.memory (some x)
        b'.paging.kernel.memory) (fun e _ => e.Blameless) := by
  have hfour : 4 * c.blockSize ≤ pageSize := by
    revert c
    decide
  have hmin := c.minSize_le_blockSize
  simp only [minSize] at hmin
  have hheader : Disjoint kept (bytesAt page 8) :=
    hapart.mono_right (bytesAt_subset (Nat.le_refl _) (by omega))
  have hfirst : Disjoint kept (bytesAt (page + c.blockSize) c.blockSize) :=
    hapart.mono_right (bytesAt_subset (Nat.le_add_right _ _) (by omega))
  have hnode : Disjoint kept (bytesAt (page + c.blockSize + c.blockSize) Node.width) :=
    hapart.mono_right (bytesAt_subset (by omega) (by
      simp only [Node.width]
      omega))
  simp only [openRun, ensures_bind, ensures_updateMemory, ensures_pure]
  apply (ensures_push_apart hnode).imp
  intro _ b' hsame
  refine avoids_some (fun y hy => (hsame y hy).trans ?_) hfirst
  dsimp only
  exact Memory.byteAt_markRun_outside (Set.disjoint_left.1 hheader hy)

theorem Shelters.ensures_allocate (h : b.Shelters kept) (c : Category) :
    Ensures (allocate c) b
      (fun x? b' =>
        Avoids kept c.blockSize b.paging.kernel.memory x? b'.paging.kernel.memory)
      (fun e _ => e.Blameless) := by
  rw [allocate, ensures_bind]
  apply (h.ensures_pop c).imp
  intro x? b₁ hpost
  obtain ⟨hempty, havoids⟩ := hpost
  cases x? with
  | some x => exact .answer havoids
  | none =>
      -- The list was empty, so a page comes from the supplier, which has none of those bytes.
      obtain rfl := hempty rfl
      obtain ⟨out, lent, hpaging, hsub⟩ := h.paging
      rw [ensures_bind, ensures_onPages]
      apply (hpaging.ensures_allocate pageSize_pos (Nat.mod_self _)).weaken
      intro page? p hobtains
      cases page? with
      | none => exact .answer (avoids_none fun y hy => hobtains.1.byteAt y (hsub hy))
      | some page =>
          obtain ⟨hkeeps, hsupplies⟩ := hobtains
          rw [ensures_map]
          apply (ensures_openRun_apart (hsupplies.apart.mono_left hsub)).imp
          intro x b₂ havoids'
          exact ⟨fun y hy => (havoids'.byteAt y hy).trans (hkeeps.byteAt y (hsub hy)),
            havoids'.apart⟩

end BlockHeap

/-! ## The process-wide heap -/

namespace Heap

variable {h : Heap} {spans : Place → Category → List Span} {live foreign : Set Nat}
  {t x old : Nat} {opts : AllocOptions} {r : HeapRequest}

/-- The bytes `kept` are neither the supplier's nor those of large allocations or their table, and
no list begins there. -/
structure Shelters (h : Heap) (kept : Set Nat) : Prop where
  large : ∃ rest lent, h.largeHeap.Sound rest lent ∧ kept ⊆ rest
  fronts : ∀ place, Fronts h.kernel.memory (h.cacheAt place) kept

theorem Shelters.blocks (h₁ : h.Shelters kept) (place : Place) :
    (h.blocksAt place).Shelters kept := by
  obtain ⟨rest, lent, hlarge, hsub⟩ := h₁.large
  exact ⟨⟨_, _, hlarge.paging, fun y hy => .inr (.inr (hsub hy))⟩, h₁.fronts place⟩

theorem Shelters.ensures_allocateBlock (h₁ : h.Shelters kept) (t : Nat) (c : Category)
    (zeroed : Bool) :
    Ensures (allocateBlock t c zeroed) h
      (fun x? h' => Avoids kept c.blockSize h.kernel.memory x? h'.kernel.memory)
      (fun e _ => e.Blameless) := by
  rw [allocateBlock, ensures_bind]
  apply (ensures_withCache_or fun place => (h₁.blocks place).ensures_allocate c).mono
  · intro x? h' hpost
    obtain ⟨place, b, havoids, hserved, -⟩ := hpost
    rw [← hserved.receives.kernel_eq] at havoids
    cases x? with
    | none => exact .answer havoids
    | some x =>
        rw [ensures_bind, ensures_onlyIf]
        split
        · have hapart := havoids.apart x rfl
          rw [ensures_zero]
          refine .answer (avoids_some (fun y hy => ?_) hapart)
          exact (Memory.byteAt_clear_outside (Set.disjoint_left.1 hapart hy)).trans
            (havoids.byteAt y hy)
        · exact .answer havoids
  · intro e _ hends
    rcases hends with hlock | hblameless
    · exact hlock.blameless
    · exact hblameless

theorem Shelters.ensures_allocateLarge {rounded align : Nat} (h₁ : h.Shelters kept)
    (hroute : route size opts = .ok (some (.large rounded align))) :
    Ensures (onLarge (LargeHeap.allocate rounded align)) h
      (fun x? h' => Avoids kept size h.kernel.memory x? h'.kernel.memory)
      (fun e _ => e.Blameless) := by
  obtain ⟨rest, lent, hlarge, hsub⟩ := h₁.large
  obtain ⟨hpos, hle, -, halign, hyields⟩ := route_large hroute
  rw [onLarge, ensures_within]
  apply (hlarge.ensures_allocate (Nat.lt_of_lt_of_le hpos hle) halign).weaken
  intro x? l hallocates
  cases x? with
  | none =>
      have hrests : h.largeHeap.Rests rest lent l := hallocates
      exact avoids_none fun y hy => hrests.keeps.byteAt y (.inr (hsub hy))
  | some x =>
      obtain ⟨n, hceil, hplaces, -, -⟩ := hallocates
      have hapart := (Set.disjoint_union_left.1 hplaces.apart).2.mono_left hsub
      have hinside : bytesAt x size ⊆ bytesAt x n :=
        bytesAt_subset (Nat.le_refl _) (Nat.add_le_add_left (hyields n hceil).size_le x)
      exact avoids_some (fun y hy => hplaces.keeps.byteAt y (.inr (hsub hy)))
        (hapart.mono_right hinside)

theorem Shelters.ensures_follow {target : Route} (h₁ : h.Shelters kept) (t : Nat)
    (hroute : route size opts = .ok (some target)) :
    Ensures (follow t opts.zero target) h
      (fun x? h' => Avoids kept size h.kernel.memory x? h'.kernel.memory)
      (fun e _ => e.Blameless) := by
  cases target with
  | large rounded align => exact h₁.ensures_allocateLarge hroute
  | small c =>
      apply (h₁.ensures_allocateBlock t c opts.zero).imp
      intro x? h' havoids
      refine ⟨havoids.byteAt, fun x hx => (havoids.apart x hx).mono_right ?_⟩
      exact bytesAt_subset (Nat.le_refl _)
        (Nat.add_le_add_left (route_small hroute).1.size_le x)

theorem Shelters.ensures_tryAllocate (h₁ : h.Shelters kept) (t size : Nat) (opts : AllocOptions) :
    Ensures (tryAllocate t size opts) h
      (fun result h' => Avoids kept size h.kernel.memory (result.toOption.bind id)
        h'.kernel.memory) (fun e _ => e.Blameless) := by
  unfold tryAllocate
  cases hroute : route size opts with
  | error error => exact .answer (avoids_none fun _ _ => rfl)
  | ok target? =>
      cases target? with
      | none => exact .answer (avoids_none fun _ _ => rfl)
      | some target =>
          rw [ensures_bind]
          apply (h₁.ensures_follow t hroute).imp
          intro x? h' havoids
          cases x? with
          | none => exact .answer havoids
          | some x => exact .answer havoids

theorem Shelters.ensures_allocate (h₁ : h.Shelters kept) (t size : Nat) (opts : AllocOptions) :
    Ensures (allocate t size opts) h
      (fun x? h' => Avoids kept size h.kernel.memory x? h'.kernel.memory)
      (fun e _ => e.Blameless) := by
  rw [allocate, ensures_bind]
  apply (h₁.ensures_tryAllocate t size opts).imp
  intro result h' havoids
  cases result with
  | ok x? => exact .answer havoids
  | error error =>
      apply (ensures_fail h' error).mono
      · intro x? h'' hpost
        obtain ⟨rfl, hnotes⟩ := hpost
        rw [hnotes.parts.kernel]
        exact havoids
      · exact fun _ _ hends => hends.blameless

/-- A block that passed its check passes it again when it was moved. -/
theorem Shelters.ensures_moveTo (h₁ : h.Shelters (bytesAt (pageOf x) 4))
    (hblock : IsBlock h.kernel.memory c x) (t old size : Nat) (opts : AllocOptions) :
    Ensures (moveTo t x old size opts) h (fun _ _ => True) (fun e _ => e.Blameless) := by
  rw [moveTo, ensures_bind]
  apply (h₁.ensures_allocate t size opts).imp
  intro moved? h' havoids
  cases moved? with
  | none => exact .answer trivial
  | some moved =>
      -- The copy stays in what was granted, so the header says what it said before.
      have hinside : bytesAt moved (min old size) ⊆ bytesAt moved size :=
        bytesAt_subset (Nat.le_refl _) (Nat.add_le_add_left (Nat.min_le_right old size) moved)
      have hapart := (havoids.apart moved rfl).mono_right hinside
      have hblock' : IsBlock (h'.kernel.memory.copy x moved (min old size)) c x :=
        hblock.congr fun y hy =>
          (Memory.byteAt_copy_outside (Set.disjoint_left.1 hapart hy)).trans
            (havoids.byteAt y hy)
      rw [ensures_bind, ensures_copy, ensures_bind]
      exact (ensures_reclaim_blameless (h := h'.withMemory _) hblock' t).imp
        fun _ _ _ => .answer trivial

/-- Where a block is by the header of its run, no request finds fault with it. -/
theorem Shelters.ensures_acquits (h₁ : h.Shelters (bytesAt (pageOf x) 4))
    (hblock : IsBlock h.kernel.memory c x) (hchecks : r.Checks x) (t : Nat) :
    Ensures (serve t r) h (fun _ _ => True) (fun e _ => r.Acquits x c.blockSize e) := by
  have hsmall := isBlock_eq_true hblock.offset_ne
  have hreclaim := ensures_reclaim_blameless hblock t
  cases hchecks with
  | reclaim =>
      rw [serve, ensures_map]
      exact hreclaim.mono (fun _ _ _ => trivial) fun _ _ hends => .inl hends
  | reclaimSized size =>
      rcases Nat.lt_or_ge c.blockSize size with hlt | hge
      · apply (exposes_claim (.inr ⟨c, hblock, rfl⟩) hlt t).mono
        · exact fun _ _ _ => trivial
        · exact fun _ _ hends => .inr ⟨size, rfl, hlt, hends.1⟩
      · rw [serve, ensures_map, ensures_iff,
          reclaimSized_eq_reclaim (.inr ⟨c, hblock, rfl⟩) hge t, ← ensures_iff]
        exact hreclaim.mono (fun _ _ _ => trivial) fun _ _ hends => .inl hends
  | allocatedSize =>
      rw [serve, ensures_map]
      exact ensures_allocatedSize (.inr ⟨c, hblock, rfl⟩) trivial
  | vacate opts =>
      simp only [serve, ensures_map, reallocate, if_true, ensures_bind]
      exact hreclaim.mono (fun _ _ _ => .answer trivial) fun _ _ hends => .inl hends
  | reallocate hroute =>
      obtain ⟨hpos, -, -, -, -, -⟩ := route_eq_some hroute
      simp only [serve, ensures_map, reallocate, if_neg (Nat.pos_iff_ne_zero.1 hpos), hroute,
        hsmall, if_true, resizeBlock, onKernel, ensures_bind, ensures_within]
      apply BlockHeap.ensures_blockCategory hblock
      rw [ensures_ite]
      split
      · exact .answer trivial
      · exact (h₁.ensures_moveTo hblock t _ _ _).mono (fun _ _ _ => trivial)
          fun _ _ hends => .inl hends

/-! ## In a sound heap -/

/-- No list begins in the header of a run, and no node is stored there. -/
theorem Sound.fronts (hsound : h.Sound spans live foreign) {page : Nat}
    (hmod : page % pageSize = 0)
    (hsame : ∀ y, y ∉ bytesAt page 4 → m.byteAt y = h.kernel.memory.byteAt y) (place : Place) :
    Fronts m (h.cacheAt place) (bytesAt page 4) := by
  have hoff : ∀ {c : Category} {z : Nat}, IsBlock h.kernel.memory c z →
      Disjoint (bytesAt page 4) (bytesAt z c.blockSize) := by
    intro c z hblock
    rw [Set.disjoint_left]
    intro y hy hbody
    have hlow := hblock.header_apart hbody
    rw [pageOf_of_mem hmod (by decide) hy] at hlow
    simp only [mem_bytesAt, minSize] at hy hlow
    omega
  have hlinked : ∀ c, Linked h.kernel.memory c ((h.cacheAt place).list c).head? (spans place c) :=
    fun c => (hsound.holds place c).linked
  constructor
  · intro c block hhead
    have hlist := hlinked c
    rw [hhead] at hlist
    obtain ⟨s, tail, hspans, rfl⟩ := hlist.head?_eq_some
    rw [hspans] at hlist
    exact hoff (hlist.shaped (hlist.first_mem List.mem_cons_self))
  · intro c block hhead hmany
    have hlist := hlinked c
    rw [hhead] at hlist
    obtain ⟨s, tail, hspans, rfl⟩ := hlist.head?_eq_some
    rw [hspans] at hlist
    have hfirst := hoff (hlist.shaped (hlist.first_mem List.mem_cons_self))
    -- The node of the first block was not stored over.
    have hnode : m.loadNode s.first = h.kernel.memory.loadNode s.first :=
      Memory.loadNode_congr fun y hy => hsame y fun hin =>
        Set.disjoint_left.1 hfirst hin (node_subset_body c s.first hy)
    rw [hnode, hlist.tail.2.1] at hmany
    have hsecond := hoff (hlist.shaped (hlist.rest_notMem hmany).1)
    exact hsecond.mono_right (node_subset_body c _)

/-- The header of a run may be stored over. -/
theorem Sound.shelters (hsound : h.Sound spans live foreign) {page : Nat}
    (hpage : page ∈ pagesOf (usedBlocks spans live))
    (hsame : ∀ y, y ∉ bytesAt page 4 → m.byteAt y = h.kernel.memory.byteAt y) :
    (h.withMemory m).Shelters (bytesAt page 4) := by
  have hmod : page % pageSize = 0 := by
    obtain ⟨z, -, rfl⟩ := hpage
    exact pageOf_mod z
  have hheader : bytesAt page 4 ⊆ runBytes (usedBlocks spans live) ∪ foreign := by
    intro y hy
    refine .inl ?_
    show pageOf y ∈ pagesOf (usedBlocks spans live)
    rwa [pageOf_of_mem hmod (by decide) hy]
  obtain ⟨hpaging, -⟩ := hsound.large.paging.rewrites_by (fun _ => m)
    (hheader.trans (Set.subset_union_right.trans Set.subset_union_right)) hsame
  exact ⟨⟨_, _, hsound.large.repage hsound.large.out_apart hpaging, hheader⟩,
    fun place => hsound.fronts hmod hsame place⟩

end Heap
end PagedHeap
