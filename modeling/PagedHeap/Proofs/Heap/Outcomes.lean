import PagedHeap.Proofs.Heap.Allocations

/-!
# What may come of a request

Whatever the heap does for a client, it grants an allocation, or takes one back, or leaves the
client with what it had.  In each case the other allocations are preserved, and a block that has
come home is not used again until its page has been a run anew.
-/

namespace PagedHeap

/-- The used blocks of a page are others only if the page has been a run anew, and then all its
blocks are used. -/
structure Recycles (m : Memory) (used : Set Nat) (m' : Memory) (used' : Set Nat) : Prop where
  fresh : ∀ x ∈ used', x ∈ used ∨ pageOf x ∉ pagesOf used
  whole : ∀ x ∈ used', x ∉ used → ∀ c y, IsBlock m' c y → pageOf y = pageOf x → y ∈ used'
  alike : Alike m used m' used'

section Recycling

variable {m m₁ m' : Memory} {c : Category} {used used₁ used' : Set Nat}

theorem recycles_of_subset (hsub : used' ⊆ used) (halike : Alike m used m' used') :
    Recycles m used m' used' :=
  ⟨fun _ hx => .inl (hsub hx), fun _ hx hnot => absurd (hsub hx) hnot, halike⟩

theorem Opens.recycles (h : Opens m c used m' used') : Recycles m used m' used' := by
  refine ⟨h.fresh, fun x hx hnot d y hblock hpage => ?_, h.alike⟩
  obtain rfl := (h.shaped x hx hnot).category_eq hblock hpage.symm
  exact h.whole x hx hnot y hblock hpage

/-- The headers of the used blocks are as before. -/
theorem Recycles.of_headers (h : Recycles m used m₁ used')
    (hsame : ∀ x ∈ used', m'.runCategory (pageOf x) = m₁.runCategory (pageOf x)) :
    Recycles m used m' used' := by
  refine ⟨h.fresh, fun x hx hnot c y hblock hpage => ?_, fun x hx hx' => ?_⟩
  · have hheader := (hsame x hx).symm
    rw [← hpage] at hheader
    exact h.whole x hx hnot c y (hblock.of_runCategory hheader) hpage
  · exact (hsame x hx').trans (h.alike x hx hx')

/-- After runs were opened, blocks of other pages come home. -/
theorem Recycles.shrink (h : Recycles m used m₁ used₁) (hsub : used' ⊆ used₁)
    (halike : Alike m₁ used₁ m' used')
    (hlost : ∀ y ∈ used₁, y ∉ used' → ∀ x ∈ used₁, x ∉ used → pageOf y ≠ pageOf x) :
    Recycles m used m' used' := by
  refine ⟨fun x hx => h.fresh x (hsub hx), fun x hx hnot c y hblock hpage => ?_, fun x hx hx' => ?_⟩
  · have hheader := (halike x (hsub hx) hx).symm
    rw [← hpage] at hheader
    have hin := h.whole x (hsub hx) hnot c y (hblock.of_runCategory hheader) hpage
    by_contra hgone
    exact hlost y hin hgone x (hsub hx) hnot hpage
  · exact (halike x (hsub hx') hx').trans (h.alike x hx (hsub hx'))

theorem Alike.trans (h : Alike m used m₁ used₁) (h' : Alike m₁ used₁ m' used')
    (hsub : used' ⊆ used₁) : Alike m used m' used' :=
  fun x hx hx' => (h' x (hsub hx') hx').trans (h x hx (hsub hx'))

end Recycling

namespace Heap

/-- Something was written down, and nothing else has changed. -/
structure Notes (h h' : Heap) : Prop where
  parts : h.SameParts h'
  ready : h.KeepsReady h'
  rules : h.SameRules h'

/-- The supplier alone has changed, and nothing that is out of its hands. -/
structure Rests (h : Heap) (spans : Place → Category → List Span) (live foreign : Set Nat)
    (h' : Heap) : Prop where
  large : h.largeHeap.Rests (runBytes (usedBlocks spans live) ∪ foreign)
    ((pagesOf (usedBlocks spans live)).ncard * pageSize) h'.largeHeap
  caches : ∀ place, h'.cacheAt place = h.cacheAt place
  ready : h.KeepsReady h'
  rules : h.SameRules h'

/-- The client has what it had, and some blocks may have come home. -/
structure Steady (h : Heap) (spans : Place → Category → List Span) (live foreign : Set Nat)
    (h' : Heap) (spans' : Place → Category → List Span) : Prop where
  sound : h'.Sound spans' live foreign
  rules : h.SameRules h'
  frames : h.Frames live foreign h'
  shrinks : usedBlocks spans' live ⊆ usedBlocks spans live
  alike : Alike h.kernel.memory (usedBlocks spans live) h'.kernel.memory (usedBlocks spans' live)

/-- The client has an allocation of `n` bytes more.  Blocks that are used now and were not are
of its category. -/
structure Grants (h : Heap) (spans : Place → Category → List Span) (live foreign : Set Nat)
    (x n : Nat) (h' : Heap) (spans' : Place → Category → List Span) : Prop where
  sound : h'.Sound spans' (insert x live) foreign
  rules : h.SameRules h'
  frames : h.Frames live foreign h'
  fresh : x ∉ live
  occupies : h'.Occupies x n
  recycles : Recycles h.kernel.memory (usedBlocks spans live)
    h'.kernel.memory (usedBlocks spans' (insert x live))
  opened : ∀ y ∈ usedBlocks spans' (insert x live), y ∉ usedBlocks spans live →
    ∃ c, IsBlock h'.kernel.memory c x ∧ IsBlock h'.kernel.memory c y

/-- The client has an allocation less.  Blocks that came home are of its category. -/
structure Releases (h : Heap) (spans : Place → Category → List Span) (live foreign : Set Nat)
    (x : Nat) (h' : Heap) (spans' : Place → Category → List Span) : Prop where
  sound : h'.Sound spans' (live \ {x}) foreign
  rules : h.SameRules h'
  frames : h.Frames (live \ {x}) foreign h'
  free : x ∈ cachedIn spans' ∨ pageOffset x = 0 ∧ h'.table.get? x = none
  shrinks : usedBlocks spans' (live \ {x}) ⊆ usedBlocks spans live
  alike : Alike h.kernel.memory (usedBlocks spans live)
    h'.kernel.memory (usedBlocks spans' (live \ {x}))
  lost : ∀ y ∈ usedBlocks spans live, y ∉ usedBlocks spans' (live \ {x}) →
    ∃ c, IsBlock h.kernel.memory c x ∧ IsBlock h.kernel.memory c y

variable {h h' h'' : Heap} {spans spans' spans'' : Place → Category → List Span}
  {live foreign kept : Set Nat} {c : Category} {x n : Nat}

theorem Steady.preserves (hsteady : h.Steady spans live foreign h' spans') : h.Preserves live h' :=
  hsteady.frames.preserves

theorem Grants.preserves (hgrants : h.Grants spans live foreign x n h' spans') :
    h.Preserves live h' :=
  hgrants.frames.preserves

theorem Releases.preserves (hreleases : h.Releases spans live foreign x h' spans') :
    h.Preserves (live \ {x}) h' :=
  hreleases.frames.preserves

/-! ## Going on from there -/

theorem Preserves.isBlock (hpreserves : h.Preserves kept h') (hx : x ∈ kept)
    (hblock : IsBlock h.kernel.memory c x) : IsBlock h'.kernel.memory c x := by
  rcases (hpreserves x hx _ (.inr ⟨c, hblock, rfl⟩)).1 with ⟨hoffset, -⟩ | ⟨d, hblock', hsize⟩
  · exact absurd hoffset hblock.offset_ne
  · rwa [Category.blockSize_injective hsize]

/-- Where the lists have the same blocks, and the client too, the runs are as they were. -/
theorem Sound.alike (hsound : h.Sound spans live foreign) (hsound' : h'.Sound spans live foreign)
    (hpreserves : h.Preserves live h') :
    Alike h.kernel.memory (usedBlocks spans live) h'.kernel.memory (usedBlocks spans live) := by
  intro x hx _
  rcases hx with ⟨place, c, hx⟩ | ⟨hx, hoffset⟩
  · have hbefore := (hsound.holds place c).linked.shaped hx
    have hafter := (hsound'.holds place c).linked.shaped hx
    rw [hafter.category, hbefore.category]
  · obtain ⟨c, hbefore⟩ := hsound.marked.shaped x (.inr ⟨hx, hoffset⟩)
    rw [(hpreserves.isBlock hx hbefore).category, hbefore.category]

theorem Sound.steady (hsound : h.Sound spans live foreign) (hsound' : h'.Sound spans live foreign)
    (hrules : h.SameRules h') (hframes : h.Frames live foreign h') :
    h.Steady spans live foreign h' spans :=
  ⟨hsound', hrules, hframes, Set.Subset.refl _, hsound.alike hsound' hframes.preserves⟩

theorem Sound.steady_notes (hsound : h.Sound spans live foreign) (hnotes : h.Notes h') :
    h.Steady spans live foreign h' spans :=
  hsound.steady (hsound.congr hnotes.parts hnotes.ready) hnotes.rules
    (Frames.of_parts hnotes.parts live foreign)

theorem Sound.steady_self (hsound : h.Sound spans live foreign) :
    h.Steady spans live foreign h spans :=
  hsound.steady hsound (SameRules.refl h) (Frames.refl h live foreign)

theorem Steady.trans (first : h.Steady spans live foreign h' spans')
    (second : h'.Steady spans' live foreign h'' spans'') :
    h.Steady spans live foreign h'' spans'' :=
  ⟨second.sound, first.rules.trans second.rules, first.frames.trans second.frames,
    second.shrinks.trans first.shrinks, first.alike.trans second.alike second.shrinks⟩

theorem Notes.trans (first : h.Notes h') (second : h'.Notes h'') : h.Notes h'' :=
  ⟨first.parts.trans second.parts, first.ready.trans second.ready, first.rules.trans second.rules⟩

theorem Steady.notes (hsteady : h.Steady spans live foreign h' spans') (hnotes : h'.Notes h'') :
    h.Steady spans live foreign h'' spans' :=
  hsteady.trans (hsteady.sound.steady_notes hnotes)

theorem SameParts.largeHeap (hparts : h.SameParts h') : h'.largeHeap = h.largeHeap := by
  rw [Heap.largeHeap, Heap.largeHeap, hparts.kernel, hparts.supplier, hparts.table]

theorem Rests.notes (hrests : h.Rests spans live foreign h') (hnotes : h'.Notes h'') :
    h.Rests spans live foreign h'' := by
  refine ⟨?_, fun place => (hnotes.parts.caches place).trans (hrests.caches place),
    hrests.ready.trans hnotes.ready, hrests.rules.trans hnotes.rules⟩
  rw [hnotes.parts.largeHeap]
  exact hrests.large

theorem Sound.rests_self (hsound : h.Sound spans live foreign) : h.Rests spans live foreign h :=
  ⟨hsound.large.rests_self, fun _ => rfl, KeepsReady.refl h, SameRules.refl h⟩

theorem Steady.recycles (hsteady : h.Steady spans live foreign h' spans') :
    Recycles h.kernel.memory (usedBlocks spans live)
      h'.kernel.memory (usedBlocks spans' live) :=
  recycles_of_subset hsteady.shrinks hsteady.alike

theorem Releases.recycles (hreleases : h.Releases spans live foreign x h' spans') :
    Recycles h.kernel.memory (usedBlocks spans live)
      h'.kernel.memory (usedBlocks spans' (live \ {x})) :=
  recycles_of_subset hreleases.shrinks hreleases.alike

/-- The allocation that was granted may be filled. -/
theorem Grants.withMemory {m : Memory} (hgrants : h.Grants spans live foreign x n h' spans')
    (hsame : ∀ y, y ∉ bytesAt x n → m.byteAt y = h'.kernel.memory.byteAt y) :
    h.Grants spans live foreign x n (h'.withMemory m) spans' := by
  have hself : x ∈ insert x live := Set.mem_insert x live
  have hgone : bytesAt x n ⊆ h'.bodies (insert x live) := by
    rw [← hgrants.occupies.body_eq]
    exact fun y hy => ⟨x, hself, hy⟩
  have hheader : ∀ y ∈ usedBlocks spans' (insert x live),
      m.runCategory (pageOf y) = h'.kernel.memory.runCategory (pageOf y) :=
    fun y hy => hgrants.sound.runCategory_withMemory hgone hsame hy
  have hothers : ∀ y ∈ live, Disjoint (h'.body y) (bytesAt x n) := by
    intro y hy
    rw [← hgrants.occupies.body_eq]
    exact hgrants.sound.body_apart (Set.mem_insert_of_mem x hy) hself fun heq =>
      hgrants.fresh (heq ▸ hy)
  refine ⟨hgrants.sound.withMemory hgone hsame, ⟨hgrants.rules.build, hgrants.rules.held⟩,
    hgrants.frames.trans (hgrants.sound.frames_withMemory hgone hsame
      (Set.subset_insert x live) hothers), hgrants.fresh,
    hgrants.sound.occupies_withMemory hgone hsame hself hgrants.occupies,
    hgrants.recycles.of_headers hheader, fun y hy hnot => ?_⟩
  obtain ⟨c, hblock, hblock'⟩ := hgrants.opened y hy hnot
  exact ⟨c, hblock.of_runCategory (hheader x (.inr ⟨hself, hblock.offset_ne⟩)),
    hblock'.of_runCategory (hheader y hy)⟩

end Heap
end PagedHeap
