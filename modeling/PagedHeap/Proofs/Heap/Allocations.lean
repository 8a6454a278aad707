import PagedHeap.Proofs.Heap.Sound

/-!
# The bytes of an allocation

The pointer of a block tells its bytes by the header of its run, and that of a large allocation
by its entry in the table.  In a sound heap the allocations of the client share no byte with
each other or with what the allocator needs for itself.  So the client may store in them what it
likes, and what is done to one of them is nothing to the others.
-/

namespace PagedHeap
namespace Heap

open SizeTable

/-- The allocation at `x` has `n` bytes. -/
def Occupies (h : Heap) (x n : Nat) : Prop :=
  (pageOffset x = 0 ∧ h.table.get? x = some n) ∨
    ∃ c, IsBlock h.kernel.memory c x ∧ n = c.blockSize

/-- The bytes of the allocation at `x`. -/
def body (h : Heap) (x : Nat) : Set Nat := {y | ∃ n, h.Occupies x n ∧ y ∈ bytesAt x n}

/-- The bytes of some allocations. -/
def bodies (h : Heap) (live : Set Nat) : Set Nat := {y | ∃ x ∈ live, y ∈ h.body x}

/-- Some allocations are as large as they were and hold what they held. -/
def Preserves (h : Heap) (kept : Set Nat) (h' : Heap) : Prop :=
  ∀ x ∈ kept, ∀ n, h.Occupies x n → h'.Occupies x n ∧
    ∀ y ∈ bytesAt x n, h'.kernel.memory.byteAt y = h.kernel.memory.byteAt y

/-- Some allocations are preserved, and no call was directed at them or at what is foreign. -/
structure Frames (h : Heap) (kept foreign : Set Nat) (h' : Heap) : Prop where
  preserves : h.Preserves kept h'
  keeps : h.paging.Keeps (h.bodies kept ∪ foreign) h'.paging

variable {h h' h'' : Heap} {spans : Place → Category → List Span}
  {live live' kept foreign gone : Set Nat} {place : Place} {c : Category} {x y n : Nat}

theorem Occupies.unique {n' : Nat} (hn : h.Occupies x n) (hn' : h.Occupies x n') : n = n' := by
  rcases hn with ⟨hoffset, hsize⟩ | ⟨c, hblock, rfl⟩
  · rcases hn' with ⟨-, hsize'⟩ | ⟨c, hblock, -⟩
    · rw [hsize] at hsize'
      exact Option.some.inj hsize'
    · exact absurd hoffset hblock.offset_ne
  · rcases hn' with ⟨hoffset, -⟩ | ⟨d, hblock', rfl⟩
    · exact absurd hoffset hblock.offset_ne
    · rw [hblock.category_eq hblock' rfl]

theorem Occupies.body_eq (hn : h.Occupies x n) : h.body x = bytesAt x n := by
  ext y
  constructor
  · intro hy
    obtain ⟨n', hn', hy⟩ := hy
    rwa [hn.unique hn']
  · exact fun hy => ⟨n, hn, hy⟩

theorem isBlock_eq_true (hoffset : pageOffset x ≠ 0) : isBlock x = true := by
  simp [isBlock, hoffset]

theorem isBlock_eq_false (hoffset : pageOffset x = 0) : isBlock x = false := by
  simp [isBlock, hoffset]

/-- The usable size of an allocation is what it occupies. -/
theorem ensures_allocatedSize {post : Nat → Heap → Prop} {ends : Ending → Heap → Prop}
    (hn : h.Occupies x n) (hpost : post n h) :
    Action.Ensures (allocatedSize (some x)) h post ends := by
  rcases hn with ⟨hoffset, hsize⟩ | ⟨c, hblock, rfl⟩
  · have hlarge := isBlock_eq_false hoffset
    simp only [allocatedSize, hlarge, Bool.false_eq_true, if_false, onLarge, Action.ensures_within]
    exact LargeHeap.ensures_sizeOf hsize hpost
  · have hsmall := isBlock_eq_true hblock.offset_ne
    simp only [allocatedSize, hsmall, if_true, onKernel, Kernel.blockSize, Action.ensures_within,
      Action.ensures_bind, Action.ensures_pure]
    exact BlockHeap.ensures_blockCategory hblock hpost

/-! ## What is preserved -/

theorem Preserves.refl (h : Heap) (kept : Set Nat) : h.Preserves kept h :=
  fun _ _ _ hn => ⟨hn, fun _ _ => rfl⟩

theorem Preserves.trans (first : h.Preserves kept h') (second : h'.Preserves kept h'') :
    h.Preserves kept h'' := by
  intro x hx n hn
  obtain ⟨hn', hsame⟩ := first x hx n hn
  obtain ⟨hn'', hsame'⟩ := second x hx n hn'
  exact ⟨hn'', fun y hy => (hsame' y hy).trans (hsame y hy)⟩

theorem Preserves.mono {kept' : Set Nat} (hpreserves : h.Preserves kept h') (hsub : kept' ⊆ kept) :
    h.Preserves kept' h' :=
  fun x hx => hpreserves x (hsub hx)

theorem Preserves.of_parts (hparts : h.SameParts h') (kept : Set Nat) : h.Preserves kept h' := by
  intro x _ n hn
  rw [Occupies, hparts.kernel, hparts.table]
  exact ⟨hn, fun _ _ => rfl⟩

/-- Work on the cache at a place preserves what it leaves reserved. -/
theorem Preserves.of_receives {b : BlockHeap} (hreceives : h.Receives place b h')
    (hkeeps : (h.blocksAt place).paging.Keeps
      (reserved h.kernel.memory (elsewhere place spans live) ∪ h.beside foreign) b.paging) :
    h.Preserves live h' := by
  have hkernel : h'.kernel = b.paging.kernel :=
    congrArg (fun b : BlockHeap => b.paging.kernel) hreceives.blocks
  intro x hx n hn
  rw [Occupies, hkernel, hreceives.table]
  rcases hn with ⟨hoffset, hsize⟩ | ⟨c, hblock, rfl⟩
  · refine ⟨.inl ⟨hoffset, hsize⟩, fun y hy => hkeeps.byteAt y ?_⟩
    exact .inr (.inr (.inl (bytesAt_subset_extent hsize hy)))
  · have hheld : x ∈ elsewhere place spans live := .inr ⟨hx, hblock.offset_ne⟩
    refine ⟨.inr ⟨c, hblock.of_reserved hheld fun y hy => hkeeps.byteAt y (.inl hy), rfl⟩,
      fun y hy => hkeeps.byteAt y (.inl ?_)⟩
    exact body_subset_reserved hblock hheld hy

theorem mem_usedBlocks (spans : Place → Category → List Span) (hx : x ∈ live)
    (hblock : IsBlock h.kernel.memory c x) : x ∈ usedBlocks spans live :=
  .inr ⟨hx, hblock.offset_ne⟩

/-- Work on the large allocations preserves the blocks, and the entries that it leaves. -/
theorem Preserves.of_large {l : LargeHeap} {sizes : Nat → Option Nat} (hsub : kept ⊆ live)
    (hkeeps : h.largeHeap.paging.Keeps
      (extent sizes ∪ (runBytes (usedBlocks spans live) ∪ foreign)) l.paging)
    (hsizes : ∀ x ∈ kept, sizes x = h.table.get? x ∧ l.table.get? x = h.table.get? x) :
    h.Preserves kept (largePart.write l h) := by
  intro x hx n hn
  obtain ⟨hbefore, hafter⟩ := hsizes x hx
  rcases hn with ⟨hoffset, hsize⟩ | ⟨c, hblock, rfl⟩
  · refine ⟨.inl ⟨hoffset, hafter.trans hsize⟩, fun y hy => hkeeps.byteAt y (.inl ?_)⟩
    exact bytesAt_subset_extent (hbefore.trans hsize) hy
  · have hpage : bytesAt (pageOf x) pageSize ⊆ runBytes (usedBlocks spans live) :=
      pageBytes_subset_runBytes (mem_pagesOf (mem_usedBlocks spans (hsub hx) hblock))
    refine ⟨.inr ⟨c, hblock.congr fun y hy => ?_, rfl⟩, fun y hy => ?_⟩
    · have hheader : bytesAt (pageOf x) 4 ⊆ bytesAt (pageOf x) pageSize :=
        bytesAt_subset (Nat.le_refl _) (Nat.add_le_add_left (by decide) _)
      exact hkeeps.byteAt y (.inr (.inl (hpage (hheader hy))))
    · exact hkeeps.byteAt y (.inr (.inl (hpage (hblock.body_subset hy))))

theorem bodies_mono {kept' : Set Nat} (hsub : kept' ⊆ kept) : h.bodies kept' ⊆ h.bodies kept := by
  intro y hy
  obtain ⟨x, hx, hbody⟩ := hy
  exact ⟨x, hsub hx, hbody⟩

theorem Preserves.bodies_subset (hpreserves : h.Preserves kept h') :
    h.bodies kept ⊆ h'.bodies kept := by
  intro y hy
  obtain ⟨x, hx, n, hn, hbody⟩ := hy
  exact ⟨x, hx, n, (hpreserves x hx n hn).1, hbody⟩

theorem Frames.refl (h : Heap) (kept foreign : Set Nat) : h.Frames kept foreign h :=
  ⟨.refl h kept, .refl h.paging _⟩

theorem Frames.trans (first : h.Frames kept foreign h') (second : h'.Frames kept foreign h'') :
    h.Frames kept foreign h'' := by
  refine ⟨first.preserves.trans second.preserves, first.keeps.trans (second.keeps.mono ?_)⟩
  exact Set.union_subset_union_left foreign first.preserves.bodies_subset

theorem Frames.mono {kept' : Set Nat} (hframes : h.Frames kept foreign h') (hsub : kept' ⊆ kept) :
    h.Frames kept' foreign h' :=
  ⟨hframes.preserves.mono hsub,
    hframes.keeps.mono (Set.union_subset_union_left foreign (bodies_mono hsub))⟩

theorem Frames.of_parts (hparts : h.SameParts h') (kept foreign : Set Nat) :
    h.Frames kept foreign h' := by
  refine ⟨.of_parts hparts kept, ?_⟩
  rw [hparts.paging]
  exact .refl h.paging _

theorem Frames.of_receives {b : BlockHeap} (hreceives : h.Receives place b h')
    (hkeeps : (h.blocksAt place).paging.Keeps
      (reserved h.kernel.memory (elsewhere place spans live) ∪ h.beside foreign) b.paging) :
    h.Frames live foreign h' := by
  have hpaging : h'.paging = b.paging := congrArg BlockHeap.paging hreceives.blocks
  refine ⟨.of_receives hreceives hkeeps, ?_⟩
  rw [hpaging]
  refine hkeeps.mono (Set.union_subset (fun y hy => ?_) fun y hy => .inr (.inr (.inr hy)))
  obtain ⟨x, hx, n, hn, hbody⟩ := hy
  rcases hn with ⟨-, hsize⟩ | ⟨c, hblock, rfl⟩
  · exact .inr (.inr (.inl (bytesAt_subset_extent hsize hbody)))
  · exact .inl (body_subset_reserved hblock (.inr ⟨hx, hblock.offset_ne⟩) hbody)

theorem Frames.of_large {l : LargeHeap} {sizes : Nat → Option Nat} (hsub : kept ⊆ live)
    (hkeeps : h.largeHeap.paging.Keeps
      (extent sizes ∪ (runBytes (usedBlocks spans live) ∪ foreign)) l.paging)
    (hsizes : ∀ x ∈ kept, sizes x = h.table.get? x ∧ l.table.get? x = h.table.get? x) :
    h.Frames kept foreign (largePart.write l h) := by
  refine ⟨.of_large hsub hkeeps hsizes, hkeeps.mono (Set.union_subset (fun y hy => ?_) ?_)⟩
  · obtain ⟨x, hx, n, hn, hbody⟩ := hy
    rcases hn with ⟨-, hsize⟩ | ⟨c, hblock, rfl⟩
    · exact .inl (bytesAt_subset_extent ((hsizes x hx).1.trans hsize) hbody)
    · have hpage := mem_pagesOf (mem_usedBlocks spans (hsub hx) hblock)
      exact .inr (.inl (pageBytes_subset_runBytes hpage (hblock.body_subset hbody)))
  · exact Set.subset_union_right.trans Set.subset_union_right

/-! ## Allocations of a sound heap -/

/-- A pointer of the client is a block or a large allocation. -/
theorem Sound.occupies (hsound : h.Sound spans live foreign) (hx : x ∈ live) :
    ∃ n, 0 < n ∧ h.Occupies x n := by
  by_cases hoffset : pageOffset x = 0
  · obtain ⟨n, hsize⟩ := (hsound.sizes x hoffset).1 hx
    exact ⟨n, hsound.large.spread.size_pos x n hsize, .inl ⟨hoffset, hsize⟩⟩
  · obtain ⟨c, hblock⟩ := hsound.marked.shaped x (.inr ⟨hx, hoffset⟩)
    exact ⟨c.blockSize, c.blockSize_pos, .inr ⟨c, hblock, rfl⟩⟩

/-- The bytes of an allocation are in pages of blocks, but in no header, or in none of these. -/
theorem Sound.body_cases (hsound : h.Sound spans live foreign) (hx : x ∈ live) (hy : y ∈ h.body x) :
    (pageOf y ∈ pagesOf (usedBlocks spans live) ∧ pageOf y + minSize ≤ y) ∨
      (pageOf y ∉ pagesOf (usedBlocks spans live) ∧ y ∈ extent h.table.get?) := by
  obtain ⟨n, hn, hy⟩ := hy
  rcases hn with ⟨-, hsize⟩ | ⟨c, hblock, rfl⟩
  · have hextent : y ∈ extent h.table.get? := bytesAt_subset_extent hsize hy
    have hapart := (Set.disjoint_union_right.1 hsound.large.apart).1
    exact .inr ⟨fun hin => Set.disjoint_left.1 hapart hextent hin, hextent⟩
  · refine .inl ⟨?_, hblock.header_apart hy⟩
    rw [hblock.pageOf_of_mem_body hy]
    exact mem_pagesOf (mem_usedBlocks spans hx hblock)

/-- Two allocations share no byte. -/
theorem Sound.body_apart (hsound : h.Sound spans live foreign) (hx : x ∈ live) (hy : y ∈ live)
    (hne : x ≠ y) : Disjoint (h.body x) (h.body y) := by
  rw [Set.disjoint_left]
  intro z hz hz'
  have hpage := hsound.body_cases hx hz
  have hpage' := hsound.body_cases hy hz'
  obtain ⟨n, hn, hz⟩ := hz
  obtain ⟨n', hn', hz'⟩ := hz'
  rcases hn with ⟨-, hsize⟩ | ⟨c, hblock, rfl⟩
  · rcases hn' with ⟨-, hsize'⟩ | ⟨d, hblock', rfl⟩
    · exact Set.disjoint_left.1 (hsound.large.spread.apart x n y n' hsize hsize' hne) hz hz'
    · have hin := mem_pagesOf (mem_usedBlocks spans hy hblock')
      rw [← hblock'.pageOf_of_mem_body hz'] at hin
      have hapart := (Set.disjoint_union_right.1 hsound.large.apart).1
      exact Set.disjoint_left.1 hapart (bytesAt_subset_extent hsize hz) hin
  · rcases hn' with ⟨-, hsize'⟩ | ⟨d, hblock', rfl⟩
    · have hin := mem_pagesOf (mem_usedBlocks spans hx hblock)
      rw [← hblock.pageOf_of_mem_body hz] at hin
      have hapart := (Set.disjoint_union_right.1 hsound.large.apart).1
      exact Set.disjoint_left.1 hapart (bytesAt_subset_extent hsize' hz') hin
    · exact Set.disjoint_left.1 (hblock.body_apart hblock' hne) hz hz'

/-- No byte of an allocation is foreign. -/
theorem Sound.bodies_apart (hsound : h.Sound spans live foreign) :
    Disjoint (h.bodies live) foreign := by
  rw [Set.disjoint_left]
  intro y hy hin
  obtain ⟨x, hx, hbody⟩ := hy
  rcases hsound.body_cases hx hbody with ⟨hpage, -⟩ | ⟨-, hextent⟩
  · exact Set.disjoint_left.1 hsound.apart hpage hin
  · exact Set.disjoint_left.1 hsound.large.apart hextent (.inr hin)

/-- What is reserved for the blocks in the caches is in no allocation. -/
theorem Sound.reserved_apart (hsound : h.Sound spans live foreign) :
    Disjoint (reserved h.kernel.memory (cachedIn spans)) (h.bodies live) := by
  rw [Set.disjoint_left]
  intro y hy hin
  obtain ⟨x, hx, n, hn, hbody⟩ := hin
  rcases hn with ⟨-, hsize⟩ | ⟨c, hblock, rfl⟩
  · have hrun : y ∈ runBytes (usedBlocks spans live) :=
      runBytes_mono Set.subset_union_left (reserved_subset_runBytes _ hy)
    have hapart := (Set.disjoint_union_right.1 hsound.large.apart).1
    exact Set.disjoint_left.1 hapart (bytesAt_subset_extent hsize hbody) hrun
  · have hnot : x ∉ cachedIn spans := fun hin => hsound.cached_notMem x hin hx
    exact Set.disjoint_left.1 (reserved_apart_node hblock hnot) hy hbody

/-! ## Stores to allocations -/

/-- Another content of some bytes of memory. -/
def withMemory (h : Heap) (m : Memory) : Heap := { h with kernel := { h.kernel with memory := m } }

variable {m : Memory}

theorem Sound.header_notMem (hsound : h.Sound spans live foreign) (hgone : gone ⊆ h.bodies live)
    {page : Nat} (hpage : page ∈ pagesOf (usedBlocks spans live)) (hy : y ∈ bytesAt page 8) :
    y ∉ gone := by
  intro hin
  obtain ⟨x, hx, hbody⟩ := hgone hin
  obtain ⟨z, -, rfl⟩ := id hpage
  have hself := pageOf_of_mem (pageOf_mod z) (by decide) hy
  rcases hsound.body_cases hx hbody with ⟨-, hlow⟩ | ⟨hnot, -⟩
  · rw [hself] at hlow
    simp only [mem_bytesAt, minSize] at hy hlow
    omega
  · rw [hself] at hnot
    exact hnot hpage

/-- The client may store what it likes in its allocations. -/
theorem Sound.withMemory (hsound : h.Sound spans live foreign) (hgone : gone ⊆ h.bodies live)
    (hsame : ∀ y, y ∉ gone → m.byteAt y = h.kernel.memory.byteAt y) :
    (h.withMemory m).Sound spans live foreign := by
  have hout : gone ⊆ h.table.storageBytes ∪
      (extent h.table.get? ∪ (runBytes (usedBlocks spans live) ∪ foreign)) := by
    intro y hy
    obtain ⟨x, hx, hbody⟩ := hgone hy
    rcases hsound.body_cases hx hbody with ⟨hpage, -⟩ | ⟨-, hextent⟩
    · exact .inr (.inr (.inl hpage))
    · exact .inr (.inl hextent)
  obtain ⟨hpaging, -⟩ := hsound.large.paging.rewrites_by (fun _ => m) hout hsame
  refine ⟨hsound.large.repage hsound.large.out_apart hpaging, hsound.apart, ?_, fun place c => ?_,
    hsound.distinct, hsound.cached_notMem, hsound.sizes, hsound.idle⟩
  · exact hsound.marked.congr fun page hpage y hy => hsame y (hsound.header_notMem hgone hpage hy)
  · have hcached : ∀ x ∈ blocksOf c (spans place c), x ∈ cachedIn spans :=
      fun x hx => ⟨place, c, hx⟩
    exact (hsound.holds place c).congr hcached fun y hy => hsame y fun hin =>
      Set.disjoint_left.1 hsound.reserved_apart hy (hgone hin)

/-- A store to some allocations leaves the runs as they were. -/
theorem Sound.runCategory_withMemory (hsound : h.Sound spans live foreign)
    (hgone : gone ⊆ h.bodies live)
    (hsame : ∀ y, y ∉ gone → m.byteAt y = h.kernel.memory.byteAt y)
    (hx : x ∈ usedBlocks spans live) :
    m.runCategory (pageOf x) = h.kernel.memory.runCategory (pageOf x) := by
  apply Memory.runCategory_congr
  intro y hy
  have hheader : bytesAt (pageOf x) 4 ⊆ bytesAt (pageOf x) 8 :=
    bytesAt_subset (Nat.le_refl _) (Nat.add_le_add_left (by decide) _)
  exact hsame y (hsound.header_notMem hgone (mem_pagesOf hx) (hheader hy))

/-- A store to some allocations leaves all of them as large as they were. -/
theorem Sound.occupies_withMemory (hsound : h.Sound spans live foreign)
    (hgone : gone ⊆ h.bodies live)
    (hsame : ∀ y, y ∉ gone → m.byteAt y = h.kernel.memory.byteAt y) (hx : x ∈ live)
    (hn : h.Occupies x n) : (h.withMemory m).Occupies x n := by
  rcases hn with hlarge | ⟨c, hblock, rfl⟩
  · exact .inl hlarge
  · have hcategory := hsound.runCategory_withMemory hgone hsame (mem_usedBlocks spans hx hblock)
    exact .inr ⟨c, hblock.of_runCategory hcategory, rfl⟩

/-- A store preserves the allocations that it does not touch. -/
theorem Sound.preserves_withMemory (hsound : h.Sound spans live foreign)
    (hgone : gone ⊆ h.bodies live)
    (hsame : ∀ y, y ∉ gone → m.byteAt y = h.kernel.memory.byteAt y) (hsub : kept ⊆ live)
    (hapart : ∀ x ∈ kept, Disjoint (h.body x) gone) : h.Preserves kept (h.withMemory m) :=
  fun x hx n hn => ⟨hsound.occupies_withMemory hgone hsame (hsub hx) hn, fun y hy =>
    hsame y fun hin => Set.disjoint_left.1 (hapart x hx) ⟨n, hn, hy⟩ hin⟩

theorem Sound.frames_withMemory (hsound : h.Sound spans live foreign)
    (hgone : gone ⊆ h.bodies live)
    (hsame : ∀ y, y ∉ gone → m.byteAt y = h.kernel.memory.byteAt y) (hsub : kept ⊆ live)
    (hapart : ∀ x ∈ kept, Disjoint (h.body x) gone) :
    h.Frames kept foreign (h.withMemory m) := by
  refine ⟨hsound.preserves_withMemory hgone hsame hsub hapart,
    .of_store fun y hy => hsame y fun hin => ?_⟩
  rcases hy with ⟨x, hx, hbody⟩ | hforeign
  · exact Set.disjoint_left.1 (hapart x hx) hbody hin
  · exact Set.disjoint_left.1 hsound.bodies_apart (hgone hin) hforeign

end Heap
end PagedHeap
