import PagedHeap.Proofs.Heap.Outcomes

/-!
# Large allocations of the process-wide heap

The large allocations are worked on with the pages of blocks in other hands.  So the blocks stay
as they are, in the caches and with the client, and only entries of the table come and go.
-/

namespace PagedHeap
namespace Heap

open SizeTable

variable {h h' : Heap} {spans : Place → Category → List Span} {live foreign : Set Nat} {x n : Nat}

theorem heldBlocks_insert (hoffset : pageOffset x = 0) (live : Set Nat) :
    heldBlocks (insert x live) = heldBlocks live := by
  ext y
  refine ⟨fun hy => ⟨hy.1.resolve_left fun heq => hy.2 (heq ▸ hoffset), hy.2⟩,
    fun hy => ⟨Set.mem_insert_of_mem x hy.1, hy.2⟩⟩

theorem heldBlocks_diff (hoffset : pageOffset x = 0) (live : Set Nat) :
    heldBlocks (live \ {x}) = heldBlocks live := by
  ext y
  refine ⟨fun hy => ⟨hy.1.1, hy.2⟩, fun hy => ⟨⟨hy.1, fun heq => hy.2 (heq ▸ hoffset)⟩, hy.2⟩⟩

theorem usedBlocks_congr {live' : Set Nat} (spans : Place → Category → List Span)
    (hheld : heldBlocks live' = heldBlocks live) :
    usedBlocks spans live' = usedBlocks spans live := by
  rw [usedBlocks, usedBlocks, hheld]

/-- The runs are as they were while the large allocations are worked on. -/
theorem alike_largePart {l : LargeHeap} {used kept : Set Nat}
    (hkeeps : h.largeHeap.paging.Keeps (kept ∪ (runBytes used ∪ foreign)) l.paging) :
    Alike h.kernel.memory used (largePart.write l h).kernel.memory used := by
  intro x hx _
  apply Memory.runCategory_congr
  intro y hy
  have hrun := reserved_subset_runBytes (m := h.kernel.memory) used (header_subset_reserved hx hy)
  exact hkeeps.byteAt y (.inr (.inl hrun))

/-- A page-aligned pointer is that of no block in a cache. -/
theorem Sound.offset_cached (hsound : h.Sound spans live foreign) (hx : x ∈ cachedIn spans) :
    pageOffset x ≠ 0 := by
  obtain ⟨place, hx⟩ := hx
  obtain ⟨c, hblock⟩ := hsound.shaped_cached hx
  exact hblock.offset_ne

theorem Sound.grants_large {l : LargeHeap} (hsound : h.Sound spans live foreign)
    (hplaces : h.largeHeap.Places (runBytes (usedBlocks spans live) ∪ foreign)
      ((pagesOf (usedBlocks spans live)).ncard * pageSize) h.table.get? x n l) :
    h.Grants spans live foreign x n (largePart.write l h) spans := by
  have hoffset : pageOffset x = 0 := hplaces.sound.spread.page_mod x n hplaces.get?_eq
  have hfresh : x ∉ live := by
    intro hin
    obtain ⟨size, hsize⟩ := (hsound.sizes x hoffset).1 hin
    rw [hplaces.fresh] at hsize
    exact absurd hsize (by simp)
  have hheld := heldBlocks_insert hoffset live
  have hsizes : ∀ y, pageOffset y = 0 →
      (y ∈ insert x live ↔ ∃ size, l.table.get? y = some size) := by
    intro y hy
    rw [hplaces.sizes_eq, Set.mem_insert_iff]
    by_cases heq : y = x
    · rw [heq, Function.update_self]
      exact ⟨fun _ => ⟨n, rfl⟩, fun _ => .inl rfl⟩
    · rw [Function.update_of_ne heq, ← hsound.sizes y hy]
      exact ⟨fun hin => hin.resolve_left heq, .inr⟩
  have hcached : ∀ y ∈ cachedIn spans, y ∉ insert x live := by
    intro y hy hin
    rcases Set.mem_insert_iff.1 hin with rfl | hin
    · exact hsound.offset_cached hy hoffset
    · exact hsound.cached_notMem y hy hin
  have hruns := hplaces.keeps.mono
    (Set.subset_union_left.trans (Set.subset_union_right (s := extent h.table.get?)))
  have hsound' := hsound.of_large hplaces.sound hruns hheld hsizes hcached
  have hused := usedBlocks_congr spans hheld
  refine ⟨hsound', ⟨rfl, rfl⟩, Frames.of_large (Set.Subset.refl live) hplaces.keeps
    (fun y hy => ⟨rfl, ?_⟩), hfresh, .inl ⟨hoffset, hplaces.get?_eq⟩, ?_, fun y hy hnot => ?_⟩
  · rw [hplaces.sizes_eq, Function.update_of_ne (ne_of_mem_of_not_mem hy hfresh)]
  · rw [hused]
    exact recycles_of_subset (Set.Subset.refl _) (alike_largePart hplaces.keeps)
  · rw [hused] at hy
    exact absurd hy hnot

/-- The large allocations were worked on, and are as they were. -/
theorem rests_large {l : LargeHeap}
    (hrests : h.largeHeap.Rests (runBytes (usedBlocks spans live) ∪ foreign)
      ((pagesOf (usedBlocks spans live)).ncard * pageSize) l) :
    h.Rests spans live foreign (largePart.write l h) :=
  ⟨hrests, cacheAt_largePart l h, KeepsReady.refl h, ⟨rfl, rfl⟩⟩

theorem Rests.steady (hrests : h.Rests spans live foreign h') (hsound : h.Sound spans live foreign) :
    h.Steady spans live foreign h' spans := by
  have hlarge := hrests.large
  have hruns := hlarge.keeps.mono
    (Set.subset_union_left.trans (Set.subset_union_right (s := extent h.table.get?)))
  have htable : h'.table = h.table := hlarge.table_eq
  have hsound' := hsound.of_large hlarge.sound hruns rfl
    (fun y hy => by
      rw [hlarge.table_eq]
      exact hsound.sizes y hy) hsound.cached_notMem
  have hframes := Frames.of_large (Set.Subset.refl live) hlarge.keeps fun y _ => ⟨rfl, by
    rw [hlarge.table_eq]
    rfl⟩
  -- The heap is that with its large allocations put back, but for what was written down.
  have hparts : (largePart.write h'.largeHeap h).SameParts h' :=
    ⟨rfl, rfl, rfl, fun place =>
      (hrests.caches place).trans (cacheAt_largePart h'.largeHeap h place).symm⟩
  exact (hsound.steady hsound' ⟨rfl, rfl⟩ hframes).notes ⟨hparts, hrests.ready, hrests.rules.build, hrests.rules.held⟩

theorem Sound.releases_large {l : LargeHeap} (hsound : h.Sound spans live foreign)
    (hoffset : pageOffset x = 0)
    (hfrees : h.largeHeap.Frees (runBytes (usedBlocks spans live) ∪ foreign)
      ((pagesOf (usedBlocks spans live)).ncard * pageSize) x l) :
    h.Releases spans live foreign x (largePart.write l h) spans := by
  have hheld := heldBlocks_diff hoffset live
  have hused := usedBlocks_congr spans hheld
  have hsizes : ∀ y, pageOffset y = 0 →
      (y ∈ live \ {x} ↔ ∃ size, l.table.get? y = some size) := by
    intro y hy
    rw [hfrees.sizes_eq]
    by_cases heq : y = x
    · rw [heq, Function.update_self]
      exact ⟨fun hin => absurd rfl hin.2, fun hsome => absurd hsome (by simp)⟩
    · rw [Function.update_of_ne heq]
      exact ⟨fun hin => (hsound.sizes y hy).1 hin.1, fun hsome =>
        ⟨(hsound.sizes y hy).2 hsome, heq⟩⟩
  have hruns := hfrees.keeps.mono (Set.subset_union_left.trans (Set.subset_union_right
    (s := extent (Function.update h.table.get? x none))))
  have hsound' := hsound.of_large hfrees.sound hruns hheld hsizes fun y hy hin =>
    hsound.cached_notMem y hy hin.1
  refine ⟨hsound', ⟨rfl, rfl⟩, Frames.of_large Set.sdiff_subset hfrees.keeps fun y hy => ?_,
    .inr ⟨hoffset, ?_⟩, ?_, ?_, fun y hy hnot => ?_⟩
  · rw [hfrees.sizes_eq]
    exact ⟨Function.update_of_ne hy.2 _ _, Function.update_of_ne hy.2 _ _⟩
  · exact (congrFun hfrees.sizes_eq x).trans (Function.update_self _ _ _)
  · rw [hused]
  · rw [hused]
    exact alike_largePart hfrees.keeps
  · rw [hused] at hnot
    exact absurd hy hnot

end Heap
end PagedHeap
