import PagedHeap.Proofs.Block.Cache
import PagedHeap.Proofs.Heap.Lending
import PagedHeap.Proofs.Large.Operations

/-!
# When the heap is sound

The pointers of the client are blocks and large allocations.  The large ones are those with an
entry in the table, and a block is with the client or in one list of one cache.  What is left
of the bytes out of the supplier's hands is `foreign`: the allocator has never had it, or has
given it back.

The layers below see their parts of this, each with what the others have as the rest.
-/

namespace PagedHeap

/-- Beside large allocations there are blocks to be worked on. -/
theorem LargeHeap.Sound.pool {l : LargeHeap} {used rest : Set Nat} {n : Nat}
    (h : l.Sound (runBytes used ∪ rest) ((pagesOf used).ncard * pageSize + n))
    (hapart : Disjoint (runBytes used) rest) (hmarked : Marked l.paging.kernel.memory used) :
    Pool l.paging used (l.table.storageBytes ∪ (SizeTable.extent l.table.get? ∪ rest))
      (l.table.total + n) := by
  have hextent := Set.disjoint_union_right.1 h.apart
  have hstorage := Set.disjoint_union_right.1 (Set.disjoint_union_right.1 h.storage_apart).2
  have hpaging := h.paging
  rw [Set.union_left_comm (SizeTable.extent l.table.get?), Set.union_left_comm,
    Nat.add_left_comm] at hpaging
  refine ⟨hpaging, Set.disjoint_union_right.2 ⟨hstorage.1.symm, ?_⟩, hmarked⟩
  exact Set.disjoint_union_right.2 ⟨hextent.1.symm, hapart⟩

/-- Where blocks were worked on beside large allocations, those are sound with other blocks in
use. -/
theorem LargeHeap.Sound.of_pool {l : LargeHeap} {p : Paging} {used used' rest : Set Nat}
    {lent n : Nat} (h : l.Sound (runBytes used ∪ rest) lent)
    (hpool : Pool p used' (l.table.storageBytes ∪ (SizeTable.extent l.table.get? ∪ rest))
      (l.table.total + n)) :
    LargeHeap.Sound ⟨p, l.table⟩ (runBytes used' ∪ rest) ((pagesOf used').ncard * pageSize + n) ∧
      Disjoint (runBytes used') rest := by
  obtain ⟨hstorage, hothers⟩ := Set.disjoint_union_right.1 hpool.apart
  obtain ⟨hextent, hrest⟩ := Set.disjoint_union_right.1 hothers
  have hold := Set.disjoint_union_right.1 h.apart
  have hold' := Set.disjoint_union_right.1 h.storage_apart
  have hold'' := Set.disjoint_union_right.1 hold'.2
  have hapart := Set.disjoint_union_right.2 ⟨hextent.symm, hold.2⟩
  have hstorage' := Set.disjoint_union_right.2 ⟨hstorage.symm, hold''.2⟩
  refine ⟨⟨h.table, h.spread, h.storage_eq_zero, h.storage_mod, hapart,
    Set.disjoint_union_right.2 ⟨hold'.1, hstorage'⟩, ?_⟩, hrest⟩
  have hpaging := hpool.paging
  rw [Set.union_left_comm, Set.union_left_comm (runBytes used')] at hpaging
  rwa [Nat.add_left_comm] at hpaging

/-- Where no block was handed out beside large allocations, those are as they were. -/
theorem LargeHeap.Sound.rests_of_blocks {l : LargeHeap} {used rest : Set Nat} {n : Nat}
    {b b' : BlockHeap} (h : l.Sound (runBytes used ∪ rest) ((pagesOf used).ncard * pageSize + n))
    (hpaging : b.paging = l.paging)
    (hrests : b.Rests used (l.table.storageBytes ∪ (SizeTable.extent l.table.get? ∪ rest))
      (l.table.total + n) b') :
    l.Rests (runBytes used ∪ rest) ((pagesOf used).ncard * pageSize + n)
      { l with paging := b'.paging } := by
  obtain ⟨hsound, hspares, -⟩ := hrests
  rw [Set.union_left_comm, Set.union_left_comm (runBytes used)] at hsound hspares
  rw [Nat.add_left_comm] at hsound
  rw [hpaging] at hspares
  exact h.rests hspares hsound

namespace Heap

open SizeTable

/-- The blocks in the caches at all places. -/
def cachedIn (spans : Place → Category → List Span) : Set Nat :=
  blocksOfAll (fun _ => BlockHeap.cachedBlocks) spans

/-- The blocks in the caches at all places but one. -/
def cachedOff (place : Place) (spans : Place → Category → List Span) : Set Nat :=
  blocksBeside (fun _ => BlockHeap.cachedBlocks) place spans

/-- The blocks among some pointers. -/
def heldBlocks (live : Set Nat) : Set Nat := {x ∈ live | pageOffset x ≠ 0}

/-- The blocks that have not come home. -/
def usedBlocks (spans : Place → Category → List Span) (live : Set Nat) : Set Nat :=
  cachedIn spans ∪ heldBlocks live

/-- A thread that is not ready has nothing in its cache. -/
def Idle (h : Heap) (spans : Place → Category → List Span) : Prop :=
  ∀ t, (h.thread t).status ≠ .ready → spans (.thread t) = fun _ => []

/-- The heap is sound, with the pointers `live` in the hands of the client. -/
structure Sound (h : Heap) (spans : Place → Category → List Span) (live foreign : Set Nat) :
    Prop where
  large : h.largeHeap.Sound (runBytes (usedBlocks spans live) ∪ foreign)
    ((pagesOf (usedBlocks spans live)).ncard * pageSize)
  apart : Disjoint (runBytes (usedBlocks spans live)) foreign
  marked : Marked h.kernel.memory (usedBlocks spans live)
  holds : ∀ place c, Holds h.kernel.memory c ((h.cacheAt place).list c) (spans place c)
  distinct : ∀ place other x, x ∈ BlockHeap.cachedBlocks (spans place) →
    x ∈ BlockHeap.cachedBlocks (spans other) → place = other
  cached_notMem : ∀ x ∈ cachedIn spans, x ∉ live
  sizes : ∀ x, pageOffset x = 0 → (x ∈ live ↔ ∃ size, h.table.get? x = some size)
  idle : h.Idle spans

variable {h h' : Heap} {spans : Place → Category → List Span} {live live' foreign : Set Nat}
  {place : Place}

theorem cachedIn_eq (place : Place) (spans : Place → Category → List Span) :
    cachedIn spans = BlockHeap.cachedBlocks (spans place) ∪ cachedOff place spans :=
  blocksOfAll_eq (fun _ => BlockHeap.cachedBlocks) place spans

theorem cachedIn_update (place : Place) (spans : Place → Category → List Span)
    (new : Category → List Span) :
    cachedIn (Function.update spans place new) =
      BlockHeap.cachedBlocks new ∪ cachedOff place spans :=
  blocksOfAll_update (fun _ => BlockHeap.cachedBlocks) place spans new

theorem cachedOff_subset (place : Place) (spans : Place → Category → List Span) :
    cachedOff place spans ⊆ cachedIn spans :=
  blocksBeside_subset (fun _ => BlockHeap.cachedBlocks) place spans

theorem Idle.mono (hidle : h.Idle spans) (hready : h.KeepsReady h') : h'.Idle spans :=
  fun t hne => hidle t (hready t hne)

/-- After an operation on the cache at a place. -/
theorem Idle.served {b : BlockHeap} (hidle : h.Idle spans) (hserved : h.Served place b h')
    (new : Category → List Span) : h'.Idle (Function.update spans place new) := by
  intro t hne
  have hother : .thread t ≠ place := fun hplace => hne (hserved.own t hplace.symm)
  rw [Function.update_of_ne hother]
  exact hidle t (hserved.ready t hne)

theorem Sound.congr (hsound : h.Sound spans live foreign) (hparts : h.SameParts h')
    (hready : h.KeepsReady h') : h'.Sound spans live foreign := by
  have hlarge : h'.largeHeap = h.largeHeap := by
    rw [largeHeap, largeHeap, hparts.kernel, hparts.supplier, hparts.table]
  refine ⟨?_, hsound.apart, ?_, fun place c => ?_, hsound.distinct, hsound.cached_notMem, ?_,
    hsound.idle.mono hready⟩
  · rw [hlarge]
    exact hsound.large
  · rw [hparts.kernel]
    exact hsound.marked
  · rw [hparts.kernel, hparts.caches]
    exact hsound.holds place c
  · rw [hparts.table]
    exact hsound.sizes

/-- A block in a cache is a block of the category of its list. -/
theorem Sound.shaped_cached (hsound : h.Sound spans live foreign) {x : Nat}
    (hx : x ∈ BlockHeap.cachedBlocks (spans place)) : ∃ c, IsBlock h.kernel.memory c x := by
  obtain ⟨c, hx⟩ := hx
  exact ⟨c, (hsound.holds place c).linked.shaped hx⟩

/-! ## Blocks -/

/-- What is out of the supplier's hands, and no page of blocks. -/
def beside (h : Heap) (foreign : Set Nat) : Set Nat :=
  h.table.storageBytes ∪ (extent h.table.get? ∪ foreign)

/-- The blocks that the cache at a place leaves alone. -/
def elsewhere (place : Place) (spans : Place → Category → List Span) (live : Set Nat) : Set Nat :=
  cachedOff place spans ∪ heldBlocks live

theorem usedBlocks_eq (place : Place) (spans : Place → Category → List Span) (live : Set Nat) :
    usedBlocks spans live =
      BlockHeap.cachedBlocks (spans place) ∪ elsewhere place spans live := by
  rw [usedBlocks, cachedIn_eq place, Set.union_assoc]
  rfl

theorem usedBlocks_update (place : Place) (spans : Place → Category → List Span)
    (new : Category → List Span) (live : Set Nat) :
    usedBlocks (Function.update spans place new) live =
      BlockHeap.cachedBlocks new ∪ elsewhere place spans live := by
  rw [usedBlocks, cachedIn_update, Set.union_assoc]
  rfl

/-- The cache at a place is sound, with the blocks of the others and of the client elsewhere. -/
theorem Sound.blocks (hsound : h.Sound spans live foreign) (place : Place) :
    (h.blocksAt place).Sound (spans place) (elsewhere place spans live) (h.beside foreign)
      h.table.total := by
  have hlarge := hsound.large
  rw [← Nat.add_zero ((pagesOf _).ncard * pageSize)] at hlarge
  have hpool := hlarge.pool hsound.apart hsound.marked
  rw [usedBlocks_eq place, Nat.add_zero] at hpool
  refine ⟨hpool, hsound.holds place, fun x hx hin => ?_⟩
  rcases hin with ⟨other, hne, hin⟩ | hin
  · exact hne (hsound.distinct other place x hin hx)
  · exact hsound.cached_notMem x ⟨place, hx⟩ hin.1

/-- The large allocations are sound with other blocks in use. -/
theorem Sound.large_of_pool {p : Paging} {used : Set Nat} (hsound : h.Sound spans live foreign)
    (hpool : Pool p used (h.beside foreign) h.table.total) :
    LargeHeap.Sound ⟨p, h.table⟩ (runBytes used ∪ foreign) ((pagesOf used).ncard * pageSize) ∧
      Disjoint (runBytes used) foreign := by
  rw [← Nat.add_zero h.table.total] at hpool
  have hlarge := hsound.large.of_pool hpool
  rwa [Nat.add_zero] at hlarge

/-- After work on the cache at a place. -/
theorem Sound.of_receives {b : BlockHeap} {new : Category → List Span}
    (hsound : h.Sound spans live foreign) (hreceives : h.Receives place b h')
    (hblocks : b.Sound new (elsewhere place spans live') (h.beside foreign) h.table.total)
    (hkeeps : (h.blocksAt place).paging.Keeps
      (reserved h.kernel.memory (cachedOff place spans) ∪ h.beside foreign) b.paging)
    (hpages : ∀ x, pageOffset x = 0 → (x ∈ live' ↔ x ∈ live))
    (hothers : ∀ x ∈ cachedOff place spans, x ∉ live')
    (hidle : h'.Idle (Function.update spans place new)) :
    h'.Sound (Function.update spans place new) live' foreign := by
  obtain ⟨hpool, hholds, hapart⟩ := hblocks
  have hcached : ∀ x ∈ BlockHeap.cachedBlocks new, pageOffset x ≠ 0 := by
    intro x hx
    obtain ⟨c, hx⟩ := hx
    exact ((hholds c).linked.shaped hx).offset_ne
  have hkernel : h'.kernel = b.paging.kernel :=
    congrArg (fun b : BlockHeap => b.paging.kernel) hreceives.blocks
  have hsupplier : h'.supplier = b.paging.supplier :=
    congrArg (fun b : BlockHeap => b.paging.supplier) hreceives.blocks
  have hcache : h'.cacheAt place = b.cache := congrArg BlockHeap.cache hreceives.blocks
  have hlarge : h'.largeHeap = ⟨b.paging, h.table⟩ := by
    rw [largeHeap, hkernel, hsupplier, hreceives.table]
  rw [← usedBlocks_update] at hpool
  obtain ⟨hsound', hforeign⟩ := hsound.large_of_pool hpool
  refine ⟨?_, hforeign, ?_, fun other c => ?_, distinct_update hsound.distinct fun x hx hin =>
    hapart x hx (.inl hin), fun x hx => ?_, fun x hoffset => ?_, hidle⟩
  · rwa [hlarge]
  · rw [hkernel]
    exact hpool.marked
  · rw [hkernel]
    by_cases hother : other = place
    · subst hother
      rw [hcache, Function.update_self]
      exact hholds c
    · rw [hreceives.others other hother, Function.update_of_ne hother]
      have hmine : ∀ x ∈ blocksOf c (spans other c), x ∈ cachedOff place spans :=
        fun x hx => ⟨other, hother, c, hx⟩
      exact (hsound.holds other c).congr hmine fun y hy => hkeeps.byteAt y (.inl hy)
  · rw [cachedIn_update] at hx
    rcases hx with hx | hx
    · exact fun hin => hapart x hx (.inr ⟨hin, hcached x hx⟩)
    · exact hothers x hx
  · rw [hreceives.table, hpages x hoffset]
    exact hsound.sizes x hoffset

/-! ## Large allocations -/

/-- The caches are no part of the large allocations. -/
theorem cacheAt_largePart (l : LargeHeap) (h : Heap) (place : Place) :
    (largePart.write l h).cacheAt place = h.cacheAt place := by
  cases place with
  | fallback => rfl
  | thread t => rfl

/-- After work on the large allocations. -/
theorem Sound.of_large {l : LargeHeap} (hsound : h.Sound spans live foreign)
    (hl : l.Sound (runBytes (usedBlocks spans live) ∪ foreign)
      ((pagesOf (usedBlocks spans live)).ncard * pageSize))
    (hkeeps : h.largeHeap.paging.Keeps (runBytes (usedBlocks spans live)) l.paging)
    (hheld : heldBlocks live' = heldBlocks live)
    (hsizes : ∀ x, pageOffset x = 0 → (x ∈ live' ↔ ∃ size, l.table.get? x = some size))
    (hnew : ∀ x ∈ cachedIn spans, x ∉ live') :
    (largePart.write l h).Sound spans live' foreign := by
  have hused : usedBlocks spans live' = usedBlocks spans live := by
    rw [usedBlocks, hheld]
    rfl
  refine ⟨?_, ?_, ?_, fun place c => ?_, hsound.distinct, hnew, hsizes, hsound.idle⟩
  · rw [hused]
    exact hl
  · rw [hused]
    exact hsound.apart
  · rw [hused]
    exact hsound.marked.of_keeps hkeeps
  · have hmine : ∀ x ∈ blocksOf c (spans place c), x ∈ usedBlocks spans live :=
      fun x hx => .inl ⟨place, c, hx⟩
    rw [cacheAt_largePart]
    exact (hsound.holds place c).congr hmine fun y hy =>
      hkeeps.byteAt y (reserved_subset_runBytes _ hy)

/-! ## At the start -/

theorem usedBlocks_empty : usedBlocks (fun _ _ => []) ∅ = ∅ := by
  ext x
  refine ⟨fun hx => ?_, fun hx => absurd hx (Set.notMem_empty x)⟩
  rcases hx with ⟨place, c, hx⟩ | hx
  · exact absurd hx List.not_mem_nil
  · exact hx.1

/-- Nothing is used at the start, and all that is in use is foreign. -/
theorem sound_new (build : Build) {k : Kernel} (hvalid : k.Valid) :
    (new build k).Sound (fun _ _ => []) ∅ k.inUse := by
  have hused := usedBlocks_empty
  refine ⟨?_, ?_, ?_, fun place c => ?_, fun _ _ x hx => ?_, ?_, fun x _ => ⟨?_, ?_⟩,
    fun _ _ => rfl⟩
  · rw [hused, runBytes_empty, pagesOf_empty, Set.empty_union, Set.ncard_empty, Nat.zero_mul]
    exact LargeHeap.sound_new build.pageConfig hvalid
  · rw [hused, runBytes_empty]
    exact Set.empty_disjoint _
  · rw [hused]
    exact marked_empty _
  · have hcache : (new build k).cacheAt place = .empty := by
      cases place with
      | fallback => rfl
      | thread t => rfl
    rw [hcache]
    exact holds_empty c
  · obtain ⟨c, hx⟩ := hx
    exact absurd hx List.not_mem_nil
  · intro x hx
    obtain ⟨place, c, hx⟩ := hx
    exact absurd hx List.not_mem_nil
  · exact fun hx => absurd hx (Set.notMem_empty x)
  · intro hsize
    obtain ⟨size, hsize⟩ := hsize
    simp [new] at hsize

end Heap
end PagedHeap
