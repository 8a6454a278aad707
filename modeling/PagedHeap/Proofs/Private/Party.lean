import PagedHeap.Proofs.Heap.Counting
import PagedHeap.Proofs.Heap.Footprint

/-!
# Private suppliers

A supplier apart from the process-wide heap has clients of its own.  It hands out pages, there
are large allocations on it, with a table for their sizes, and caches of blocks work on it.

The party of such a supplier is sound if each of these finds the bytes that it lent where it left
them.  As in the heap, the layers see their own parts, and have the parts of the others as the
rest.
-/

namespace PagedHeap

/-- A private supplier at work, with its table and the caches of blocks that work on it. -/
structure Party where
  paging : Paging
  table : SizeTable
  caches : Nat → BlockCache

namespace Party

open SizeTable

/-- The memory of the kernel. -/
def memory (n : Party) : Memory := n.paging.kernel.memory

/-- The large allocations. -/
def largeHeap (n : Party) : LargeHeap := ⟨n.paging, n.table⟩

/-- The blocks, on one of the caches. -/
def blockHeap (n : Party) (i : Nat) : BlockHeap := ⟨n.paging, n.caches i⟩

/-- The blocks in all caches. -/
def cachedIn (spans : Nat → Category → List Span) : Set Nat :=
  blocksOfAll (fun _ => BlockHeap.cachedBlocks) spans

/-- The blocks in all caches but one. -/
def cachedOff (i : Nat) (spans : Nat → Category → List Span) : Set Nat :=
  blocksBeside (fun _ => BlockHeap.cachedBlocks) i spans

/-- What is out of the supplier's hands, and no page of blocks. -/
def beside (n : Party) (pages foreign : Set Nat) : Set Nat :=
  n.table.storageBytes ∪ (extent n.table.get? ∪ (pages ∪ foreign))

/-- The party is sound, with some blocks and the bytes of some pages in the hands of its clients.
The supplier has lent these pages besides large allocations and runs. -/
structure Sound (n : Party) (spans : Nat → Category → List Span)
    (blocks pages foreign : Set Nat) : Prop where
  large : n.largeHeap.Sound (runBytes (cachedIn spans ∪ blocks) ∪ (pages ∪ foreign))
    ((pagesOf (cachedIn spans ∪ blocks)).ncard * pageSize + pages.ncard)
  apart : Disjoint (runBytes (cachedIn spans ∪ blocks)) (pages ∪ foreign)
  pages_apart : Disjoint pages foreign
  marked : Marked n.memory (cachedIn spans ∪ blocks)
  holds : ∀ i c, Holds n.memory c ((n.caches i).list c) (spans i c)
  distinct : ∀ i j x, x ∈ BlockHeap.cachedBlocks (spans i) → x ∈ BlockHeap.cachedBlocks (spans j) →
    i = j
  cached_notMem : ∀ x ∈ cachedIn spans, x ∉ blocks

variable {n : Party} {spans : Nat → Category → List Span}
  {blocks blocks' pages pages' foreign gone : Set Nat} {i x y : Nat} {c : Category}

theorem cachedIn_eq (i : Nat) (spans : Nat → Category → List Span) :
    cachedIn spans = BlockHeap.cachedBlocks (spans i) ∪ cachedOff i spans :=
  blocksOfAll_eq (fun _ => BlockHeap.cachedBlocks) i spans

theorem cachedIn_update (i : Nat) (spans : Nat → Category → List Span)
    (new : Category → List Span) :
    cachedIn (Function.update spans i new) = BlockHeap.cachedBlocks new ∪ cachedOff i spans :=
  blocksOfAll_update (fun _ => BlockHeap.cachedBlocks) i spans new

theorem cachedOff_subset (i : Nat) (spans : Nat → Category → List Span) :
    cachedOff i spans ⊆ cachedIn spans :=
  blocksBeside_subset (fun _ => BlockHeap.cachedBlocks) i spans

/-! ## The supplier -/

/-- What is out of the supplier's hands besides pages of its clients. -/
def apartFromPages (n : Party) (spans : Nat → Category → List Span) (blocks foreign : Set Nat) :
    Set Nat :=
  n.table.storageBytes ∪ (extent n.table.get? ∪ (runBytes (cachedIn spans ∪ blocks) ∪ foreign))

theorem union_apartFromPages (n : Party) (spans : Nat → Category → List Span)
    (blocks pages foreign : Set Nat) :
    n.table.storageBytes ∪
        (extent n.table.get? ∪ (runBytes (cachedIn spans ∪ blocks) ∪ (pages ∪ foreign))) =
      n.apartFromPages spans blocks foreign ∪ pages := by
  rw [apartFromPages, Set.union_comm pages, Set.union_assoc, Set.union_assoc, Set.union_assoc]

theorem Sound.paging (h : n.Sound spans blocks pages foreign) :
    n.paging.Sound (n.apartFromPages spans blocks foreign ∪ pages)
      (n.table.total + (pagesOf (cachedIn spans ∪ blocks)).ncard * pageSize + pages.ncard) := by
  rw [← union_apartFromPages, Nat.add_assoc]
  exact h.large.paging

theorem Sound.apartFromPages_apart (h : n.Sound spans blocks pages foreign) :
    Disjoint (n.apartFromPages spans blocks foreign) pages := by
  have hextent := Set.disjoint_union_right.1 h.large.apart
  have hstorage := Set.disjoint_union_right.1 (Set.disjoint_union_right.1 h.large.storage_apart).2
  have hpages : ∀ {part : Set Nat}, Disjoint part (pages ∪ foreign) → Disjoint part pages :=
    fun hpart => hpart.mono_right Set.subset_union_left
  exact Set.disjoint_union_left.2 ⟨hpages hstorage.2, Set.disjoint_union_left.2
    ⟨hpages hextent.2, Set.disjoint_union_left.2 ⟨hpages h.apart, h.pages_apart.symm⟩⟩⟩

/-- The clients have other pages. -/
theorem Sound.repage {p : Paging} {parted : Prop} (h : n.Sound spans blocks pages foreign)
    (hpaging : p.Sound (n.apartFromPages spans blocks foreign ∪ pages')
      (n.table.total + (pagesOf (cachedIn spans ∪ blocks)).ncard * pageSize + pages'.ncard))
    (hapart : Disjoint (n.apartFromPages spans blocks foreign) pages')
    (hkeeps : n.paging.Keeps (n.apartFromPages spans blocks foreign) p parted) :
    ({ n with paging := p } : Party).Sound spans blocks pages' foreign := by
  have hlarge := h.large
  obtain ⟨hstorage, hrest⟩ := Set.disjoint_union_left.1 hapart
  obtain ⟨hextent, hrest⟩ := Set.disjoint_union_left.1 hrest
  obtain ⟨hruns, hforeign⟩ := Set.disjoint_union_left.1 hrest
  have hextent' := Set.disjoint_union_right.1 hlarge.apart
  have hstorage' := Set.disjoint_union_right.1 hlarge.storage_apart
  have hstorage'' := Set.disjoint_union_right.1 hstorage'.2
  -- Each part was apart from what is foreign before.
  have hboth : ∀ {part : Set Nat}, Disjoint part pages' → Disjoint part (pages ∪ foreign) →
      Disjoint part (pages' ∪ foreign) := fun hnew hold =>
    Set.disjoint_union_right.2 ⟨hnew, hold.mono_right Set.subset_union_right⟩
  have hbytes : ∀ y ∈ runBytes (cachedIn spans ∪ blocks), p.byteAt y = n.paging.byteAt y :=
    fun y hy => hkeeps.byteAt y (.inr (.inr (.inl hy)))
  refine ⟨⟨hlarge.table, hlarge.spread, hlarge.storage_eq_zero, hlarge.storage_mod, ?_, ?_, ?_⟩,
    hboth hruns h.apart, hforeign.symm, ?_, fun i c => ?_, h.distinct, h.cached_notMem⟩
  · exact Set.disjoint_union_right.2 ⟨hextent'.1, hboth hextent hextent'.2⟩
  · exact Set.disjoint_union_right.2 ⟨hstorage'.1,
      Set.disjoint_union_right.2 ⟨hstorage''.1, hboth hstorage hstorage''.2⟩⟩
  · rw [Nat.add_assoc] at hpaging
    exact (union_apartFromPages n spans blocks pages' foreign).symm ▸ hpaging
  · exact h.marked.congr fun page hpage y hy => hbytes y (pageBytes_subset_runBytes hpage
      (bytesAt_subset (Nat.le_refl _) (Nat.add_le_add_left (by decide) _) hy))
  · have hmine : ∀ x ∈ blocksOf c (spans i c), x ∈ cachedIn spans ∪ blocks :=
      fun x hx => .inl ⟨i, c, hx⟩
    exact (h.holds i c).congr hmine fun y hy => hbytes y (reserved_subset_runBytes _ hy)

/-! ## Blocks -/

/-- The blocks that a cache leaves alone. -/
def elsewhere (i : Nat) (spans : Nat → Category → List Span) (blocks : Set Nat) : Set Nat :=
  cachedOff i spans ∪ blocks

theorem used_eq (i : Nat) (spans : Nat → Category → List Span) (blocks : Set Nat) :
    cachedIn spans ∪ blocks = BlockHeap.cachedBlocks (spans i) ∪ elsewhere i spans blocks := by
  rw [cachedIn_eq i, Set.union_assoc]
  rfl

theorem used_update (i : Nat) (spans : Nat → Category → List Span) (new : Category → List Span)
    (blocks : Set Nat) :
    cachedIn (Function.update spans i new) ∪ blocks =
      BlockHeap.cachedBlocks new ∪ elsewhere i spans blocks := by
  rw [cachedIn_update, Set.union_assoc]
  rfl

/-- A cache is sound, with the blocks of the others and of the clients elsewhere. -/
theorem Sound.blockHeap (h : n.Sound spans blocks pages foreign) (i : Nat) :
    (n.blockHeap i).Sound (spans i) (elsewhere i spans blocks) (n.beside pages foreign)
      (n.table.total + pages.ncard) := by
  have hpool := h.large.pool h.apart h.marked
  rw [used_eq i] at hpool
  refine ⟨hpool, h.holds i, fun x hx hin => ?_⟩
  rcases hin with ⟨j, hne, hin⟩ | hin
  · exact hne (h.distinct j i x hin hx)
  · exact h.cached_notMem x ⟨i, hx⟩ hin

/-- A cache was worked on. -/
def withBlocks (n : Party) (i : Nat) (b : BlockHeap) : Party :=
  ⟨b.paging, n.table, Function.update n.caches i b.cache⟩

theorem Sound.of_blocks {b : BlockHeap} {new : Category → List Span}
    (h : n.Sound spans blocks pages foreign)
    (hblocks : b.Sound new (elsewhere i spans blocks') (n.beside pages foreign)
      (n.table.total + pages.ncard))
    (hkeeps : n.paging.Keeps (reserved n.memory (cachedOff i spans) ∪ n.beside pages foreign)
      b.paging)
    (hothers : ∀ x ∈ cachedOff i spans, x ∉ blocks') :
    (n.withBlocks i b).Sound (Function.update spans i new) blocks' pages foreign := by
  obtain ⟨hpool, hholds, hapart⟩ := hblocks
  rw [← used_update] at hpool
  obtain ⟨hlarge, hforeign⟩ := h.large.of_pool hpool
  refine ⟨hlarge, hforeign, h.pages_apart, hpool.marked, fun j c => ?_,
    distinct_update h.distinct fun x hx hin => hapart x hx (.inl hin), fun x hx => ?_⟩
  · show Holds b.paging.kernel.memory c ((Function.update n.caches i b.cache j).list c) _
    by_cases hj : j = i
    · subst hj
      rw [Function.update_self, Function.update_self]
      exact hholds c
    · -- The blocks of the other caches were left alone.
      rw [Function.update_of_ne hj, Function.update_of_ne hj]
      have hmine : ∀ x ∈ blocksOf c (spans j c), x ∈ cachedOff i spans :=
        fun x hx => ⟨j, hj, c, hx⟩
      exact (h.holds j c).congr hmine fun y hy => hkeeps.byteAt y (.inl hy)
  · rw [cachedIn_update] at hx
    rcases hx with hx | hx
    · exact fun hin => hapart x hx (.inr hin)
    · exact hothers x hx

/-! ## Large allocations -/

/-- Large allocations were worked on. -/
def withLarge (n : Party) (l : LargeHeap) : Party := ⟨l.paging, l.table, n.caches⟩

theorem Sound.of_large {l : LargeHeap} (h : n.Sound spans blocks pages foreign)
    (hl : l.Sound (runBytes (cachedIn spans ∪ blocks) ∪ (pages ∪ foreign))
      ((pagesOf (cachedIn spans ∪ blocks)).ncard * pageSize + pages.ncard))
    (hkeeps : n.paging.Keeps (runBytes (cachedIn spans ∪ blocks)) l.paging) :
    (n.withLarge l).Sound spans blocks pages foreign := by
  refine ⟨hl, h.apart, h.pages_apart, h.marked.of_keeps hkeeps, fun i c => ?_, h.distinct,
    h.cached_notMem⟩
  have hmine : ∀ x ∈ blocksOf c (spans i c), x ∈ cachedIn spans ∪ blocks :=
    fun x hx => .inl ⟨i, c, hx⟩
  exact (h.holds i c).congr hmine fun y hy => hkeeps.byteAt y (reserved_subset_runBytes _ hy)

/-! ## What memory tells -/

/-- The block `x` is in a list of a cache. -/
def Cached (n : Party) (x : Nat) : Prop :=
  ∃ i c node, Reaches n.memory ((n.caches i).list c).head? node ∧
    x ∈ (spanAt n.memory node).blocks c

/-- The blocks that have not come home. -/
def used (n : Party) (blocks : Set Nat) : Set Nat := {x | n.Cached x} ∪ blocks

theorem Sound.used_eq (h : n.Sound spans blocks pages foreign) :
    n.used blocks = cachedIn spans ∪ blocks := by
  have hcached : {x | n.Cached x} = cachedIn spans := by
    ext x
    constructor
    · intro hx
      obtain ⟨i, c, node, hreaches, hblock⟩ := hx
      have hspan := (h.holds i c).linked.chain.reaches_iff.1 hreaches
      exact ⟨i, c, mem_blocksOf.2 ⟨_, hspan, hblock⟩⟩
    · intro hx
      obtain ⟨i, c, hx⟩ := hx
      obtain ⟨s, hs, hblock⟩ := mem_blocksOf.1 hx
      have hchain := (h.holds i c).linked.chain
      have hspan := hchain.span_eq hs
      refine ⟨i, c, s.first, hchain.reaches_iff.2 ?_, ?_⟩
      · rwa [hspan]
      · rwa [hspan]
  rw [used, hcached]

/-- The bytes of the blocks, pages and large allocations that the clients have. -/
def held (n : Party) (blocks pages : Set Nat) : Set Nat :=
  pages ∪ (extent n.table.get? ∪
    {y | ∃ x ∈ blocks, ∃ c, IsBlock n.memory c x ∧ y ∈ bytesAt x c.blockSize})

/-- The pages that the supplier has handed out and not got back, those of large allocations
apart. -/
def pagesOut (n : Party) (blocks pages : Set Nat) : Set Nat := runBytes (n.used blocks) ∪ pages

/-- The bytes that the party and its clients need. -/
def own (n : Party) (blocks pages : Set Nat) : Set Nat := n.largeHeap.own (n.pagesOut blocks pages)

theorem Sound.pagesOut_eq (h : n.Sound spans blocks pages foreign) :
    n.pagesOut blocks pages = runBytes (cachedIn spans ∪ blocks) ∪ pages := by
  rw [pagesOut, h.used_eq]

/-- No page is with the clients and a run. -/
theorem Sound.ncard_pagesOut (h : n.Sound spans blocks pages foreign) :
    (runBytes (cachedIn spans ∪ blocks) ∪ pages).ncard =
      (pagesOf (cachedIn spans ∪ blocks)).ncard * pageSize + pages.ncard := by
  have hfinite := h.paging.finite_out
  have hruns : runBytes (cachedIn spans ∪ blocks) ⊆ n.apartFromPages spans blocks foreign ∪ pages :=
    fun y hy => .inl (.inr (.inr (.inl hy)))
  rw [Set.ncard_union_eq (h.apart.mono_right Set.subset_union_left) (hfinite.subset hruns)
    (hfinite.subset Set.subset_union_right), (ncard_runBytes ?_).2]
  apply hfinite.subset
  intro page hpage
  obtain ⟨x, hx, rfl⟩ := hpage
  exact hruns ⟨x, hx, (pageOf_pageOf x).symm⟩

/-- The bytes of a block in the hands of a client are in a run. -/
theorem body_subset_runBytes (spans : Nat → Category → List Span) (hx : x ∈ blocks)
    (hblock : IsBlock n.memory c x) :
    bytesAt x c.blockSize ⊆ runBytes (cachedIn spans ∪ blocks) := by
  intro y hy
  exact pageBytes_subset_runBytes (mem_pagesOf (.inr hx)) (hblock.body_subset hy)

theorem Sound.held_subset (h : n.Sound spans blocks pages foreign) :
    n.held blocks pages ⊆ extent n.table.get? ∪ n.pagesOut blocks pages := by
  intro y hy
  rw [h.pagesOut_eq]
  rcases hy with hy | hy | ⟨x, hx, c, hblock, hy⟩
  · exact .inr (.inr hy)
  · exact .inl hy
  · exact .inr (.inl (body_subset_runBytes spans hx hblock hy))

/-- What a client has is in no header of a run. -/
theorem Sound.header_notMem (h : n.Sound spans blocks pages foreign) {page : Nat}
    (hpage : page ∈ pagesOf (cachedIn spans ∪ blocks)) (hy : y ∈ bytesAt page 8) :
    y ∉ n.held blocks pages := by
  have hrun : y ∈ runBytes (cachedIn spans ∪ blocks) := pageBytes_subset_runBytes hpage
    (bytesAt_subset (Nat.le_refl page) (Nat.add_le_add_left (by decide) page) hy)
  intro hin
  rcases hin with hin | hin | ⟨x, hx, c, hblock, hbody⟩
  · exact Set.disjoint_left.1 h.apart hrun (.inl hin)
  · exact Set.disjoint_left.1 h.large.apart hin (.inl hrun)
  · have hlow := hblock.header_apart hbody
    obtain ⟨z, -, rfl⟩ := hpage
    rw [pageOf_of_mem (pageOf_mod z) (by decide) hy] at hlow
    simp only [mem_bytesAt, minSize] at hy hlow
    omega

/-- What is reserved for the blocks in the caches is with no client. -/
theorem Sound.reserved_apart (h : n.Sound spans blocks pages foreign) :
    Disjoint (reserved n.memory (cachedIn spans)) (n.held blocks pages) := by
  rw [Set.disjoint_left]
  intro y hy hin
  have hrun : y ∈ runBytes (cachedIn spans ∪ blocks) :=
    runBytes_mono Set.subset_union_left (reserved_subset_runBytes _ hy)
  rcases hin with hin | hin | ⟨x, hx, c, hblock, hbody⟩
  · exact Set.disjoint_left.1 h.apart hrun (.inl hin)
  · exact Set.disjoint_left.1 h.large.apart hin (.inl hrun)
  · have hnot : x ∉ cachedIn spans := fun hcached => h.cached_notMem x hcached hx
    exact Set.disjoint_left.1 (reserved_apart_node hblock hnot) hy hbody

/-! ## Others at work -/

/-- The party with another content of memory. -/
def withMemory (n : Party) (m : Memory) : Party :=
  { n with paging := { n.paging with kernel := { n.paging.kernel with memory := m } } }

/-- The clients may store what they like in what they have. -/
theorem Sound.withMemory {m : Memory} (h : n.Sound spans blocks pages foreign)
    (hsame : ∀ y, y ∉ n.held blocks pages → m.byteAt y = n.memory.byteAt y) :
    (n.withMemory m).Sound spans blocks pages foreign := by
  have hout : n.held blocks pages ⊆ n.table.storageBytes ∪ (extent n.table.get? ∪
      (runBytes (cachedIn spans ∪ blocks) ∪ (pages ∪ foreign))) := by
    intro y hy
    rcases hy with hy | hy | ⟨x, hx, c, hblock, hy⟩
    · exact .inr (.inr (.inr (.inl hy)))
    · exact .inr (.inl hy)
    · exact .inr (.inr (.inl (body_subset_runBytes spans hx hblock hy)))
  obtain ⟨hpaging, -⟩ := h.large.paging.rewrites_by (fun _ => m) hout hsame
  refine ⟨h.large.repage h.large.out_apart hpaging, h.apart, h.pages_apart, ?_, fun i c => ?_,
    h.distinct, h.cached_notMem⟩
  · -- No client has a header, or what is reserved for the blocks in a cache.
    exact h.marked.congr fun page hpage y hy => hsame y (h.header_notMem hpage hy)
  · have hmine : ∀ x ∈ blocksOf c (spans i c), x ∈ cachedIn spans := fun x hx => ⟨i, c, hx⟩
    exact (h.holds i c).congr hmine fun y hy =>
      hsame y fun hin => Set.disjoint_left.1 h.reserved_apart hy hin

/-- Others change what the party does not need. -/
theorem Sound.environment {k : Kernel} (h : n.Sound spans blocks pages foreign)
    (hvalid : k.Valid) (huse : n.own blocks pages ⊆ k.inUse)
    (hsame : ∀ y ∈ n.own blocks pages, k.memory.byteAt y = n.memory.byteAt y) :
    ({ n with paging := { n.paging with kernel := k } } : Party).Sound spans blocks pages
      (k.inUse \ n.own blocks pages) := by
  have hgone : ∀ {part : Set Nat}, part ⊆ n.own blocks pages →
      Disjoint part (k.inUse \ n.own blocks pages) :=
    fun hsub => Set.disjoint_left.2 fun y hy hin => hin.2 (hsub hy)
  have hpages : pages ⊆ n.own blocks pages := fun y hy => .inr (.inr (.inl (.inr hy)))
  have hruns : runBytes (cachedIn spans ∪ blocks) ⊆ n.own blocks pages := by
    rw [own, h.pagesOut_eq]
    exact fun y hy => .inr (.inr (.inl (.inl hy)))
  refine ⟨?_, ?_, hgone hpages, ?_, fun i c => ?_, h.distinct, h.cached_notMem⟩
  · have hlarge := h.large
    rw [← Set.union_assoc] at hlarge ⊢
    rw [own, h.pagesOut_eq] at huse hsame ⊢
    exact hlarge.environment hvalid huse hsame
  · exact Set.disjoint_union_right.2 ⟨h.apart.mono_right Set.subset_union_left, hgone hruns⟩
  · refine h.marked.congr fun page hpage y hy => hsame y (hruns (pageBytes_subset_runBytes hpage ?_))
    exact bytesAt_subset (Nat.le_refl page) (Nat.add_le_add_left (by decide) page) hy
  · have hmine : ∀ x ∈ blocksOf c (spans i c), x ∈ cachedIn spans ∪ blocks :=
      fun x hx => .inl ⟨i, c, hx⟩
    exact (h.holds i c).congr hmine fun y hy =>
      hsame y (hruns (reserved_subset_runBytes _ hy))

/-! ## At the start -/

/-- Nothing is used at the start, and all that is in use is foreign. -/
theorem sound_new (config : PageConfig) {k : Kernel} (hvalid : k.Valid) :
    (⟨⟨k, PageSupplier.new config⟩, .empty, fun _ => .empty⟩ : Party).Sound (fun _ _ => []) ∅ ∅
      k.inUse := by
  have hnone : cachedIn (fun _ _ => []) ∪ ∅ = ∅ := by
    ext x
    refine ⟨fun hx => ?_, fun hx => absurd hx (Set.notMem_empty x)⟩
    rcases hx with ⟨i, c, hx⟩ | hx
    · exact absurd hx List.not_mem_nil
    · exact hx
  refine ⟨?_, ?_, Set.empty_disjoint _, ?_, fun i c => holds_empty c, fun i j x hx => ?_,
    fun x _ => Set.notMem_empty x⟩
  · rw [hnone, runBytes_empty, pagesOf_empty, Set.empty_union, Set.empty_union, Set.ncard_empty,
      Nat.zero_mul]
    exact LargeHeap.sound_new config hvalid
  · rw [hnone, runBytes_empty]
    exact Set.empty_disjoint _
  · rw [hnone]
    exact marked_empty _
  · obtain ⟨c, hx⟩ := hx
    exact absurd hx List.not_mem_nil

end Party
end PagedHeap
