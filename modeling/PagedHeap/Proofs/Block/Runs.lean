import Mathlib.Data.Set.Card
import Mathlib.Order.Interval.Finset.Nat
import PagedHeap.Block.Heap
import PagedHeap.Proofs.Kernel.InUse

/-!
# Blocks in their runs

A block is known by its address: the header of its run tells the category, and the distance
from the start of the page is a multiple of the block size other than zero.  Blocks share no
byte with each other or with the header.

What is `reserved` for some blocks are their bytes and the category that their runs are marked
with.  As long as those bytes stay as they are, so do the blocks.
-/

namespace PagedHeap

variable {m m' : Memory} {c d : Category} {x y page : Nat} {used others : Set Nat}

theorem pageOf_pageOf (x : Nat) : pageOf (pageOf x) = pageOf x := by
  simp only [pageOf, pageSize]
  omega

/-- The bytes of a page are the addresses that lie in it. -/
theorem mem_pageBytes (hpage : page % pageSize = 0) :
    x ∈ bytesAt page pageSize ↔ pageOf x = page := by
  simp only [mem_bytesAt, pageOf, pageSize] at *
  omega

theorem pageOf_of_mem {len : Nat} (hpage : page % pageSize = 0) (hlen : len ≤ pageSize)
    (hx : x ∈ bytesAt page len) : pageOf x = page :=
  (mem_pageBytes hpage).1 (bytesAt_subset (Nat.le_refl page) (by omega) hx)

theorem pageOf_add_offset {n : Nat} (hpage : page % pageSize = 0) (hn : n < pageSize) :
    pageOf (page + n) = page ∧ pageOffset (page + n) = n := by
  simp only [pageOf, pageOffset, pageSize] at *
  omega

namespace Category

theorem blockSize_injective : Function.Injective blockSize := by
  unfold Function.Injective
  decide

theorem minSize_le_blockSize (c : Category) : minSize ≤ c.blockSize :=
  Nat.le_of_dvd c.blockSize_pos c.minSize_dvd_blockSize

end Category

/-- The address is that of a block, in a run of category `c`. -/
structure IsBlock (m : Memory) (c : Category) (x : Nat) : Prop where
  category : m.runCategory (pageOf x) = c.val
  offset_ne : pageOffset x ≠ 0
  offset_mod : pageOffset x % c.blockSize = 0

namespace IsBlock

theorem category_eq (h : IsBlock m c x) (h' : IsBlock m d y) (hpage : pageOf x = pageOf y) :
    c = d := by
  have hcategory := h.category
  rw [hpage, h'.category] at hcategory
  exact Fin.ext hcategory.symm

/-- The header takes the first slot, and the last ends with the page. -/
theorem bounds (h : IsBlock m c x) :
    pageOf x + c.blockSize ≤ x ∧ x + c.blockSize ≤ pageOf x + pageSize := by
  obtain ⟨i, hi⟩ := Nat.dvd_of_mod_eq_zero h.offset_mod
  obtain ⟨n, hn⟩ := c.blockSize_dvd_pageSize
  have hsum := pageOf_add_pageOffset x
  have hlt := pageOffset_lt x
  have hne := h.offset_ne
  rw [hn, hi] at hlt
  have hi₀ : 1 ≤ i := by
    rcases Nat.eq_zero_or_pos i with rfl | hpos
    · exact absurd hi hne
    · exact hpos
  have hlast : i + 1 ≤ n := Nat.lt_of_mul_lt_mul_left hlt
  have hfirst := Nat.mul_le_mul_left c.blockSize hi₀
  have hstop := Nat.mul_le_mul_left c.blockSize hlast
  rw [Nat.mul_one] at hfirst
  rw [Nat.mul_add, Nat.mul_one] at hstop
  omega

theorem body_subset (h : IsBlock m c x) : bytesAt x c.blockSize ⊆ bytesAt (pageOf x) pageSize := by
  have hbounds := h.bounds
  have hpos := c.blockSize_pos
  exact bytesAt_subset (by omega) hbounds.2

theorem pageOf_of_mem_body (h : IsBlock m c x) (hy : y ∈ bytesAt x c.blockSize) :
    pageOf y = pageOf x :=
  (mem_pageBytes (pageOf_mod x)).1 (h.body_subset hy)

/-- The header of a run is in none of its blocks. -/
theorem header_apart (h : IsBlock m c x) (hy : y ∈ bytesAt x c.blockSize) :
    pageOf y + minSize ≤ y := by
  have hbounds := h.bounds
  have hmin := c.minSize_le_blockSize
  rw [h.pageOf_of_mem_body hy]
  rw [mem_bytesAt] at hy
  omega

theorem body_apart (h : IsBlock m c x) (h' : IsBlock m d y) (hne : x ≠ y) :
    Disjoint (bytesAt x c.blockSize) (bytesAt y d.blockSize) := by
  rw [Set.disjoint_left]
  intro z hz hz'
  have hpage : pageOf x = pageOf y := by
    rw [← h.pageOf_of_mem_body hz, h'.pageOf_of_mem_body hz']
  obtain rfl := h.category_eq h' hpage
  obtain ⟨i, hi⟩ := Nat.dvd_of_mod_eq_zero h.offset_mod
  obtain ⟨j, hj⟩ := Nat.dvd_of_mod_eq_zero h'.offset_mod
  have hx := pageOf_add_pageOffset x
  have hy := pageOf_add_pageOffset y
  rw [mem_bytesAt] at hz hz'
  rcases Nat.lt_trichotomy i j with hlt | rfl | hlt
  · have hstep := Nat.mul_le_mul_left c.blockSize (Nat.succ_le_of_lt hlt)
    rw [Nat.mul_succ] at hstep
    omega
  · omega
  · have hstep := Nat.mul_le_mul_left c.blockSize (Nat.succ_le_of_lt hlt)
    rw [Nat.mul_succ] at hstep
    omega

end IsBlock

/-! ## Headers -/

namespace Memory

theorem runCategory_congr (h : ∀ y ∈ bytesAt page 4, m'.byteAt y = m.byteAt y) :
    m'.runCategory page = m.runCategory page :=
  load_congr fun i hi => h _ (mem_bytesAt.2 (by omega))

theorem runLive_congr (h : ∀ y ∈ bytesAt (page + 4) 4, m'.byteAt y = m.byteAt y) :
    m'.runLive page = m.runLive page :=
  load_congr fun i hi => h _ (mem_bytesAt.2 (by omega))

theorem loadNode_congr (h : ∀ y ∈ bytesAt x Node.width, m'.byteAt y = m.byteAt y) :
    m'.loadNode x = m.loadNode x := by
  simp only [loadNode, Node.mk.injEq]
  constructor
  · congr 1
    exact load_congr fun i hi => h _ (mem_bytesAt.2 (by
      simp only [Node.width]
      omega))
  · exact load_congr fun i hi => h _ (mem_bytesAt.2 (by
      simp only [Node.width]
      omega))

theorem byteAt_store_outside {width value : Nat} (hy : y ∉ bytesAt x width) :
    (m.store width x value).byteAt y = m.byteAt y := by
  rw [byteAt_store]
  exact if_neg hy

theorem byteAt_storeNode_outside {node : Node} (hy : y ∉ bytesAt x Node.width) :
    (m.storeNode x node).byteAt y = m.byteAt y := by
  rw [mem_bytesAt, Node.width] at hy
  rw [storeNode, byteAt_store_outside, byteAt_store_outside]
  · rw [mem_bytesAt]
    omega
  · rw [mem_bytesAt]
    omega

theorem byteAt_setRunLive_outside {live : Nat} (hy : y ∉ bytesAt (page + 4) 4) :
    (m.setRunLive page live).byteAt y = m.byteAt y :=
  byteAt_store_outside hy

/-- A page marked as a run of which all blocks are out. -/
def markRun (m : Memory) (c : Category) (page : Nat) : Memory :=
  (m.setRunCategory page c.val).setRunLive page c.blocksPerPage

theorem byteAt_markRun_outside (hy : y ∉ bytesAt page 8) :
    (m.markRun c page).byteAt y = m.byteAt y := by
  rw [mem_bytesAt] at hy
  rw [markRun, byteAt_setRunLive_outside, setRunCategory, byteAt_store_outside]
  · rw [mem_bytesAt]
    omega
  · rw [mem_bytesAt]
    omega

theorem runCategory_markRun (m : Memory) (c : Category) (page : Nat) :
    (m.markRun c page).runCategory page = c.val := by
  have hlt := c.isLt
  rw [markRun, runCategory_setRunLive, runCategory, setRunCategory, load_store]
  exact Nat.mod_eq_of_lt (by omega)

theorem runLive_markRun (m : Memory) (c : Category) (page : Nat) :
    (m.markRun c page).runLive page = c.blocksPerPage := by
  have hlt := c.blocksPerPage_lt_cacheCeiling
  rw [markRun, runLive_setRunLive]
  exact Nat.lt_trans hlt (by decide)

end Memory

theorem IsBlock.congr (h : IsBlock m c x)
    (hsame : ∀ y ∈ bytesAt (pageOf x) 4, m'.byteAt y = m.byteAt y) : IsBlock m' c x :=
  ⟨(Memory.runCategory_congr hsame).trans h.category, h.offset_ne, h.offset_mod⟩

/-! ## Many blocks -/

/-- The pages that some blocks lie in. -/
def pagesOf (used : Set Nat) : Set Nat := pageOf '' used

/-- The bytes of the pages that some blocks lie in. -/
def runBytes (used : Set Nat) : Set Nat := {y | pageOf y ∈ pagesOf used}

/-- Those of some blocks that lie in a page. -/
def onPage (used : Set Nat) (page : Nat) : Set Nat := {x ∈ used | pageOf x = page}

/-- The bytes that no one may change while some blocks are used. -/
def reserved (m : Memory) (used : Set Nat) : Set Nat :=
  {y | ∃ x ∈ used, y ∈ bytesAt (pageOf x) 4 ∨ ∃ c, IsBlock m c x ∧ y ∈ bytesAt x c.blockSize}

theorem pagesOf_empty : pagesOf ∅ = ∅ := Set.image_empty pageOf

theorem runBytes_empty : runBytes ∅ = ∅ := by
  ext x
  refine ⟨fun hx => ?_, fun hx => absurd hx (Set.notMem_empty x)⟩
  obtain ⟨y, hy, -⟩ := hx
  exact absurd hy (Set.notMem_empty y)

theorem mem_pagesOf (hx : x ∈ used) : pageOf x ∈ pagesOf used := ⟨x, hx, rfl⟩

theorem pagesOf_union (used others : Set Nat) :
    pagesOf (used ∪ others) = pagesOf used ∪ pagesOf others :=
  Set.image_union pageOf used others

theorem runBytes_mono (hsub : used ⊆ others) : runBytes used ⊆ runBytes others :=
  fun _ hy => Set.image_mono hsub hy

theorem pageBytes_subset_runBytes (hpage : page ∈ pagesOf used) :
    bytesAt page pageSize ⊆ runBytes used := by
  obtain ⟨x, hx, rfl⟩ := hpage
  intro y hy
  rw [mem_pageBytes (pageOf_mod x)] at hy
  exact ⟨x, hx, hy.symm⟩

theorem finite_onPage (used : Set Nat) (page : Nat) : (onPage used page).Finite := by
  apply (Set.finite_Ico page (page + pageSize)).subset
  intro x hx
  have hpage := hx.2
  have hmod := pageOf_mod x
  rw [hpage] at hmod
  exact (mem_pageBytes hmod).2 hpage

theorem onPage_union (used others : Set Nat) (page : Nat) :
    onPage (used ∪ others) page = onPage used page ∪ onPage others page := by
  ext x
  constructor
  · intro hx
    exact hx.1.imp (fun hin => ⟨hin, hx.2⟩) fun hin => ⟨hin, hx.2⟩
  · intro hx
    rcases hx with hx | hx
    · exact ⟨.inl hx.1, hx.2⟩
    · exact ⟨.inr hx.1, hx.2⟩

/-- Blocks of a page are counted part by part. -/
theorem ncard_onPage_union (hapart : Disjoint used others) (page : Nat) :
    (onPage (used ∪ others) page).ncard =
      (onPage used page).ncard + (onPage others page).ncard := by
  rw [onPage_union]
  exact Set.ncard_union_eq (hapart.mono (fun _ hx => hx.1) fun _ hx => hx.1)
    (finite_onPage used page) (finite_onPage others page)

/-- All the blocks of one page. -/
theorem onPage_eq_self (hpage : ∀ x ∈ used, pageOf x = page) : onPage used page = used :=
  Set.Subset.antisymm (fun _ hx => hx.1) fun x hx => ⟨hx, hpage x hx⟩

/-- There are used blocks on runs only. -/
theorem onPage_eq_empty : onPage used page = ∅ ↔ page ∉ pagesOf used := by
  rw [Set.eq_empty_iff_forall_notMem]
  constructor
  · rintro hnone ⟨x, hx, hpage⟩
    exact hnone x ⟨hx, hpage⟩
  · exact fun hpage x hx => hpage ⟨x, hx.1, hx.2⟩

theorem ncard_onPage_eq_zero : (onPage used page).ncard = 0 ↔ page ∉ pagesOf used := by
  rw [Set.ncard_eq_zero (finite_onPage used page), onPage_eq_empty]

theorem reserved_mono (hsub : used ⊆ others) : reserved m used ⊆ reserved m others := by
  intro y hy
  obtain ⟨x, hx, hplace⟩ := hy
  exact ⟨x, hsub hx, hplace⟩

theorem reserved_subset_runBytes (used : Set Nat) : reserved m used ⊆ runBytes used := by
  intro y hy
  obtain ⟨x, hx, hplace⟩ := hy
  refine ⟨x, hx, ?_⟩
  rcases hplace with hheader | ⟨c, hblock, hbody⟩
  · exact (pageOf_of_mem (pageOf_mod x) (by decide) hheader).symm
  · exact (hblock.pageOf_of_mem_body hbody).symm

theorem header_subset_reserved (hx : x ∈ used) : bytesAt (pageOf x) 4 ⊆ reserved m used :=
  fun _ hy => ⟨x, hx, .inl hy⟩

theorem body_subset_reserved (h : IsBlock m c x) (hx : x ∈ used) :
    bytesAt x c.blockSize ⊆ reserved m used :=
  fun _ hy => ⟨x, hx, .inr ⟨c, h, hy⟩⟩

/-- Blocks whose reserved bytes have not changed are blocks still. -/
theorem IsBlock.of_reserved (h : IsBlock m c x) (hx : x ∈ used)
    (hsame : ∀ y ∈ reserved m used, m'.byteAt y = m.byteAt y) : IsBlock m' c x :=
  h.congr fun y hy => hsame y (header_subset_reserved hx hy)

/-- Nothing that is reserved is where a run has its counter. -/
theorem reserved_apart (used : Set Nat) (hmod : page % pageSize = 0) :
    Disjoint (reserved m used) (bytesAt (page + 4) 4) := by
  rw [Set.disjoint_left]
  intro y hy hcounter
  have hpage := pageOf_of_mem hmod (show 8 ≤ pageSize by decide)
    (bytesAt_subset (Nat.le_add_right page 4) (by omega) hcounter)
  obtain ⟨x, -, hheader | ⟨c, hblock, hbody⟩⟩ := hy
  · have hother := pageOf_of_mem (pageOf_mod x) (by decide) hheader
    simp only [mem_bytesAt] at hheader hcounter
    omega
  · have hlow := hblock.header_apart hbody
    simp only [mem_bytesAt, minSize] at hcounter hlow
    omega

/-- A node is in no header, and in no block but its own. -/
theorem reserved_apart_node (h : IsBlock m c x) (hx : x ∉ used) :
    Disjoint (reserved m used) (bytesAt x c.blockSize) := by
  rw [Set.disjoint_left]
  intro y hy hbody
  obtain ⟨z, hz, hheader | ⟨d, hblock, hbody'⟩⟩ := hy
  · have hlow := h.header_apart hbody
    rw [pageOf_of_mem (pageOf_mod z) (by decide) hheader] at hlow
    simp only [mem_bytesAt, minSize] at hheader hlow
    omega
  · exact Set.disjoint_left.1 (h.body_apart hblock (ne_of_mem_of_not_mem hz hx).symm) hbody hbody'

theorem reserved_congr (hsame : ∀ y ∈ reserved m used, m'.byteAt y = m.byteAt y) :
    reserved m' used = reserved m used := by
  have hblock : ∀ x ∈ used, ∀ c, IsBlock m' c x ↔ IsBlock m c x := by
    intro x hx c
    have hheader := fun y hy => hsame y (header_subset_reserved hx hy)
    exact ⟨fun h => h.congr fun y hy => (hheader y hy).symm, fun h => h.congr hheader⟩
  ext y
  refine exists_congr fun x => and_congr_right fun hx => or_congr_right ?_
  exact exists_congr fun c => and_congr_left fun _ => hblock x hx c

end PagedHeap
