import PagedHeap.Proofs.Block.Chains
import PagedHeap.Proofs.Page.Trail

/-!
# Runs on a page supplier

Blocks are used from when their run is opened until they come home.  A page is a run as long as
it has a used block, and its header counts them.  `Pool` says so, and that of all the memory
that the supplier has lent, runs are these pages and no more: a page goes back with the last of
its blocks, and it goes back once.
-/

namespace PagedHeap

open Paging

/-- The headers of the runs tell what the `used` blocks are and how many. -/
structure Marked (m : Memory) (used : Set Nat) : Prop where
  shaped : ∀ x ∈ used, ∃ c, IsBlock m c x
  counted : ∀ page ∈ pagesOf used, m.runLive page = (onPage used page).ncard

/-- The supplier is sound, and of what is out, the pages of the `used` blocks are runs.  The
`rest` are bytes in other hands, and `lent` of all bytes lent are not of runs. -/
structure Pool (p : Paging) (used rest : Set Nat) (lent : Nat) : Prop where
  paging : p.Sound (runBytes used ∪ rest) ((pagesOf used).ncard * pageSize + lent)
  apart : Disjoint (runBytes used) rest
  marked : Marked p.kernel.memory used

variable {m m' : Memory} {p p' : Paging} {used others blocks rest gone : Set Nat}
  {lent page block count : Nat}

theorem marked_empty (m : Memory) : Marked m ∅ := by
  refine ⟨fun x hx => absurd hx (Set.notMem_empty x), fun page hpage => ?_⟩
  rw [pagesOf_empty] at hpage
  exact absurd hpage (Set.notMem_empty page)

theorem Marked.congr (h : Marked m used)
    (hsame : ∀ page ∈ pagesOf used, ∀ y ∈ bytesAt page 8, m'.byteAt y = m.byteAt y) :
    Marked m' used where
  shaped x hx := by
    obtain ⟨c, hblock⟩ := h.shaped x hx
    refine ⟨c, hblock.congr fun y hy => hsame _ (mem_pagesOf hx) y ?_⟩
    exact bytesAt_subset (Nat.le_refl _) (by omega) hy
  counted page hpage := by
    rw [← h.counted page hpage]
    apply Memory.runLive_congr
    intro y hy
    exact hsame page hpage y (bytesAt_subset (Nat.le_add_right page 4) (by omega) hy)

theorem Marked.of_keeps (h : Marked p.kernel.memory used) (hkeeps : p.Keeps (runBytes used) p') :
    Marked p'.kernel.memory used :=
  h.congr fun _ hpage y hy => hkeeps.byteAt y (pageBytes_subset_runBytes hpage
    (bytesAt_subset (Nat.le_refl _) (Nat.add_le_add_left (by decide) _) hy))

theorem onPage_eq_left (hpage : ∀ x ∈ blocks, pageOf x ≠ page) :
    onPage (others ∪ blocks) page = onPage others page := by
  have hnone : page ∉ pagesOf blocks := fun ⟨x, hx, heq⟩ => hpage x hx heq
  rw [onPage_union, onPage_eq_empty.2 hnone, Set.union_empty]

/-- Without some blocks the counters are lower. -/
theorem Marked.lower (h : Marked m (others ∪ blocks)) (hapart : Disjoint others blocks)
    (hpage : ∀ x ∈ blocks, pageOf x = page) (hmod : page % pageSize = 0)
    (hin : page ∈ pagesOf (others ∪ blocks)) :
    m.runLive page = (onPage others page).ncard + blocks.ncard ∧
      Marked (m.setRunLive page (onPage others page).ncard) others := by
  have hlive : m.runLive page = (onPage others page).ncard + blocks.ncard := by
    rw [h.counted page hin, ncard_onPage_union hapart, onPage_eq_self hpage]
  have hlt := m.load_lt 4 (page + 4)
  refine ⟨hlive, fun x hx => ?_, fun page' hpage' => ?_⟩
  · obtain ⟨c, hblock⟩ := h.shaped x (.inl hx)
    refine ⟨c, hblock.congr fun y hy => Memory.byteAt_setRunLive_outside ?_⟩
    have hreserved : y ∈ reserved m others := header_subset_reserved hx hy
    exact Set.disjoint_left.1 (reserved_apart others hmod) hreserved
  · by_cases heq : page' = page
    · rw [heq]
      apply Memory.runLive_setRunLive
      rw [Memory.runLive] at hlive
      omega
    · have hold := h.counted page' (by
        rw [pagesOf_union]
        exact .inl hpage')
      rw [onPage_eq_left fun x hx hother => heq (hother.symm.trans (hpage x hx))] at hold
      rw [← hold]
      apply Memory.runLive_congr
      intro y hy
      apply Memory.byteAt_setRunLive_outside
      intro hcounter
      obtain ⟨x, -, hx⟩ := hpage'
      have hmod' := pageOf_mod x
      simp only [mem_bytesAt, pageSize] at hy hcounter hmod hmod'
      omega

/-- A fresh page is marked as a run, and all its blocks are used. -/
theorem Marked.raise (h : Marked m used) (c : Category) (hmod : page % pageSize = 0)
    (hfresh : page ∉ pagesOf used) :
    Marked (m.markRun c page) (used ∪ {x | x ∈ (wholeRun c page).blocks c}) := by
  have hpage : ∀ x ∈ {x | x ∈ (wholeRun c page).blocks c}, pageOf x = page :=
    fun x hx => (mem_wholeRun hmod hx).1
  have hheader : ∀ page' ∈ pagesOf used, ∀ y ∈ bytesAt page' 8,
      (m.markRun c page).byteAt y = m.byteAt y := by
    intro page' hpage' y hy
    apply Memory.byteAt_markRun_outside
    intro hin
    obtain ⟨x, hx, rfl⟩ := hpage'
    apply hfresh
    rw [← pageOf_of_mem hmod (by decide) hin, pageOf_of_mem (pageOf_mod x) (by decide) hy]
    exact mem_pagesOf hx
  have hmarked := h.congr hheader
  refine ⟨fun x hx => ?_, fun page' hpage' => ?_⟩
  · rcases hx with hx | hx
    · exact hmarked.shaped x hx
    · exact ⟨c, isBlock_markRun hmod hx⟩
  · by_cases heq : page' = page
    · subst heq
      have hall : onPage (used ∪ {x | x ∈ (wholeRun c page').blocks c}) page' =
          {x | x ∈ (wholeRun c page').blocks c} := by
        rw [onPage_union, onPage_eq_empty.2 hfresh, Set.empty_union, onPage_eq_self hpage]
      rw [hall, Span.ncard_blocks]
      exact m.runLive_markRun c page'
    · rw [onPage_eq_left fun x hx hother => heq (hother.symm.trans (hpage x hx))]
      apply hmarked.counted
      rw [pagesOf_union] at hpage'
      refine hpage'.resolve_right ?_
      rintro ⟨x, hx, rfl⟩
      exact heq (hpage x hx)

/-- The header of `page` has been lowered: of its blocks none but `others` are used.  The page is
still out, even if there are none of them. -/
structure Lowered (p : Paging) (others rest : Set Nat) (lent page : Nat) (p' : Paging) : Prop where
  paging : p'.Sound (runBytes others ∪ bytesAt page pageSize ∪ rest)
    ((insert page (pagesOf others)).ncard * pageSize + lent)
  apart : Disjoint (runBytes others) rest
  page_apart : Disjoint (bytesAt page pageSize) rest
  marked : Marked p'.kernel.memory others
  finite_pages : (pagesOf others).Finite
  keeps : p.Keeps (reserved p.kernel.memory others ∪ rest) p'

namespace Pool

theorem lt_signedLimit (h : Pool p used rest lent) {x : Nat} (hx : x ∈ used) :
    x < Word.signedLimit :=
  h.paging.lt_signedLimit (.inl (mem_pagesOf hx))

theorem finite_pages (h : Pool p used rest lent) : (pagesOf used).Finite := by
  apply (Set.finite_Iio Word.signedLimit).subset
  intro page hpage
  obtain ⟨x, hx, rfl⟩ := hpage
  exact Nat.lt_of_le_of_lt (pageOf_le x) (h.lt_signedLimit hx)

/-- A change of memory inside of the pages, but not in their headers. -/
theorem rewrites (h : Pool p used rest lent) (f : Memory → Memory) (hgone : gone ⊆ runBytes used)
    (hheader : ∀ y ∈ gone, pageOf y + minSize ≤ y)
    (hmemory : ∀ x, x ∉ gone → (f p.kernel.memory).byteAt x = p.kernel.memory.byteAt x) :
    Pool { p with kernel := { p.kernel with memory := f p.kernel.memory } } used rest lent ∧
      p.Keeps goneᶜ { p with kernel := { p.kernel with memory := f p.kernel.memory } } := by
  obtain ⟨hpaging, hkeeps⟩ := h.paging.rewrites_by f (hgone.trans Set.subset_union_left) hmemory
  refine ⟨⟨hpaging, h.apart, h.marked.congr fun page hpage y hy => hmemory y fun hin => ?_⟩, hkeeps⟩
  obtain ⟨x, -, rfl⟩ := hpage
  have hlow := hheader y hin
  rw [pageOf_of_mem (pageOf_mod x) (by decide) hy] at hlow
  simp only [mem_bytesAt, minSize] at hy hlow
  omega

/-- A node is stored in a used block. -/
theorem storeNode {c : Category} {x : Nat} (h : Pool p used rest lent) (hx : x ∈ used)
    (hblock : IsBlock p.kernel.memory c x) (node : Node) :
    Pool { p with kernel := { p.kernel with memory := p.kernel.memory.storeNode x node } }
        used rest lent ∧
      p.Keeps (bytesAt x Node.width)ᶜ
        { p with kernel := { p.kernel with memory := p.kernel.memory.storeNode x node } } := by
  have hbody := node_subset_body c x
  apply h.rewrites (·.storeNode x node)
  · exact (hbody.trans hblock.body_subset).trans (pageBytes_subset_runBytes (mem_pagesOf hx))
  · exact fun y hy => hblock.header_apart (hbody hy)
  · exact fun y hy => Memory.byteAt_storeNode_outside hy

theorem node_apart {c : Category} {x : Nat} {elsewhere : Set Nat} (h : Pool p used rest lent)
    (hx : x ∈ used) (hblock : IsBlock p.kernel.memory c x) (hnew : x ∉ elsewhere) :
    reserved p.kernel.memory elsewhere ∪ rest ⊆ (bytesAt x Node.width)ᶜ := by
  have hbody := node_subset_body c x
  have hpage := pageBytes_subset_runBytes (mem_pagesOf hx)
  have hinside := (hbody.trans hblock.body_subset).trans hpage
  rw [Set.subset_compl_iff_disjoint_right, Set.disjoint_union_left]
  exact ⟨(reserved_apart_node hblock hnew).mono_right hbody, (h.apart.mono_left hinside).symm⟩

/-- Blocks in a page add it to the pages. -/
theorem runBytes_union_row (others : Set Nat) (hmod : page % pageSize = 0)
    (hpage : ∀ x ∈ blocks, pageOf x = page) (hblock : block ∈ blocks) :
    pagesOf (others ∪ blocks) = insert page (pagesOf others) ∧
      runBytes (others ∪ blocks) = runBytes others ∪ bytesAt page pageSize := by
  have hpages : pagesOf (others ∪ blocks) = insert page (pagesOf others) := by
    rw [pagesOf_union, Set.union_comm, Set.insert_eq]
    congr 1
    ext p
    constructor
    · rintro ⟨x, hx, rfl⟩
      exact hpage x hx
    · rintro rfl
      exact ⟨block, hblock, hpage block hblock⟩
  refine ⟨hpages, ?_⟩
  ext y
  simp only [runBytes, hpages, Set.mem_ofPred_eq, Set.mem_insert_iff, Set.mem_union,
    mem_pageBytes hmod]
  exact or_comm

/-- The counter of a run is lowered to the blocks of it that stay used. -/
theorem lowers (h : Pool p (others ∪ blocks) rest lent) (hapart : Disjoint others blocks)
    (hpage : ∀ x ∈ blocks, pageOf x = pageOf block) (hblock : block ∈ blocks) :
    LiveCount.release (p.kernel.memory.runLive (pageOf block)) blocks.ncard =
        some (onPage others (pageOf block)).ncard ∧
      Lowered p others rest lent (pageOf block) { p with kernel := { p.kernel with
        memory := p.kernel.memory.setRunLive (pageOf block)
          (onPage others (pageOf block)).ncard } } := by
  have hmod := pageOf_mod block
  obtain ⟨hpages, hbytes⟩ := runBytes_union_row others hmod hpage hblock
  have hin : pageOf block ∈ pagesOf (others ∪ blocks) := mem_pagesOf (.inr hblock)
  obtain ⟨hlive, hmarked⟩ := h.marked.lower hapart hpage hmod hin
  have hcounter : bytesAt (pageOf block + 4) 4 ⊆ bytesAt (pageOf block) pageSize :=
    bytesAt_subset (Nat.le_add_right _ _) (by
      simp only [pageSize]
      omega)
  obtain ⟨hpaging, hkeeps⟩ := h.paging.rewrites_by
    (·.setRunLive (pageOf block) (onPage others (pageOf block)).ncard)
    ((hcounter.trans (pageBytes_subset_runBytes hin)).trans Set.subset_union_left)
    fun x hx => Memory.byteAt_setRunLive_outside hx
  have hrest := h.apart
  rw [hbytes, Set.disjoint_union_left] at hrest
  rw [hbytes, hpages] at hpaging
  refine ⟨LiveCount.release_eq_some_iff.2 ?_, ⟨hpaging, hrest.1, hrest.2, hmarked, ?_, ?_⟩⟩
  · rw [hlive]
  · exact h.finite_pages.subset (Set.image_mono Set.subset_union_left)
  · apply hkeeps.mono
    rw [Set.subset_compl_iff_disjoint_right, Set.disjoint_union_left]
    exact ⟨reserved_apart others hmod, (hrest.2.mono_left hcounter).symm⟩

/-- A page that the supplier hands out becomes a run. -/
theorem of_supplies {c : Category} (hmarked : Marked p.kernel.memory used)
    (hapart : Disjoint (runBytes used) rest) (hfinite : (pagesOf used).Finite)
    (hsupplies : p.Supplies (runBytes used ∪ rest)
      ((pagesOf used).ncard * pageSize + lent + pageSize) page pageSize) :
    Pool { p with kernel := { p.kernel with memory := p.kernel.memory.markRun c page } }
        (used ∪ {x | x ∈ (wholeRun c page).blocks c}) rest lent ∧
      p.Keeps (runBytes used ∪ rest)
        { p with kernel := { p.kernel with memory := p.kernel.memory.markRun c page } } ∧
      page ∉ pagesOf used := by
  have hmod := hsupplies.aligned
  have hnew := Set.disjoint_union_left.1 hsupplies.apart
  have hfirst : (wholeRun c page).first ∈ {x | x ∈ (wholeRun c page).blocks c} :=
    Span.first_mem (Nat.lt_of_lt_of_le (by decide) c.three_le_blocksPerPage)
  have hfresh : page ∉ pagesOf used := by
    intro hin
    have hself := mem_bytesAt_self page pageSize_pos
    exact Set.disjoint_left.1 hnew.1 (pageBytes_subset_runBytes hin hself) hself
  have hpage : ∀ x ∈ {x | x ∈ (wholeRun c page).blocks c}, pageOf x = page :=
    fun x hx => (mem_wholeRun hmod hx).1
  obtain ⟨hpages, hbytes⟩ := runBytes_union_row used hmod hpage hfirst
  have hinside : bytesAt page 8 ⊆ bytesAt page pageSize :=
    bytesAt_subset (Nat.le_refl _) (Nat.add_le_add_left (by decide) _)
  obtain ⟨hpaging, hkeeps⟩ := hsupplies.sound.rewrites_by (·.markRun c page)
    (hinside.trans Set.subset_union_right) fun x hx => Memory.byteAt_markRun_outside hx
  refine ⟨⟨?_, ?_, hmarked.raise c hmod hfresh⟩, ?_, hfresh⟩
  · rw [hbytes, Set.union_right_comm, hpages, Set.ncard_insert_of_notMem hfresh hfinite,
      Nat.add_mul, Nat.one_mul, Nat.add_right_comm]
    exact hpaging
  · rw [hbytes, Set.disjoint_union_left]
    exact ⟨hapart, hnew.2.symm⟩
  · exact hkeeps.mono (Set.subset_compl_iff_disjoint_right.2 (hsupplies.apart.mono_right hinside))

end Pool

namespace Lowered

/-- With other blocks the page is a run still. -/
theorem pool (h : Lowered p others rest lent page p') (hin : page ∈ pagesOf others) :
    Pool p' others rest lent := by
  have hpaging := h.paging
  rw [Set.insert_eq_of_mem hin, Set.union_eq_left.2 (pageBytes_subset_runBytes hin)] at hpaging
  exact ⟨hpaging, h.apart, h.marked⟩

/-- Without other blocks the page goes back. -/
theorem ensures_reclaim (h : Lowered p others rest lent page p') (hmod : page % pageSize = 0)
    (hout : page ∉ pagesOf others) :
    Action.Ensures (reclaim page pageSize {}) p'
      (fun _ q => Pool q others rest lent ∧
        p.Keeps (reserved p.kernel.memory others ∪ rest) q) Action.never := by
  have hpaging := h.paging
  rw [Set.union_right_comm, Set.ncard_insert_of_notMem hout h.finite_pages, Nat.add_mul,
    Nat.one_mul, Nat.add_right_comm] at hpaging
  have hapart : Disjoint (runBytes others ∪ rest) (bytesAt page pageSize) := by
    refine Set.disjoint_union_left.2 ⟨Set.disjoint_left.2 fun y hy hin => ?_, h.page_apart.symm⟩
    rw [mem_pageBytes hmod] at hin
    exact hout (hin ▸ hy)
  apply (Sound.ensures_reclaim hpaging hapart pageSize_pos hmod (Nat.mod_self _)
    (fun hclean => absurd hclean (by simp)) (Nat.le_add_left _ _)).weaken
  rintro _ q ⟨hkept, hsound⟩
  have hkeeps : Paging.Keeps _ _ q := hkept.weaken (not_parts_of_merges rfl rfl)
  rw [Nat.add_sub_cancel] at hsound
  exact ⟨⟨hsound, h.apart, h.marked.of_keeps (hkeeps.mono Set.subset_union_left)⟩,
    h.keeps.trans (hkeeps.mono (Set.union_subset_union_left rest (reserved_subset_runBytes _)))⟩

end Lowered

namespace BlockHeap

variable {b b' : BlockHeap} {α : Type} {ends : Ending → BlockHeap → Prop}

@[simp] theorem ensures_memory {post : Memory → BlockHeap → Prop} :
    Action.Ensures memory b post ends ↔ post b.paging.kernel.memory b :=
  Action.ensures_iff

@[simp] theorem ensures_updateMemory {f : Memory → Memory} {post : Unit → BlockHeap → Prop} :
    Action.Ensures (updateMemory f) b post ends ↔
      post () { b with paging := { b.paging with kernel :=
        { b.paging.kernel with memory := f b.paging.kernel.memory } } } :=
  Action.ensures_iff

@[simp] theorem ensures_list {c : Category} {post : FreeList → BlockHeap → Prop} :
    Action.Ensures (list c) b post ends ↔ post (b.cache.list c) b :=
  Action.ensures_iff

@[simp] theorem ensures_setList {c : Category} {l : FreeList} {post : Unit → BlockHeap → Prop} :
    Action.Ensures (setList c l) b post ends ↔
      post () { b with cache := b.cache.setList c l } :=
  Action.ensures_iff

@[simp] theorem ensures_onPages {action : Action Paging α} {post : α → BlockHeap → Prop} :
    Action.Ensures (Action.within pagingPart action) b post ends ↔
      Action.Ensures action b.paging (fun a p => post a { b with paging := p })
        (fun e p => ends e { b with paging := p }) :=
  Action.ensures_within

theorem ensures_releaseBlocks (h : Pool b.paging (others ∪ blocks) rest lent)
    (hapart : Disjoint others blocks) (hpage : ∀ x ∈ blocks, pageOf x = pageOf block)
    (hblock : block ∈ blocks) (hcount : blocks.ncard = count) :
    Action.Ensures (releaseBlocks block count) b
      (fun _ b' => Pool b'.paging others rest lent ∧
        b.paging.Keeps (reserved b.paging.kernel.memory others ∪ rest) b'.paging ∧
        b'.cache = b.cache) Action.never := by
  obtain ⟨hrelease, hlowered⟩ := h.lowers hapart hpage hblock
  rw [hcount] at hrelease
  simp only [releaseBlocks, Action.ensures_bind, ensures_memory, hrelease, ensures_updateMemory]
  split
  · rename_i hzero
    rw [ensures_onPages]
    apply (hlowered.ensures_reclaim (pageOf_mod block) (ncard_onPage_eq_zero.1 hzero)).weaken
    rintro _ p' ⟨hpool, hkeeps⟩
    exact ⟨hpool, hkeeps, rfl⟩
  · rename_i hsome
    have hin : pageOf block ∈ pagesOf others := by
      by_contra hout
      exact hsome (ncard_onPage_eq_zero.2 hout)
    exact .answer ⟨hlowered.pool hin, hlowered.keeps, rfl⟩

end BlockHeap
end PagedHeap
