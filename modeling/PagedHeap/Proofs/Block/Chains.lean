import PagedHeap.Proofs.Block.Runs

/-!
# Lists of free blocks

A list of free blocks is a chain of spans, each in one page, linked through the first block of
every span.  `Holds` says that a list has just the blocks of some spans; taking one off the
front and putting a span on top keep it that way.
-/

namespace PagedHeap

theorem node_subset_body (c : Category) (x : Nat) :
    bytesAt x Node.width ⊆ bytesAt x c.blockSize := by
  have hmin := c.minSize_le_blockSize
  simp only [minSize] at hmin
  exact bytesAt_subset (Nat.le_refl x) (by
    simp only [Node.width]
    omega)

theorem IsBlock.header_notMem_node {m : Memory} {c : Category} {x y z : Nat} (h : IsBlock m c x)
    (hy : y ∈ bytesAt (pageOf z) 4) : y ∉ bytesAt x Node.width := by
  intro hnode
  have hlow := h.header_apart (node_subset_body c x hnode)
  rw [pageOf_of_mem (pageOf_mod z) (by decide) hy] at hlow
  simp only [mem_bytesAt, minSize] at hy hlow
  omega

/-- A row of blocks. -/
structure Span where
  first : Nat
  count : Nat
  deriving DecidableEq, Repr

namespace Span

/-- The addresses of the blocks in a row. -/
def blocks (c : Category) (s : Span) : List Nat :=
  (List.range s.count).map fun i => s.first + i * c.blockSize

/-- What is left of a row without its first block. -/
def rest (c : Category) (s : Span) : Span := ⟨s.first + c.blockSize, s.count - 1⟩

variable {c : Category} {s : Span}

@[simp] theorem length_blocks : (s.blocks c).length = s.count := by
  rw [blocks, List.length_map, List.length_range]

theorem blocks_eq_cons (h : 0 < s.count) : s.blocks c = s.first :: (s.rest c).blocks c := by
  obtain ⟨first, count⟩ := s
  obtain ⟨n, rfl⟩ : ∃ n, count = n + 1 := ⟨count - 1, (Nat.sub_add_cancel h).symm⟩
  simp only [blocks, rest, List.range_succ_eq_map, List.map_cons, Nat.zero_mul, Nat.add_zero,
    List.map_map, Nat.add_sub_cancel, List.cons.injEq, true_and]
  apply List.map_congr_left
  intro i _
  simp only [Function.comp_apply, Nat.succ_mul]
  omega

theorem nodup_blocks (c : Category) (s : Span) : (s.blocks c).Nodup := by
  apply List.nodup_range.map
  intro i j hij
  exact Nat.eq_of_mul_eq_mul_right c.blockSize_pos (Nat.add_left_cancel hij)

theorem blocks_of_count_eq_zero (h : s.count = 0) : s.blocks c = [] := by
  rw [blocks, h, List.range_zero, List.map_nil]

theorem first_mem (h : 0 < s.count) : s.first ∈ s.blocks c := by
  rw [blocks_eq_cons h]
  exact List.mem_cons_self

end Span

/-- The addresses of the blocks in some rows. -/
def blocksOf (c : Category) (spans : List Span) : List Nat := spans.flatMap (Span.blocks c)

/-- The rows without the first block. -/
def behind (c : Category) (s : Span) (spans : List Span) : List Span :=
  if 1 < s.count then s.rest c :: spans else spans

variable {m m' : Memory} {c : Category} {l : FreeList} {s : Span} {spans : List Span}
  {head? : Option Nat} {used : Set Nat}

@[simp] theorem blocksOf_nil : blocksOf c [] = [] := rfl

@[simp] theorem blocksOf_cons : blocksOf c (s :: spans) = s.blocks c ++ blocksOf c spans := rfl

theorem blocksOf_behind (h : 0 < s.count) :
    blocksOf c (s :: spans) = s.first :: blocksOf c (behind c s spans) := by
  rw [blocksOf_cons, Span.blocks_eq_cons h, behind]
  split
  · rfl
  · rw [Span.blocks_of_count_eq_zero (show (s.rest c).count = 0 by
      simp only [Span.rest]
      omega)]
    rfl

/-- The nodes in memory, from the first on, are those of the rows. -/
def Chain (m : Memory) : Option Nat → List Span → Prop
  | head?, [] => head? = none
  | head?, s :: spans => head? = some s.first ∧ (m.loadNode s.first).count = s.count ∧
      Chain m (m.loadNode s.first).next? spans

theorem Chain.congr (h : Chain m head? spans)
    (hsame : ∀ s ∈ spans, ∀ y ∈ bytesAt s.first Node.width, m'.byteAt y = m.byteAt y) :
    Chain m' head? spans := by
  induction spans generalizing head? with
  | nil => exact h
  | cons s spans ih =>
      obtain ⟨hhead, hcount, hrest⟩ := h
      have hnode := Memory.loadNode_congr (hsame s List.mem_cons_self)
      refine ⟨hhead, ?_, ?_⟩
      · rw [hnode, hcount]
      · rw [hnode]
        exact ih hrest fun s' hs' => hsame s' (List.mem_cons_of_mem s hs')

theorem Memory.next?_loadNode (m : Memory) (x : Nat) :
    (m.loadNode x).next? ≠ some 0 ∧ Node.encodeLink (m.loadNode x).next? < Word.limit := by
  have hlt := m.load_lt 8 x
  simp only [loadNode, Node.decodeLink]
  split
  · exact ⟨by simp, by simp [Node.encodeLink, Word.limit]⟩
  · exact ⟨by simpa using ‹¬m.load 8 x = 0›, hlt⟩

/-- Memory tells one chain of rows from a node on. -/
theorem Chain.unique {spans' : List Span} (h : Chain m head? spans) (h' : Chain m head? spans') :
    spans' = spans := by
  induction spans generalizing head? spans' with
  | nil =>
      cases spans' with
      | nil => rfl
      | cons s' spans' =>
          have hnone : head? = none := h
          rw [hnone] at h'
          exact absurd h'.1 (by simp)
  | cons s spans ih =>
      obtain ⟨rfl, hcount, hrest⟩ := h
      cases spans' with
      | nil => exact absurd (show some s.first = none from h') (by simp)
      | cons s' spans' =>
          obtain ⟨hfirst, hcount', hrest'⟩ := h'
          have hsame : s'.first = s.first := (Option.some.inj hfirst).symm
          rw [hsame] at hcount' hrest'
          have hspan : s' = s := by
            rw [Span.mk.injEq]
            exact ⟨hsame, hcount'.symm.trans hcount⟩
          rw [hspan, ih hrest hrest']

/-- A node stored in front of a chain is its first. -/
theorem Chain.storeNode (h : Chain m head? spans) (hlink : head? ≠ some 0)
    (hnext : Node.encodeLink head? < Word.limit) (hcount : s.count < 2 ^ 32)
    (hapart : ∀ s' ∈ spans,
      Disjoint (bytesAt s'.first Node.width) (bytesAt s.first Node.width)) :
    Chain (m.storeNode s.first ⟨head?, s.count⟩) (some s.first) (s :: spans) := by
  have hnode := m.loadNode_storeNode s.first ⟨head?, s.count⟩ hlink hnext hcount
  refine ⟨rfl, by rw [hnode], ?_⟩
  rw [hnode]
  exact h.congr fun s' hs' y hy =>
    Memory.byteAt_storeNode_outside (Set.disjoint_left.1 (hapart s' hs') hy)

/-- A row is of blocks of one run. -/
structure Row (m : Memory) (c : Category) (s : Span) : Prop where
  positive : 0 < s.count
  shaped : ∀ x ∈ s.blocks c, IsBlock m c x
  page_eq : ∀ x ∈ s.blocks c, pageOf x = pageOf s.first

/-- The rows are linked through their first blocks, and no block is in them twice. -/
structure Linked (m : Memory) (c : Category) (head? : Option Nat) (spans : List Span) : Prop where
  chain : Chain m head? spans
  nodup : (blocksOf c spans).Nodup
  rows : ∀ s ∈ spans, Row m c s

/-- The list has just the blocks of the rows. -/
structure Holds (m : Memory) (c : Category) (l : FreeList) (spans : List Span) : Prop where
  linked : Linked m c l.head? spans
  count_eq : l.count = (blocksOf c spans).length
  count_le : l.count ≤ cacheCeiling

/-- A list is as it was: its head, its count, and its nodes in memory. -/
structure SameList (m : Memory) (l : FreeList) (m' : Memory) (l' : FreeList) : Prop where
  list_eq : l' = l
  chain_iff : ∀ spans, Chain m' l'.head? spans ↔ Chain m l.head? spans

theorem Holds.sameList {l' : FreeList} (h : Holds m c l spans) (h' : Holds m' c l' spans)
    (hlist : l' = l) : SameList m l m' l' := by
  refine ⟨hlist, fun spans' => ⟨fun hchain => ?_, fun hchain => ?_⟩⟩
  · rw [h'.linked.chain.unique hchain]
    exact h.linked.chain
  · rw [h.linked.chain.unique hchain]
    exact h'.linked.chain

theorem mem_blocksOf {x : Nat} : x ∈ blocksOf c spans ↔ ∃ s ∈ spans, x ∈ s.blocks c :=
  List.mem_flatMap

theorem holds_nil : Holds m c {} [] :=
  ⟨⟨rfl, List.nodup_nil, fun _ hs => absurd hs List.not_mem_nil⟩, rfl, Nat.zero_le _⟩

theorem holds_empty (c : Category) : Holds m c (BlockCache.empty.list c) [] := by
  rw [BlockCache.list_empty]
  exact holds_nil

theorem Row.first_mem (h : Row m c s) : s.first ∈ s.blocks c := Span.first_mem h.positive

theorem Row.congr (h : Row m c s)
    (hsame : ∀ x ∈ s.blocks c, ∀ y ∈ bytesAt (pageOf x) 4, m'.byteAt y = m.byteAt y) :
    Row m' c s :=
  ⟨h.positive, fun x hx => (h.shaped x hx).congr (hsame x hx), h.page_eq⟩

/-- The rest of a row is a row. -/
theorem Row.rest (h : Row m c s) (hcount : 1 < s.count) : Row m c (s.rest c) := by
  have hshaped := h.shaped
  have hpage := h.page_eq
  rw [Span.blocks_eq_cons h.positive] at hshaped hpage
  have hpos : 0 < (s.rest c).count := Nat.sub_pos_of_lt hcount
  have hsecond := hpage _ (List.mem_cons_of_mem _ (Span.first_mem hpos))
  refine ⟨hpos, fun x hx => hshaped x (List.mem_cons_of_mem _ hx), fun x hx => ?_⟩
  rw [hpage x (List.mem_cons_of_mem _ hx), hsecond]

/-- The bytes of a row are in one page. -/
theorem Row.bytes_subset (h : Row m c s) :
    bytesAt s.first (s.count * c.blockSize) ⊆ bytesAt (pageOf s.first) pageSize := by
  obtain ⟨n, hn⟩ : ∃ n, s.count = n + 1 := ⟨s.count - 1, (Nat.sub_add_cancel h.positive).symm⟩
  have hlast : s.first + n * c.blockSize ∈ s.blocks c :=
    List.mem_map_of_mem (List.mem_range.2 (by omega))
  have hbounds := (h.shaped _ hlast).bounds.2
  rw [h.page_eq _ hlast] at hbounds
  refine bytesAt_subset (pageOf_le s.first) ?_
  rw [hn, Nat.succ_mul]
  omega

theorem mem_behind {s' : Span} (hs' : s' ∈ behind c s spans) :
    s' ∈ spans ∨ 1 < s.count ∧ s' = s.rest c := by
  rw [behind] at hs'
  split at hs'
  · rcases List.mem_cons.1 hs' with heq | hmem
    · exact .inr ⟨‹1 < s.count›, heq⟩
    · exact .inl hmem
  · exact .inl hs'

namespace Linked

theorem shaped (h : Linked m c head? spans) {x : Nat} (hx : x ∈ blocksOf c spans) :
    IsBlock m c x := by
  obtain ⟨s, hs, hx⟩ := mem_blocksOf.1 hx
  exact (h.rows s hs).shaped x hx

theorem first_mem (h : Linked m c head? spans) (hs : s ∈ spans) :
    s.first ∈ blocksOf c spans :=
  mem_blocksOf.2 ⟨s, hs, (h.rows s hs).first_mem⟩

/-- Rows stay linked as long as the reserved bytes of their blocks stay as they are. -/
theorem congr (h : Linked m c head? spans) (hused : ∀ x ∈ blocksOf c spans, x ∈ used)
    (hsame : ∀ y ∈ reserved m used, m'.byteAt y = m.byteAt y) : Linked m' c head? spans := by
  refine ⟨h.chain.congr fun s hs y hy => ?_, h.nodup, fun s hs => ?_⟩
  · have hfirst := h.first_mem hs
    exact hsame y (body_subset_reserved (h.shaped hfirst) (hused _ hfirst)
      (node_subset_body c s.first hy))
  · apply (h.rows s hs).congr
    intro x hx y hy
    exact hsame y (header_subset_reserved (hused x (mem_blocksOf.2 ⟨s, hs, hx⟩)) hy)

theorem tail (h : Linked m c head? (s :: spans)) :
    head? = some s.first ∧ (m.loadNode s.first).count = s.count ∧
      Linked m c (m.loadNode s.first).next? spans := by
  obtain ⟨hhead, hcount, hchain⟩ := h.chain
  have hnodup := h.nodup
  rw [blocksOf_cons] at hnodup
  exact ⟨hhead, hcount, hchain, (List.nodup_append.1 hnodup).2.1,
    fun s' hs' => h.rows s' (List.mem_cons_of_mem s hs')⟩

theorem head?_eq_none (h : Linked m c none spans) : spans = [] := by
  cases spans with
  | nil => rfl
  | cons s rest => exact absurd h.tail.1 (by simp)

theorem head?_eq_some {block : Nat} (h : Linked m c (some block) spans) :
    ∃ s rest, spans = s :: rest ∧ s.first = block := by
  cases spans with
  | nil => exact absurd h.chain (by simp [Chain])
  | cons s rest => exact ⟨s, rest, rfl, (Option.some.inj h.tail.1).symm⟩

theorem head?_lt (h : Linked m c head? spans)
    (hlt : ∀ x ∈ blocksOf c spans, x < Word.limit) :
    head? ≠ some 0 ∧ Node.encodeLink head? < Word.limit := by
  cases head? with
  | none => exact ⟨by simp, by simp [Node.encodeLink, Word.limit]⟩
  | some block =>
      obtain ⟨s, tail, rfl, rfl⟩ := h.head?_eq_some
      have hmem := h.first_mem (List.mem_cons_self (a := s) (l := tail))
      refine ⟨fun hzero => ?_, hlt _ hmem⟩
      have hne := (h.shaped hmem).offset_ne
      rw [Option.some.inj hzero] at hne
      exact hne rfl

/-- No two rows start at the same block. -/
theorem nodup_first (h : Linked m c head? spans) : (spans.map Span.first).Nodup := by
  have hrows := h.rows
  have hnodup := h.nodup
  clear h
  induction spans with
  | nil => exact List.nodup_nil
  | cons s spans ih =>
      rw [blocksOf_cons, List.nodup_append] at hnodup
      refine List.nodup_cons.2 ⟨fun hmem => ?_,
        ih (fun s' hs' => hrows s' (List.mem_cons_of_mem s hs')) hnodup.2.1⟩
      obtain ⟨s', hs', heq⟩ := List.mem_map.1 hmem
      have hfirst' := (hrows s' (List.mem_cons_of_mem s hs')).first_mem
      exact hnodup.2.2 _ (hrows s List.mem_cons_self).first_mem _ (mem_blocksOf.2 ⟨s', hs', hfirst'⟩)
        heq.symm

/-- Every row has a block. -/
theorem length_le (h : Linked m c head? spans) : spans.length ≤ (blocksOf c spans).length := by
  have hrows := h.rows
  clear h
  induction spans with
  | nil => exact Nat.le_refl 0
  | cons s spans ih =>
      have hrest := ih fun s' hs' => hrows s' (List.mem_cons_of_mem s hs')
      have hpos := (hrows s List.mem_cons_self).positive
      rw [blocksOf_cons, List.length_append, Span.length_blocks, List.length_cons]
      omega

/-- The node bytes of the front are not in any other node. -/
theorem nodes_apart (h : Linked m c head? spans) {x : Nat} (hblock : IsBlock m c x)
    (hnew : x ∉ blocksOf c spans) :
    ∀ s ∈ spans, Disjoint (bytesAt s.first Node.width) (bytesAt x Node.width) := by
  intro s hs
  have hfirst := h.first_mem hs
  have hapart := (h.shaped hfirst).body_apart hblock (ne_of_mem_of_not_mem hfirst hnew)
  exact (hapart.mono_left (node_subset_body c s.first)).mono_right (node_subset_body c x)

theorem rest_notMem (h : Linked m c head? (s :: spans)) (hcount : 1 < s.count) :
    (s.rest c).first ∈ blocksOf c (s :: spans) ∧ (s.rest c).first ∉ blocksOf c spans := by
  have hrow := h.rows s List.mem_cons_self
  have hnodup := h.nodup
  have hmem : (s.rest c).first ∈ s.blocks c := by
    rw [Span.blocks_eq_cons hrow.positive]
    exact List.mem_cons_of_mem _ (hrow.rest hcount).first_mem
  rw [blocksOf_cons] at hnodup ⊢
  refine ⟨List.mem_append_left _ hmem, fun hin => ?_⟩
  exact (List.nodup_append.1 hnodup).2.2 _ hmem _ hin rfl

/-- What is behind the first block is linked, if the front is a node again and the headers are
as before. -/
theorem behind {head'? : Option Nat} (h : Linked m c head? (s :: spans))
    (hsame : ∀ x ∈ blocksOf c (s :: spans),
      ∀ y ∈ bytesAt (pageOf x) 4, m'.byteAt y = m.byteAt y)
    (hchain : Chain m' head'? (behind c s spans)) : Linked m' c head'? (behind c s spans) := by
  have hrow := h.rows s List.mem_cons_self
  have hblocks : blocksOf c (s :: spans) = s.first :: blocksOf c (PagedHeap.behind c s spans) :=
    blocksOf_behind hrow.positive
  have hnodup := h.nodup
  rw [hblocks] at hnodup hsame
  refine ⟨hchain, (List.nodup_cons.1 hnodup).2, fun s' hs' => ?_⟩
  have hold : Row m c s' := by
    rcases mem_behind hs' with hmem | ⟨hmany, rfl⟩
    · exact h.rows s' (List.mem_cons_of_mem s hmem)
    · exact hrow.rest hmany
  exact hold.congr fun x hx => hsame x (List.mem_cons_of_mem _ (mem_blocksOf.2 ⟨s', hs', hx⟩))

/-- A row with its node on top of others is linked, if the headers are as before. -/
theorem cons (h : Linked m c head? spans) (hrow : Row m c s)
    (hnew : ∀ x ∈ s.blocks c, x ∉ blocksOf c spans)
    (hsame : ∀ x ∈ blocksOf c (s :: spans),
      ∀ y ∈ bytesAt (pageOf x) 4, m'.byteAt y = m.byteAt y)
    (hchain : Chain m' (some s.first) (s :: spans)) :
    Linked m' c (some s.first) (s :: spans) := by
  refine ⟨hchain, ?_, fun s' hs' => ?_⟩
  · rw [blocksOf_cons, List.nodup_append]
    refine ⟨Span.nodup_blocks c s, h.nodup, fun x hx y hy heq => ?_⟩
    rw [heq] at hx
    exact hnew y hx hy
  · have hold : Row m c s' := by
      rcases List.mem_cons.1 hs' with rfl | hmem
      · exact hrow
      · exact h.rows s' hmem
    exact hold.congr fun x hx => hsame x (mem_blocksOf.2 ⟨s', hs', hx⟩)

end Linked

theorem Holds.congr (h : Holds m c l spans) (hused : ∀ x ∈ blocksOf c spans, x ∈ used)
    (hsame : ∀ y ∈ reserved m used, m'.byteAt y = m.byteAt y) : Holds m' c l spans :=
  ⟨h.linked.congr hused hsame, h.count_eq, h.count_le⟩

/-- An empty list is empty whatever memory holds. -/
theorem Holds.of_nil (h : Holds m c l []) : Holds m' c l [] :=
  ⟨⟨h.linked.chain, h.linked.nodup, fun _ hs => absurd hs List.not_mem_nil⟩, h.count_eq, h.count_le⟩

/-! ## The blocks of a fresh run -/

/-- All blocks of a run, in a row. -/
def wholeRun (c : Category) (page : Nat) : Span := ⟨page + c.blockSize, c.blocksPerPage⟩

theorem mem_wholeRun {page x : Nat} (hmod : page % pageSize = 0)
    (hx : x ∈ (wholeRun c page).blocks c) :
    pageOf x = page ∧ pageOffset x ≠ 0 ∧ pageOffset x % c.blockSize = 0 := by
  obtain ⟨i, hi, rfl⟩ := List.mem_map.1 hx
  have hlt : i + 1 < c.blocksPerPage + 1 := Nat.succ_lt_succ (List.mem_range.1 hi)
  have hpos := c.blockSize_pos
  have hinside := Nat.mul_lt_mul_of_pos_right hlt hpos
  rw [c.blocksPerPage_succ_mul] at hinside
  have hplace : page + c.blockSize + i * c.blockSize = page + (i + 1) * c.blockSize := by
    rw [Nat.succ_mul, Nat.add_assoc, Nat.add_comm c.blockSize]
  obtain ⟨hpage, hoffset⟩ := pageOf_add_offset hmod hinside
  simp only [wholeRun, hplace, hpage, hoffset]
  refine ⟨trivial, ?_, Nat.mul_mod_left _ _⟩
  exact Nat.pos_iff_ne_zero.1 (Nat.mul_pos (Nat.succ_pos i) hpos)

/-- All blocks of a run are in its row. -/
theorem IsBlock.mem_wholeRun {x : Nat} (h : IsBlock m c x) :
    x ∈ (wholeRun c (pageOf x)).blocks c := by
  obtain ⟨i, hi⟩ := Nat.dvd_of_mod_eq_zero h.offset_mod
  have hne := h.offset_ne
  have hlt := pageOffset_lt x
  have hplace := pageOf_add_pageOffset x
  rw [hi, Nat.mul_comm] at hlt hplace hne
  rw [← c.blocksPerPage_succ_mul] at hlt
  have hlast := Nat.lt_of_mul_lt_mul_right hlt
  obtain ⟨j, rfl⟩ : ∃ j, i = j + 1 := by
    rcases Nat.eq_zero_or_pos i with rfl | hpos
    · exact absurd (Nat.zero_mul _) hne
    · exact ⟨i - 1, by omega⟩
  refine List.mem_map.2 ⟨j, List.mem_range.2 (Nat.lt_of_succ_lt_succ hlast), ?_⟩
  rw [Nat.succ_mul] at hplace
  simp only [wholeRun]
  omega

theorem isBlock_markRun {page x : Nat} (hmod : page % pageSize = 0)
    (hx : x ∈ (wholeRun c page).blocks c) : IsBlock (m.markRun c page) c x := by
  obtain ⟨hpage, hne, hoffset⟩ := mem_wholeRun hmod hx
  refine ⟨?_, hne, hoffset⟩
  rw [hpage]
  exact m.runCategory_markRun c page

theorem row_wholeRun {page : Nat} (hmod : page % pageSize = 0) :
    Row (m.markRun c page) c (wholeRun c page) := by
  have hpos : 0 < (wholeRun c page).count :=
    Nat.lt_of_lt_of_le (by decide) c.three_le_blocksPerPage
  refine ⟨hpos, fun x hx => isBlock_markRun hmod hx, fun x hx => ?_⟩
  rw [(mem_wholeRun hmod hx).1, (mem_wholeRun hmod (Span.first_mem hpos)).1]

theorem ncard_of_nodup {blocks : List Nat} (h : blocks.Nodup) :
    {x | x ∈ blocks}.ncard = blocks.length := by
  rw [← List.toFinset_card_of_nodup h, ← Set.ncard_coe_finset]
  congr 1
  ext x
  simp

theorem Span.ncard_blocks (c : Category) (s : Span) : {x | x ∈ s.blocks c}.ncard = s.count := by
  rw [ncard_of_nodup (s.nodup_blocks c), Span.length_blocks]

end PagedHeap
