import PagedHeap.Proofs.Heap.Outcomes

/-!
# The memory that the heap needs

What memory holds tells which blocks are in a cache: those in the spans of the nodes that are
reached from the heads of its lists.  So the memory that the heap needs is known without a word
about how it came to be needed.  Others may do what they like with everything else.
-/

namespace PagedHeap

/-- The nodes that are reached from a link. -/
inductive Reaches (m : Memory) : Option Nat → Nat → Prop where
  | first (node : Nat) : Reaches m (some node) node
  | next {node other : Nat} (h : Reaches m (m.loadNode node).next? other) :
      Reaches m (some node) other

/-- The span of free blocks that starts at a node. -/
def spanAt (m : Memory) (node : Nat) : Span := ⟨node, (m.loadNode node).count⟩

theorem Chain.reaches_iff {m : Memory} {head? : Option Nat} {spans : List Span} {node : Nat}
    (h : Chain m head? spans) :
    Reaches m head? node ↔ spanAt m node ∈ spans := by
  induction spans generalizing head? with
  | nil =>
      obtain rfl : head? = none := h
      refine ⟨fun hreaches => ?_, fun hin => absurd hin List.not_mem_nil⟩
      cases hreaches
  | cons s spans ih =>
      obtain ⟨rfl, hcount, hchain⟩ := h
      have hspan : spanAt m s.first = s := by
        rw [spanAt, hcount]
      constructor
      · intro hreaches
        cases hreaches with
        | first => exact List.mem_cons.2 (.inl hspan)
        | next hrest => exact List.mem_cons_of_mem s ((ih hchain).1 hrest)
      · intro hin
        rcases List.mem_cons.1 hin with heq | hin
        · rw [show node = s.first from congrArg Span.first heq]
          exact .first s.first
        · exact .next ((ih hchain).2 hin)

/-- The spans of a chain start at nodes that it reaches. -/
theorem Chain.span_eq {m : Memory} {head? : Option Nat} {spans : List Span} {s : Span}
    (h : Chain m head? spans) (hs : s ∈ spans) : spanAt m s.first = s := by
  induction spans generalizing head? with
  | nil => exact absurd hs List.not_mem_nil
  | cons s' spans ih =>
      obtain ⟨-, hcount, hchain⟩ := h
      rcases List.mem_cons.1 hs with rfl | hs
      · rw [spanAt, hcount]
      · exact ih hchain hs

/-- A block is in one span only. -/
theorem span_unique {c : Category} {spans : List Span} {s s' : Span} {x : Nat}
    (hnodup : (blocksOf c spans).Nodup) (hs : s ∈ spans) (hs' : s' ∈ spans)
    (hx : x ∈ s.blocks c) (hx' : x ∈ s'.blocks c) : s = s' := by
  induction spans with
  | nil => exact absurd hs List.not_mem_nil
  | cons first spans ih =>
      rw [blocksOf_cons, List.nodup_append] at hnodup
      obtain ⟨-, hrest, hapart⟩ := hnodup
      rcases List.mem_cons.1 hs with rfl | hin
      · rcases List.mem_cons.1 hs' with rfl | hin'
        · rfl
        · exact absurd rfl (hapart x hx x (mem_blocksOf.2 ⟨s', hin', hx'⟩))
      · rcases List.mem_cons.1 hs' with rfl | hin'
        · exact absurd rfl (hapart x hx' x (mem_blocksOf.2 ⟨s, hin, hx⟩))
        · exact ih hrest hin hin'

namespace Heap

open SizeTable

/-- The block `x` is in the span that starts at a node of a list. -/
def OnSpan (h : Heap) (place : Place) (c : Category) (node x : Nat) : Prop :=
  Reaches h.kernel.memory ((h.cacheAt place).list c).head? node ∧
    x ∈ (spanAt h.kernel.memory node).blocks c

/-- The block `x` is in a list of a cache. -/
def Cached (h : Heap) (x : Nat) : Prop := ∃ place c node, h.OnSpan place c node x

/-- The blocks that have not come home, when the client has those of `live`. -/
def used (h : Heap) (live : Set Nat) : Set Nat := {x | h.Cached x} ∪ heldBlocks live

/-- The bytes that the heap and its client need. -/
def own (h : Heap) (live : Set Nat) : Set Nat :=
  h.table.storageBytes ∪
    (extent h.table.get? ∪ (runBytes (h.used live) ∪ Ranges.bytes h.supplier.cache.ranges))

variable {h h' : Heap} {spans : Place → Category → List Span} {live foreign : Set Nat}
  {place : Place} {c : Category} {node x : Nat}

/-! ## What the caches have -/

theorem Sound.onSpan_iff (hsound : h.Sound spans live foreign) :
    h.OnSpan place c node x ↔
      ∃ s ∈ spans place c, s.first = node ∧ x ∈ s.blocks c := by
  have hchain := (hsound.holds place c).linked.chain
  rw [OnSpan, hchain.reaches_iff]
  constructor
  · exact fun hin => ⟨_, hin.1, rfl, hin.2⟩
  · intro hin
    obtain ⟨s, hs, rfl, hx⟩ := hin
    rw [hchain.span_eq hs]
    exact ⟨hs, hx⟩

theorem Sound.cached_iff (hsound : h.Sound spans live foreign) :
    h.Cached x ↔ x ∈ cachedIn spans := by
  constructor
  · intro hcached
    obtain ⟨place, c, node, hon⟩ := hcached
    obtain ⟨s, hs, -, hx⟩ := hsound.onSpan_iff.1 hon
    exact ⟨place, c, mem_blocksOf.2 ⟨s, hs, hx⟩⟩
  · intro hin
    obtain ⟨place, c, hx⟩ := hin
    obtain ⟨s, hs, hx⟩ := mem_blocksOf.1 hx
    exact ⟨place, c, s.first, hsound.onSpan_iff.2 ⟨s, hs, rfl, hx⟩⟩

theorem Sound.used_eq (hsound : h.Sound spans live foreign) :
    h.used live = usedBlocks spans live := by
  have hcached : {x | h.Cached x} = cachedIn spans := by
    ext x
    exact hsound.cached_iff
  rw [used, hcached]
  rfl

/-- A block is in one span of one list of one cache at most. -/
theorem Sound.onSpan_unique {place' : Place} {c' : Category} {node' : Nat}
    (hsound : h.Sound spans live foreign) (hon : h.OnSpan place c node x)
    (hon' : h.OnSpan place' c' node' x) : place' = place ∧ c' = c ∧ node' = node := by
  obtain ⟨s, hs, rfl, hx⟩ := hsound.onSpan_iff.1 hon
  obtain ⟨s', hs', rfl, hx'⟩ := hsound.onSpan_iff.1 hon'
  have hlist : x ∈ blocksOf c (spans place c) := mem_blocksOf.2 ⟨s, hs, hx⟩
  have hlist' : x ∈ blocksOf c' (spans place' c') := mem_blocksOf.2 ⟨s', hs', hx'⟩
  obtain rfl := hsound.distinct place' place x ⟨c', hlist'⟩ ⟨c, hlist⟩
  have hblock := (hsound.holds place' c).linked.shaped hlist
  have hblock' := (hsound.holds place' c').linked.shaped hlist'
  obtain rfl := hblock'.category_eq hblock rfl
  have hnodup := (hsound.holds place' c').linked.nodup
  exact ⟨rfl, rfl, congrArg Span.first (span_unique hnodup hs' hs hx' hx)⟩

/-! ## Others at work -/

theorem Sound.header_subset_own (hsound : h.Sound spans live foreign) {page : Nat}
    (hpage : page ∈ pagesOf (usedBlocks spans live)) : bytesAt page 8 ⊆ h.own live := by
  intro y hy
  have hrun := pageBytes_subset_runBytes hpage
    (bytesAt_subset (Nat.le_refl _) (Nat.add_le_add_left (by decide) _) hy)
  rw [own, hsound.used_eq]
  exact .inr (.inr (.inl hrun))

theorem Sound.runCategory_environment {m : Memory} (hsound : h.Sound spans live foreign)
    (hsame : ∀ y ∈ h.own live, m.byteAt y = h.kernel.memory.byteAt y)
    (hx : x ∈ usedBlocks spans live) :
    m.runCategory (pageOf x) = h.kernel.memory.runCategory (pageOf x) := by
  apply Memory.runCategory_congr
  intro y hy
  have hheader : bytesAt (pageOf x) 4 ⊆ bytesAt (pageOf x) 8 :=
    bytesAt_subset (Nat.le_refl _) (Nat.add_le_add_left (by decide) _)
  exact hsame y (hsound.header_subset_own (mem_pagesOf hx) (hheader hy))

theorem Sound.own_eq (hsound : h.Sound spans live foreign) :
    h.own live = h.largeHeap.own (runBytes (usedBlocks spans live)) := by
  rw [own, hsound.used_eq]
  rfl

/-- Others change what the heap does not need. -/
theorem Sound.environment {k : Kernel} (hsound : h.Sound spans live foreign) (hvalid : k.Valid)
    (huse : h.own live ⊆ k.inUse)
    (hsame : ∀ y ∈ h.own live, k.memory.byteAt y = h.kernel.memory.byteAt y) :
    ({ h with kernel := k } : Heap).Sound spans live (k.inUse \ h.own live) := by
  have hruns : runBytes (usedBlocks spans live) ⊆ h.own live := by
    rw [← hsound.used_eq]
    exact (Set.subset_union_left.trans Set.subset_union_right).trans Set.subset_union_right
  have hapart : Disjoint (runBytes (usedBlocks spans live)) (k.inUse \ h.own live) :=
    Set.disjoint_left.2 fun y hy hin => hin.2 (hruns hy)
  have hheader : ∀ page ∈ pagesOf (usedBlocks spans live), ∀ y ∈ bytesAt page 8,
      k.memory.byteAt y = h.kernel.memory.byteAt y :=
    fun _ hpage y hy => hsame y (hsound.header_subset_own hpage hy)
  refine ⟨?_, hapart, hsound.marked.congr hheader, fun place c => ?_, hsound.distinct,
    hsound.cached_notMem, hsound.sizes, hsound.idle⟩
  · rw [hsound.own_eq] at huse hsame ⊢
    exact hsound.large.environment hvalid huse hsame
  · have hmine : ∀ x ∈ blocksOf c (spans place c), x ∈ usedBlocks spans live :=
      fun x hx => .inl ⟨place, c, hx⟩
    exact (hsound.holds place c).congr hmine fun y hy =>
      hsame y (hruns (reserved_subset_runBytes _ hy))

end Heap
end PagedHeap
