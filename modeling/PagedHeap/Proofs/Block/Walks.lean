import PagedHeap.Proofs.Block.Pool

/-!
# Walks along a list of free blocks

A flush goes from node to node and gives the blocks of each back to their run, and with the last
of its blocks a run gives its page away.  `Walk` has one visit for every node that is read, with
the heap as it is then.  A walk along linked rows visits each of them once and comes to the end,
and it reads no node in a page that it gave away before: a page goes with the last of its used
blocks, and those of the nodes that are still to be visited are used.
-/

namespace PagedHeap

/-- If a run gives its page away with some blocks, no other block in it is used. -/
theorem Pool.page_notMem {p : Paging} {others blocks rest : Set Nat} {lent block : Nat}
    (h : Pool p (others ∪ blocks) rest lent) (hapart : Disjoint others blocks)
    (hpage : ∀ x ∈ blocks, pageOf x = pageOf block) (hblock : block ∈ blocks)
    (hreturns : LiveCount.release (p.kernel.memory.runLive (pageOf block)) blocks.ncard = some 0) :
    pageOf block ∉ pagesOf others := by
  obtain ⟨hrelease, -⟩ := h.lowers hapart hpage hblock
  rw [hreturns] at hrelease
  exact ncard_onPage_eq_zero.1 (Option.some.inj hrelease).symm

/-- The page of a used block is in use, and it is not with the supplier. -/
theorem Pool.page_lent {p : Paging} {used rest : Set Nat} {lent x : Nat}
    (h : Pool p used rest lent) (hx : x ∈ used) :
    bytesAt (pageOf x) pageSize ⊆ p.kernel.inUse \ Ranges.bytes p.cached := by
  intro y hy
  have hout : y ∈ runBytes used ∪ rest := .inl (pageBytes_subset_runBytes (mem_pagesOf hx) hy)
  exact ⟨h.paging.used (.inl hout), Set.disjoint_left.1 h.paging.apart hout⟩

namespace BlockHeap

/-- A node is read: the heap as it is then, and where the node is. -/
structure Visit where
  heap : BlockHeap
  block : Nat

namespace Visit

/-- The node that is read. -/
def node (v : Visit) : Node := v.heap.paging.kernel.memory.loadNode v.block

/-- The row of blocks that the node stands for. -/
def span (v : Visit) : Span := ⟨v.block, v.node.count⟩

/-- The page of the node goes back to the supplier in this visit. -/
def Returns (v : Visit) : Prop :=
  LiveCount.release (v.heap.paging.kernel.memory.runLive (pageOf v.block)) v.node.count = some 0

/-- The page of the node is in use, and it is not with the supplier. -/
def Lent (v : Visit) : Prop :=
  bytesAt (pageOf v.block) pageSize ⊆
    v.heap.paging.kernel.inUse \ Ranges.bytes v.heap.paging.cached

end Visit

/-- The visits from a node on, and the heap at the end. -/
inductive Walk : BlockHeap → Option Nat → List Visit → BlockHeap → Prop where
  | finish (b : BlockHeap) : Walk b none [] b
  | visit {b b₁ b' : BlockHeap} {block : Nat} {visits : List Visit}
      (hrelease : releaseBlocks block (b.paging.kernel.memory.loadNode block).count b = .ok () b₁)
      (hrest : Walk b₁ (b.paging.kernel.memory.loadNode block).next? visits b') :
      Walk b (some block) (⟨b, block⟩ :: visits) b'

/-- Nothing is visited after its page was given away. -/
def Careful (visits : List Visit) : Prop :=
  visits.Pairwise fun v w => v.Returns → pageOf w.block ≠ pageOf v.block

variable {b b' : BlockHeap} {head? : Option Nat} {visits : List Visit} {c : Category}
  {spans : List Span} {elsewhere rest : Set Nat} {lent : Nat}

theorem releaseChain_succ (rounds block : Nat) (b : BlockHeap) :
    releaseChain (rounds + 1) (some block) b =
      (releaseBlocks block (b.paging.kernel.memory.loadNode block).count >>= fun _ =>
        releaseChain rounds (b.paging.kernel.memory.loadNode block).next?) b := rfl

/-- To release a chain is to walk along it. -/
theorem releaseChain_eq_ok_iff {rounds : Nat} :
    releaseChain rounds head? b = .ok () b' ↔
      ∃ visits, visits.length ≤ rounds ∧ Walk b head? visits b' := by
  induction rounds generalizing b head? with
  | zero =>
      cases head? with
      | none =>
          refine ⟨fun hrun => ?_, fun hwalk => ?_⟩
          · obtain rfl : b = b' := by simpa [releaseChain, pure, EStateM.pure] using hrun
            exact ⟨[], Nat.le_refl 0, .finish b⟩
          · obtain ⟨visits, -, hwalk⟩ := hwalk
            cases hwalk
            rfl
      | some block =>
          refine ⟨fun hrun => ?_, fun hwalk => ?_⟩
          · cases hrun
          · obtain ⟨visits, hlength, hwalk⟩ := hwalk
            cases hwalk
            exact absurd hlength (Nat.not_succ_le_zero _)
  | succ rounds ih =>
      cases head? with
      | none =>
          refine ⟨fun hrun => ?_, fun hwalk => ?_⟩
          · obtain rfl : b = b' := by simpa [releaseChain, pure, EStateM.pure] using hrun
            exact ⟨[], Nat.zero_le _, .finish b⟩
          · obtain ⟨visits, -, hwalk⟩ := hwalk
            cases hwalk
            rfl
      | some block =>
          rw [releaseChain_succ, Action.bind_eq_ok_iff]
          refine ⟨fun hrun => ?_, fun hwalk => ?_⟩
          · obtain ⟨_, b₁, hrelease, hrest⟩ := hrun
            obtain ⟨visits, hlength, hwalk⟩ := ih.1 hrest
            exact ⟨⟨b, block⟩ :: visits, Nat.succ_le_succ hlength, .visit hrelease hwalk⟩
          · obtain ⟨visits, hlength, hwalk⟩ := hwalk
            cases hwalk with
            | visit hrelease hrest =>
                exact ⟨_, _, hrelease, ih.2 ⟨_, Nat.le_of_succ_le_succ hlength, hrest⟩⟩

/-- What a walk along some rows is like. -/
structure Along (b : BlockHeap) (c : Category) (spans : List Span) (elsewhere rest : Set Nat)
    (lent : Nat) (visits : List Visit) (b' : BlockHeap) : Prop where
  spans_eq : visits.map Visit.span = spans
  careful : Careful visits
  pages_lent : ∀ v ∈ visits, v.Lent
  pool : Pool b'.paging elsewhere rest lent
  keeps : b.paging.Keeps (reserved b.paging.kernel.memory elsewhere ∪ rest) b'.paging
  cache_eq : b'.cache = b.cache

/-- The blocks of the first row are used beside those of the rows behind it. -/
theorem used_cons {s : Span} (hnodup : (blocksOf c (s :: spans)).Nodup)
    (hapart : ∀ x ∈ blocksOf c (s :: spans), x ∉ elsewhere) :
    elsewhere ∪ {x | x ∈ blocksOf c (s :: spans)} =
        elsewhere ∪ {x | x ∈ blocksOf c spans} ∪ {x | x ∈ s.blocks c} ∧
      Disjoint (elsewhere ∪ {x | x ∈ blocksOf c spans}) {x | x ∈ s.blocks c} ∧
      ∀ x ∈ blocksOf c spans, x ∉ elsewhere := by
  rw [blocksOf_cons] at hnodup hapart
  refine ⟨?_, Set.disjoint_right.2 fun x hx hin => ?_,
    fun x hx => hapart x (List.mem_append_right _ hx)⟩
  · ext y
    simp only [blocksOf_cons, Set.mem_union, Set.mem_ofPred_eq, List.mem_append]
    tauto
  · rcases hin with hin | hin
    · exact hapart x (List.mem_append_left _ hx) hin
    · exact (List.nodup_append.1 hnodup).2.2 x hx x hin rfl

/-- A visit in front of a walk along the rows behind. -/
theorem Along.cons {b₁ : BlockHeap} {s : Span}
    (halong : b₁.Along c spans elsewhere rest lent visits b')
    (hpool : Pool b.paging (elsewhere ∪ {x | x ∈ blocksOf c spans} ∪ {x | x ∈ s.blocks c}) rest lent)
    (hothers : Disjoint (elsewhere ∪ {x | x ∈ blocksOf c spans}) {x | x ∈ s.blocks c})
    (hrow : Row b.paging.kernel.memory c s) (hbehind : ∀ s' ∈ spans, s'.first ∈ blocksOf c spans)
    (hcount : (b.paging.kernel.memory.loadNode s.first).count = s.count)
    (hkeeps : b.paging.Keeps (reserved b.paging.kernel.memory
      (elsewhere ∪ {x | x ∈ blocksOf c spans}) ∪ rest) b₁.paging)
    (hcache : b₁.cache = b.cache) :
    b.Along c (s :: spans) elsewhere rest lent (⟨b, s.first⟩ :: visits) b' := by
  have hless := reserved_mono (m := b.paging.kernel.memory)
    (Set.subset_union_left (s := elsewhere) (t := {x | x ∈ blocksOf c spans}))
  have hkept := halong.keeps
  rw [reserved_congr fun y hy => hkeeps.byteAt y (.inl (hless hy))] at hkept
  refine
    { spans_eq := ?spans_eq
      careful := List.pairwise_cons.2 ⟨?careful, halong.careful⟩
      pages_lent := List.forall_mem_cons.2 ⟨?lent, halong.pages_lent⟩
      pool := halong.pool
      keeps := (hkeeps.mono (Set.union_subset_union_left rest hless)).trans hkept
      cache_eq := halong.cache_eq.trans hcache }
  case spans_eq =>
    rw [List.map_cons, halong.spans_eq, Visit.span, Visit.node, hcount]
  case careful =>
    -- The blocks of the nodes to come are used, so their pages do not go.
    intro w hw hreturns heq
    have hmem : w.span ∈ spans := halong.spans_eq ▸ List.mem_map_of_mem hw
    rw [Visit.Returns, Visit.node, hcount, ← Span.ncard_blocks c s] at hreturns
    have hgone := hpool.page_notMem hothers hrow.page_eq hrow.first_mem hreturns
    exact hgone ⟨w.block, .inr (hbehind w.span hmem), heq⟩
  case lent => exact hpool.page_lent (x := s.first) (.inr hrow.first_mem)

/-- A walk along linked rows, with nothing else in them, comes to the end. -/
theorem exists_walk
    (hpool : Pool b.paging (elsewhere ∪ {x | x ∈ blocksOf c spans}) rest lent)
    (hlinked : Linked b.paging.kernel.memory c head? spans)
    (hapart : ∀ x ∈ blocksOf c spans, x ∉ elsewhere) :
    ∃ visits b', Walk b head? visits b' ∧ b.Along c spans elsewhere rest lent visits b' := by
  induction spans generalizing b head? with
  | nil =>
      obtain rfl : head? = none := hlinked.chain
      have hnothing : elsewhere ∪ {x | x ∈ blocksOf c []} = elsewhere := by simp
      rw [hnothing] at hpool
      exact ⟨[], b, .finish b, rfl, .nil, fun _ hv => (nomatch hv), hpool, .refl _ _, rfl⟩
  | cons s spans ih =>
      obtain ⟨rfl, hcount, hnext⟩ := hlinked.tail
      have hrow := hlinked.rows s List.mem_cons_self
      obtain ⟨hused, hothers, hbehind⟩ := used_cons hlinked.nodup hapart
      rw [hused] at hpool
      obtain ⟨_, b₁, hrelease, hpool₁, hkeeps, hcache⟩ :=
        (ensures_releaseBlocks hpool hothers hrow.page_eq hrow.first_mem
          (Span.ncard_blocks c s)).exists_ok
      have hlinked₁ := hnext.congr (fun x hx => .inr hx) fun y hy => hkeeps.byteAt y (.inl hy)
      obtain ⟨visits, b', hwalk, halong⟩ := ih hpool₁ hlinked₁ hbehind
      rw [← hcount] at hrelease
      exact ⟨⟨b, s.first⟩ :: visits, b', .visit hrelease hwalk,
        halong.cons hpool hothers hrow (fun _ hs => hnext.first_mem hs) hcount hkeeps hcache⟩

end BlockHeap
end PagedHeap
