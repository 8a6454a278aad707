import PagedHeap.Proofs.Block.Walks

/-!
# One list of a cache at work

A block that is taken off a list or put on it stays used, and so do the blocks `elsewhere`: in
other lists, in other caches, or with a client.  What is reserved for those is left alone, and a
flush gives no page away in which one of them lies.
-/

namespace PagedHeap
namespace BlockHeap

/-- The list of category `c` has the blocks of some rows.  With those `elsewhere` they are all
that is used. -/
structure Stocks (b : BlockHeap) (c : Category) (spans : List Span) (elsewhere rest : Set Nat)
    (lent : Nat) : Prop where
  pool : Pool b.paging ({x | x ∈ blocksOf c spans} ∪ elsewhere) rest lent
  holds : Holds b.paging.kernel.memory c (b.cache.list c) spans
  apart : ∀ x ∈ blocksOf c spans, x ∉ elsewhere

/-- Nothing has changed for the blocks elsewhere and the rest of memory, and only the list of
category `c` may be another. -/
structure Spares (b : BlockHeap) (c : Category) (elsewhere rest : Set Nat) (b' : BlockHeap) :
    Prop where
  keeps : b.paging.Keeps (reserved b.paging.kernel.memory elsewhere ∪ rest) b'.paging
  lists : ∀ d, d ≠ c → b'.cache.list d = b.cache.list d

variable {b b' b'' : BlockHeap} {c d : Category} {spans : List Span} {elsewhere rest : Set Nat}
  {lent x : Nat} {s : Span}

theorem Spares.trans (h : b.Spares c elsewhere rest b') (h' : b'.Spares c elsewhere rest b'') :
    b.Spares c elsewhere rest b'' := by
  have hkeeps' := h'.keeps
  rw [reserved_congr fun y hy => h.keeps.byteAt y (.inl hy)] at hkeeps'
  exact ⟨h.keeps.trans hkeeps', fun d hd => (h'.lists d hd).trans (h.lists d hd)⟩

theorem Spares.mono {elsewhere' : Set Nat} (h : b.Spares c elsewhere rest b')
    (hsub : elsewhere' ⊆ elsewhere) : b.Spares c elsewhere' rest b' :=
  ⟨h.keeps.mono (Set.union_subset_union_left rest (reserved_mono hsub)), h.lists⟩

theorem list_setList_self (cache : BlockCache) (c : Category) (l : FreeList) :
    (cache.setList c l).list c = l := by
  rw [BlockCache.list_setList, if_pos rfl]

theorem list_setList_of_ne (cache : BlockCache) (l : FreeList) (h : d ≠ c) :
    (cache.setList c l).list d = cache.list d := by
  rw [BlockCache.list_setList, if_neg h.symm]

/-- A block that leaves a list is elsewhere. -/
theorem setOf_mem_cons {blocks blocks' : List Nat} (h : blocks = x :: blocks') :
    {y | y ∈ blocks} ∪ elsewhere = {y | y ∈ blocks'} ∪ insert x elsewhere := by
  ext y
  rw [h]
  simp only [Set.mem_union, Set.mem_ofPred_eq, List.mem_cons, Set.mem_insert_iff]
  tauto

/-! ## Taking a block off the front -/

/-- What is left when the first block is taken. -/
structure Drawn (b : BlockHeap) (c : Category) (s : Span) (spans : List Span)
    (elsewhere rest : Set Nat) (lent : Nat) (head? : Option Nat) (b' : BlockHeap) : Prop where
  pool : Pool b'.paging ({x | x ∈ blocksOf c (s :: spans)} ∪ elsewhere) rest lent
  linked : Linked b'.paging.kernel.memory c head? (behind c s spans)
  keeps : b.paging.Keeps (reserved b.paging.kernel.memory elsewhere ∪ rest) b'.paging
  first : IsBlock b'.paging.kernel.memory c s.first
  cache_eq : b'.cache = b.cache

theorem Stocks.ensures_behindFirst (h : b.Stocks c (s :: spans) elsewhere rest lent) :
    Action.Ensures
      (behindFirst c s.first (b.paging.kernel.memory.loadNode s.first)) b
      (fun head? b' => b.Drawn c s spans elsewhere rest lent head? b') Action.never := by
  have hlinked := h.holds.linked
  obtain ⟨-, hcount, hnext⟩ := hlinked.tail
  have hfirst := hlinked.shaped (hlinked.first_mem List.mem_cons_self)
  simp only [behindFirst, Action.ensures_ite, Action.ensures_bind, ensures_updateMemory,
    Action.ensures_pure, hcount]
  split
  · rename_i hmany
    have hbehind : behind c s spans = s.rest c :: spans := if_pos hmany
    obtain ⟨hmem, hnew⟩ := hlinked.rest_notMem hmany
    have hblock := hlinked.shaped hmem
    have hcount' : s.count - 1 < 2 ^ 32 := by
      have hlt := b.paging.kernel.memory.load_lt 4 (s.first + 8)
      rw [show b.paging.kernel.memory.load 4 (s.first + 8) = s.count from hcount] at hlt
      omega
    obtain ⟨hlink, hlimit⟩ := b.paging.kernel.memory.next?_loadNode s.first
    obtain ⟨hpool, hkeeps⟩ := h.pool.storeNode (.inl hmem) hblock
      { b.paging.kernel.memory.loadNode s.first with count := s.count - 1 }
    have hchain := hnext.chain.storeNode (s := s.rest c) hlink hlimit hcount'
      (hnext.nodes_apart hblock hnew)
    rw [← hbehind] at hchain
    have hheader : ∀ z, ∀ y ∈ bytesAt (pageOf z) 4,
        (b.paging.kernel.memory.storeNode (s.rest c).first
          { b.paging.kernel.memory.loadNode s.first with count := s.count - 1 }).byteAt y =
            b.paging.kernel.memory.byteAt y :=
      fun z y hy => Memory.byteAt_storeNode_outside (hblock.header_notMem_node hy)
    refine ⟨hpool, ?_, ?_, ?_, rfl⟩
    · dsimp only
      exact hlinked.behind (fun z _ => hheader z) hchain
    · exact hkeeps.mono (h.pool.node_apart (.inl hmem) hblock (h.apart _ hmem))
    · dsimp only
      exact hfirst.congr (hheader s.first)
  · rename_i hone
    have hbehind : behind c s spans = spans := if_neg hone
    refine ⟨h.pool, ?_, Paging.Keeps.refl _ _, hfirst, rfl⟩
    rw [hbehind]
    exact hnext

/-- What taking a block comes to. -/
def Pops (b : BlockHeap) (c : Category) (spans : List Span) (elsewhere rest : Set Nat)
    (lent : Nat) : Option Nat → BlockHeap → Prop
  | none, b' => spans = [] ∧ b' = b
  | some x, b' => ∃ spans', blocksOf c spans = x :: blocksOf c spans' ∧
      b'.Stocks c spans' (insert x elsewhere) rest lent ∧ b.Spares c elsewhere rest b' ∧
      IsBlock b'.paging.kernel.memory c x

theorem Stocks.ensures_pop (h : b.Stocks c spans elsewhere rest lent) :
    Action.Ensures (pop c) b (b.Pops c spans elsewhere rest lent) Action.never := by
  have hlinked := h.holds.linked
  simp only [pop, Action.ensures_bind, ensures_list]
  cases hhead : (b.cache.list c).head? with
  | none =>
      rw [hhead] at hlinked
      exact .answer ⟨hlinked.head?_eq_none, rfl⟩
  | some block =>
      rw [hhead] at hlinked
      obtain ⟨s, tail, rfl, rfl⟩ := hlinked.head?_eq_some
      have hpos := (hlinked.rows s List.mem_cons_self).positive
      have hblocks : blocksOf c (s :: tail) = s.first :: blocksOf c (behind c s tail) :=
        blocksOf_behind hpos
      have hcount := h.holds.count_eq
      have hle := h.holds.count_le
      rw [hblocks, List.length_cons] at hcount
      simp only [Action.ensures_bind, ensures_memory]
      apply h.ensures_behindFirst.weaken
      intro head? b' hdrawn
      have hsub : Word.sub? (b.cache.list c).count 1 = some ((b.cache.list c).count - 1) := by
        rw [Word.sub?_eq_some_iff]
        omega
      simp only [hsub, Action.ensures_checked_some, ensures_setList, Action.ensures_pure]
      have hnodup := hlinked.nodup
      have hpool := hdrawn.pool
      rw [hblocks, List.nodup_cons] at hnodup
      rw [setOf_mem_cons hblocks] at hpool
      refine ⟨behind c s tail, hblocks, ⟨hpool, ?_, fun x hx hin => ?_⟩,
        ⟨hdrawn.keeps, fun d hd => ?_⟩, hdrawn.first⟩
      · rw [list_setList_self]
        refine ⟨hdrawn.linked, ?_, ?_⟩
        · show (b.cache.list c).count - 1 = _
          omega
        · show (b.cache.list c).count - 1 ≤ _
          omega
      · rcases Set.mem_insert_iff.1 hin with rfl | hin
        · exact hnodup.1 hx
        · refine h.apart x ?_ hin
          rw [hblocks]
          exact List.mem_cons_of_mem _ hx
      · rw [list_setList_of_ne _ _ hd, hdrawn.cache_eq]

/-! ## Putting blocks on top -/

theorem Stocks.ensures_push
    (h : b.Stocks c spans (elsewhere ∪ {x | x ∈ s.blocks c}) rest lent)
    (hrow : Row b.paging.kernel.memory c s) (hapart : ∀ x ∈ s.blocks c, x ∉ elsewhere)
    (hroom : (b.cache.list c).count + s.count ≤ cacheCeiling) :
    Action.Ensures (push c s.first s.count) b
      (fun _ b' => b'.Stocks c (s :: spans) elsewhere rest lent ∧
        b.Spares c elsewhere rest b') Action.never := by
  have hlinked := h.holds.linked
  have hfirst := hrow.first_mem
  have hblock := hrow.shaped _ hfirst
  have hnew : ∀ x ∈ s.blocks c, x ∉ blocksOf c spans := fun x hx hin => h.apart x hin (.inr hx)
  have hlt : ∀ x ∈ blocksOf c spans, x < Word.limit := fun x hx =>
    Nat.lt_trans (h.pool.lt_signedLimit (.inl hx)) (by decide)
  obtain ⟨hlink, hlimit⟩ := hlinked.head?_lt hlt
  have hcount : s.count < 2 ^ 32 := by
    simp only [cacheCeiling] at hroom
    omega
  obtain ⟨hpool, hkeeps⟩ := h.pool.storeNode (.inr (.inr hfirst)) hblock
    ⟨(b.cache.list c).head?, s.count⟩
  have hchain := hlinked.chain.storeNode hlink hlimit hcount
    (hlinked.nodes_apart hblock (hnew _ hfirst))
  have hcons := hlinked.cons hrow hnew (fun z _ y hy =>
    Memory.byteAt_storeNode_outside (hblock.header_notMem_node hy)) hchain
  have hused : {x | x ∈ blocksOf c spans} ∪ (elsewhere ∪ {x | x ∈ s.blocks c}) =
      {x | x ∈ blocksOf c (s :: spans)} ∪ elsewhere := by
    ext y
    simp only [blocksOf_cons, Set.mem_union, Set.mem_ofPred_eq, List.mem_append]
    tauto
  rw [hused] at hpool
  simp only [push, Action.ensures_bind, ensures_list, ensures_updateMemory]
  apply Action.ensures_require
  · exact decide_eq_true (Nat.lt_of_le_of_lt hroom (by decide))
  · rw [ensures_setList]
    refine ⟨⟨hpool, ?_, fun x hx => ?_⟩, hkeeps.mono ?_, fun d hd => list_setList_of_ne _ _ hd⟩
    · rw [list_setList_self]
      dsimp only
      refine ⟨hcons, ?_, hroom⟩
      rw [blocksOf_cons, List.length_append, Span.length_blocks, ← h.holds.count_eq]
      exact Nat.add_comm _ _
    · rw [blocksOf_cons, List.mem_append] at hx
      rcases hx with hx | hx
      · exact hapart x hx
      · exact fun hin => h.apart x hx (.inl hin)
    · exact h.pool.node_apart (.inr (.inr hfirst)) hblock (hapart _ hfirst)

/-! ## Flushing -/

/-- The heap with a list detached. -/
def detached (b : BlockHeap) (c : Category) : BlockHeap :=
  { b with cache := b.cache.setList c {} }

/-- A flush walks along the list, which is detached before. -/
theorem Stocks.exists_flush (h : b.Stocks c spans elsewhere rest lent) :
    ∃ visits b', flush c b = .ok () b' ∧
      Walk (b.detached c) (b.cache.list c).head? visits b' ∧
        (b.detached c).Along c spans elsewhere rest lent visits b' := by
  have hpool := h.pool
  rw [Set.union_comm] at hpool
  obtain ⟨visits, b', hwalk, halong⟩ :=
    exists_walk (b := b.detached c) hpool h.holds.linked h.apart
  have hlength : visits.length = spans.length := by rw [← halong.spans_eq, List.length_map]
  -- There are no more nodes than blocks, and those are few.
  have hrounds : visits.length ≤ Word.limit := by
    have hlen := h.holds.linked.length_le
    have hcount := h.holds.count_eq
    have hle := h.holds.count_le
    simp only [cacheCeiling, Word.limit] at hle ⊢
    omega
  exact ⟨visits, b', releaseChain_eq_ok_iff.2 ⟨visits, hrounds, hwalk⟩, hwalk, halong⟩

theorem Stocks.ensures_flush (h : b.Stocks c spans elsewhere rest lent) :
    Action.Ensures (flush c) b
      (fun _ b' => b'.Stocks c [] elsewhere rest lent ∧ b.Spares c elsewhere rest b')
      Action.never := by
  obtain ⟨visits, b', hrun, -, halong⟩ := h.exists_flush
  have hcache : b'.cache = b.cache.setList c {} := halong.cache_eq
  rw [Action.ensures_iff, hrun]
  refine ⟨⟨?_, ?_, fun x hx => absurd hx List.not_mem_nil⟩, halong.keeps, fun d hd => ?_⟩
  · have hnothing : {x | x ∈ blocksOf c []} ∪ elsewhere = elsewhere := by simp
    rw [hnothing]
    exact halong.pool
  · rw [hcache, list_setList_self]
    exact holds_nil
  · rw [hcache, list_setList_of_ne _ _ hd]

end BlockHeap
end PagedHeap
