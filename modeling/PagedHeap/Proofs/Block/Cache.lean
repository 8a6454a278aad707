import PagedHeap.Proofs.Block.Operations

/-!
# When a cache of blocks is sound

The lists of a cache have their blocks side by side: what one of them does is nothing to the
others, nor to the blocks in other hands.
-/

namespace PagedHeap

section Family

variable {ι β : Type} {sets : ι → β → Set Nat} {f : ι → β} {i : ι}

/-- The blocks of all members of a family. -/
def blocksOfAll (sets : ι → β → Set Nat) (f : ι → β) : Set Nat := {x | ∃ i, x ∈ sets i (f i)}

/-- The blocks of all members but one. -/
def blocksBeside (sets : ι → β → Set Nat) (i : ι) (f : ι → β) : Set Nat :=
  {x | ∃ j, j ≠ i ∧ x ∈ sets j (f j)}

theorem blocksOfAll_eq (sets : ι → β → Set Nat) (i : ι) (f : ι → β) :
    blocksOfAll sets f = sets i (f i) ∪ blocksBeside sets i f := by
  ext x
  constructor
  · intro hx
    obtain ⟨j, hx⟩ := hx
    by_cases heq : j = i
    · subst heq
      exact .inl hx
    · exact .inr ⟨j, heq, hx⟩
  · intro hx
    rcases hx with hx | ⟨j, -, hx⟩
    · exact ⟨i, hx⟩
    · exact ⟨j, hx⟩

theorem blocksBeside_subset (sets : ι → β → Set Nat) (i : ι) (f : ι → β) :
    blocksBeside sets i f ⊆ blocksOfAll sets f := by
  rw [blocksOfAll_eq sets i]
  exact Set.subset_union_right

theorem blocksOfAll_update [DecidableEq ι] (sets : ι → β → Set Nat) (i : ι) (f : ι → β) (new : β) :
    blocksOfAll sets (Function.update f i new) = sets i new ∪ blocksBeside sets i f := by
  have hbeside : blocksBeside sets i (Function.update f i new) = blocksBeside sets i f := by
    ext x
    refine exists_congr fun j => and_congr_right fun hj => ?_
    rw [Function.update_of_ne hj]
  rw [blocksOfAll_eq sets i, hbeside, Function.update_self]

/-- What came to a member was with no other. -/
theorem distinct_update [DecidableEq ι] {new : β}
    (hdistinct : ∀ j k x, x ∈ sets j (f j) → x ∈ sets k (f k) → j = k)
    (hnew : ∀ x ∈ sets i new, x ∉ blocksBeside sets i f) :
    ∀ j k x, x ∈ sets j (Function.update f i new j) → x ∈ sets k (Function.update f i new k) →
      j = k := by
  intro j k x hx hx'
  by_cases hj : j = i
  · by_cases hk : k = i
    · rw [hj, hk]
    · subst hj
      rw [Function.update_self] at hx
      rw [Function.update_of_ne hk] at hx'
      exact absurd ⟨k, hk, hx'⟩ (hnew x hx)
  · rw [Function.update_of_ne hj] at hx
    by_cases hk : k = i
    · subst hk
      rw [Function.update_self] at hx'
      exact absurd ⟨j, hj, hx⟩ (hnew x hx')
    · rw [Function.update_of_ne hk] at hx'
      exact hdistinct j k x hx hx'

end Family

namespace BlockHeap

variable {b b' : BlockHeap} {c : Category} {spans : Category → List Span}
  {others rest : Set Nat} {lent x : Nat}

/-- The blocks in the list of a category. -/
def listBlocks (c : Category) (spans : List Span) : Set Nat := {x | x ∈ blocksOf c spans}

/-- The blocks in all lists. -/
def cachedBlocks (spans : Category → List Span) : Set Nat := blocksOfAll listBlocks spans

/-- The blocks in all lists but one. -/
def cachedBeside (c : Category) (spans : Category → List Span) : Set Nat :=
  blocksBeside listBlocks c spans

/-- The lists have the blocks of some rows.  With those of `others` they are all that is used. -/
structure Sound (b : BlockHeap) (spans : Category → List Span) (others rest : Set Nat)
    (lent : Nat) : Prop where
  pool : Pool b.paging (cachedBlocks spans ∪ others) rest lent
  holds : ∀ c, Holds b.paging.kernel.memory c (b.cache.list c) (spans c)
  apart : ∀ x ∈ cachedBlocks spans, x ∉ others

theorem cachedBlocks_eq (c : Category) (spans : Category → List Span) :
    cachedBlocks spans = {x | x ∈ blocksOf c (spans c)} ∪ cachedBeside c spans :=
  blocksOfAll_eq listBlocks c spans

theorem cachedBlocks_update (c : Category) (spans : Category → List Span) (new : List Span) :
    cachedBlocks (Function.update spans c new) =
      {x | x ∈ blocksOf c new} ∪ cachedBeside c spans :=
  blocksOfAll_update listBlocks c spans new

theorem cachedBeside_subset (c : Category) (spans : Category → List Span) :
    cachedBeside c spans ⊆ cachedBlocks spans :=
  blocksBeside_subset listBlocks c spans

/-- Every list may be looked at alone. -/
theorem Sound.stocks (h : b.Sound spans others rest lent) (c : Category) :
    b.Stocks c (spans c) (cachedBeside c spans ∪ others) rest lent := by
  have hpool := h.pool
  rw [cachedBlocks_eq c, Set.union_assoc] at hpool
  refine ⟨hpool, h.holds c, fun x hx hin => ?_⟩
  rcases hin with ⟨d, hd, hin⟩ | hin
  · exact hd (((h.holds d).linked.shaped hin).category_eq ((h.holds c).linked.shaped hx) rfl)
  · exact h.apart x ⟨c, hx⟩ hin

/-- Where one list is at work, the others have their blocks as before. -/
theorem Sound.update {others' : Set Nat} {new : List Span} (h : b.Sound spans others rest lent)
    (hstocks : b'.Stocks c new (cachedBeside c spans ∪ others') rest lent)
    (hspares : b.Spares c (cachedBeside c spans) rest b')
    (hapart : ∀ x ∈ cachedBeside c spans, x ∉ others') :
    b'.Sound (Function.update spans c new) others' rest lent := by
  have hpool := hstocks.pool
  have hcached := cachedBlocks_update c spans new
  refine ⟨?_, fun d => ?_, fun x hx => ?_⟩
  · rwa [hcached, Set.union_assoc]
  · by_cases hd : d = c
    · subst hd
      rw [Function.update_self]
      exact hstocks.holds
    · rw [Function.update_of_ne hd, hspares.lists d hd]
      have hbeside : ∀ x ∈ blocksOf d (spans d), x ∈ cachedBeside c spans :=
        fun x hx => ⟨d, hd, hx⟩
      exact (h.holds d).congr hbeside fun y hy => hspares.keeps.byteAt y (.inl hy)
  · rw [hcached] at hx
    rcases hx with hx | hx
    · exact fun hin => hstocks.apart x hx (.inr hin)
    · exact hapart x hx

/-! ## The operations -/

/-- What an allocation comes to. -/
def Gives (b : BlockHeap) (spans : Category → List Span) (others rest : Set Nat) (lent : Nat)
    (c : Category) : Option Nat → BlockHeap → Prop
  | none, b' => b.Rests (cachedBlocks spans ∪ others) rest lent b' ∧ spans c = []
  | some x, b' => ∃ new, b'.Sound (Function.update spans c new) (insert x others) rest lent ∧
      b.paging.Keeps (reserved b.paging.kernel.memory others ∪ rest) b'.paging ∧
      x ∉ others ∧ IsBlock b'.paging.kernel.memory c x ∧
      Opens b.paging.kernel.memory c (cachedBlocks spans ∪ others)
        b'.paging.kernel.memory (cachedBlocks (Function.update spans c new) ∪ insert x others) ∧
      Draws c (spans c) x new

theorem Spares.keeps_right {first : Set Nat} (h : b.Spares c (first ∪ others) rest b') :
    b.paging.Keeps (reserved b.paging.kernel.memory others ∪ rest) b'.paging :=
  (h.mono Set.subset_union_right).keeps

theorem Sound.ensures_allocate (h : b.Sound spans others rest lent) (c : Category) :
    Action.Ensures (allocate c) b (b.Gives spans others rest lent c) Action.never := by
  apply (h.stocks c).ensures_allocate.weaken
  intro x? b' hallocates
  cases x? with
  | none =>
      obtain ⟨hrests, hempty⟩ := hallocates
      rw [← Set.union_assoc, ← cachedBlocks_eq] at hrests
      exact ⟨hrests, hempty⟩
  | some x =>
      obtain ⟨new, hstocks, hspares, hnew, hblock, hopens, hdraws⟩ := hallocates
      rw [← Set.union_insert] at hstocks hopens
      have hsound := h.update hstocks (hspares.mono Set.subset_union_left) fun y hy hin => by
        rcases Set.mem_insert_iff.1 hin with rfl | hin
        · exact hnew (.inl hy)
        · exact h.apart y (cachedBeside_subset c spans hy) hin
      refine ⟨new, hsound, hspares.keeps_right, fun hin => hnew (.inr hin), hblock, ?_, hdraws⟩
      rwa [cachedBlocks_eq c spans, cachedBlocks_update, Set.union_assoc, Set.union_assoc]

/-- What a free comes to: the list of one category is another. -/
structure Takes (b : BlockHeap) (spans : Category → List Span) (others rest : Set Nat)
    (lent : Nat) (c : Category) (x : Nat) (new : List Span) (b' : BlockHeap) : Prop where
  sound : b'.Sound (Function.update spans c new) others rest lent
  keeps : b.paging.Keeps (reserved b.paging.kernel.memory others ∪ rest) b'.paging
  piles : blocksOf c new = pile x (b.cache.list c).count (blocksOf c (spans c))
  closes : Closes b.paging.kernel.memory c (cachedBlocks spans ∪ insert x others)
    b'.paging.kernel.memory (cachedBlocks (Function.update spans c new) ∪ others)

theorem Takes.mem {new : List Span} (h : b.Takes spans others rest lent c x new b') :
    x ∈ blocksOf c new := by
  rw [h.piles]
  exact List.mem_cons_self

theorem Sound.ensures_free (h : b.Sound spans (insert x others) rest lent)
    (hblock : IsBlock b.paging.kernel.memory c x) (hnew : x ∉ others) :
    Action.Ensures (free x) b
      (fun _ b' => ∃ new, b.Takes spans others rest lent c x new b') Action.never := by
  have hstocks := h.stocks c
  rw [Set.union_insert] at hstocks
  have hbeside : x ∉ cachedBeside c spans ∪ others := by
    intro hin
    rcases hin with hin | hin
    · exact h.apart x (cachedBeside_subset c spans hin) (Set.mem_insert x others)
    · exact hnew hin
  apply (hstocks.ensures_free hblock hbeside).weaken
  intro _ b' hpost
  obtain ⟨new, hfrees⟩ := hpost
  have hsound := h.update hfrees.stocks (hfrees.spares.mono Set.subset_union_left)
    fun y hy hin => h.apart y (cachedBeside_subset c spans hy) (Set.mem_insert_of_mem x hin)
  have hcloses := hfrees.closes hstocks hblock
  rw [← Set.union_insert, ← Set.union_assoc, ← Set.union_assoc] at hcloses
  refine ⟨new, hsound, hfrees.spares.keeps_right, hfrees.piles, ?_⟩
  rwa [cachedBlocks_eq c spans, cachedBlocks_update]

theorem Sound.ensures_flush (h : b.Sound spans others rest lent) (c : Category) :
    Action.Ensures (flush c) b
      (fun _ b' => b'.Sound (Function.update spans c []) others rest lent ∧
        b.paging.Keeps (reserved b.paging.kernel.memory others ∪ rest) b'.paging)
      Action.never := by
  apply (h.stocks c).ensures_flush.weaken
  intro _ b' hpost
  obtain ⟨hstocks, hspares⟩ := hpost
  exact ⟨h.update hstocks (hspares.mono Set.subset_union_left)
    fun y hy => h.apart y (cachedBeside_subset c spans hy), hspares.keeps_right⟩

/-- The rows without those of some categories. -/
def without (cs : List Category) (spans : Category → List Span) (c : Category) : List Span :=
  if c ∈ cs then [] else spans c

theorem without_update (c : Category) (cs : List Category) (spans : Category → List Span) :
    without cs (Function.update spans c []) = without (c :: cs) spans := by
  funext d
  simp only [without, List.mem_cons]
  by_cases hd : d = c
  · subst hd
    simp
  · simp [hd]

theorem Sound.ensures_flushEach (h : b.Sound spans others rest lent) (cs : List Category) :
    Action.Ensures (flushEach cs) b
      (fun _ b' => b'.Sound (without cs spans) others rest lent ∧
        b.paging.Keeps (reserved b.paging.kernel.memory others ∪ rest) b'.paging)
      Action.never := by
  induction cs generalizing b spans with
  | nil => exact .answer ⟨h, Paging.Keeps.refl _ _⟩
  | cons c cs ih =>
      rw [flushEach, Action.ensures_bind]
      apply (h.ensures_flush c).weaken
      intro _ b₁ hpost
      obtain ⟨hsound, hkeeps⟩ := hpost
      apply (ih hsound).weaken
      intro _ b₂ hpost
      obtain ⟨hsound', hkeeps'⟩ := hpost
      rw [without_update] at hsound'
      rw [reserved_congr fun y hy => hkeeps.byteAt y (.inl hy)] at hkeeps'
      exact ⟨hsound', hkeeps.trans hkeeps'⟩

/-- After a flush of all lists there is no block in them. -/
theorem Sound.ensures_flushAll (h : b.Sound spans others rest lent) :
    Action.Ensures flushAll b
      (fun _ b' => b'.Sound (fun _ => []) others rest lent ∧
        b.paging.Keeps (reserved b.paging.kernel.memory others ∪ rest) b'.paging)
      Action.never := by
  apply (h.ensures_flushEach Category.all).weaken
  intro _ b' hpost
  have hall : without Category.all spans = fun _ => [] := by
    funext c
    exact if_pos (List.mem_finRange c)
  rwa [hall] at hpost

end BlockHeap
end PagedHeap
