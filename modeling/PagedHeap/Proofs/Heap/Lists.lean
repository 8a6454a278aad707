import PagedHeap.Proofs.Heap.Footprint
import PagedHeap.Proofs.Heap.Serving

/-!
# The lists of the caches

The number beside a list is that of the blocks that are reached from its head, and never more than
the ceiling.  A block that is freed goes on the list of its category in the cache that serves the
thread.  If that list is full its blocks go home first, and the block freed is alone on it.  All
other lists are as they were.
-/

namespace PagedHeap
namespace Heap

/-- The blocks of category `c` that are reached from the head of its list at a place. -/
def listed (h : Heap) (place : Place) (c : Category) : Set Nat :=
  {x | ∃ node, h.OnSpan place c node x}

/-- The blocks that leave a list for one that is freed. -/
def surplus (h : Heap) (place : Place) (c : Category) : Set Nat :=
  if (h.cacheAt place).count c < cacheCeiling then ∅ else h.listed place c

/-- The block `x` was put on a list, and the surplus was taken off it. -/
structure PutsOn (h : Heap) (place : Place) (c : Category) (x : Nat) (h' : Heap) : Prop where
  listed_eq : h'.listed place c = insert x (h.listed place c \ h.surplus place c)
  others : ∀ place' c', (place', c') ≠ (place, c) → h'.listed place' c' = h.listed place' c'

variable {h h' : Heap} {spans : Place → Category → List Span} {live foreign : Set Nat}
  {place : Place} {c : Category} {t x y : Nat} {new : List Span}

theorem cached_iff_listed : h.Cached y ↔ ∃ place c, y ∈ h.listed place c := Iff.rfl

theorem Sound.listed_eq (hsound : h.Sound spans live foreign) (place : Place) (c : Category) :
    h.listed place c = {x | x ∈ blocksOf c (spans place c)} := by
  ext x
  constructor
  · intro hx
    obtain ⟨node, hon⟩ := hx
    obtain ⟨s, hs, -, hin⟩ := hsound.onSpan_iff.1 hon
    exact mem_blocksOf.2 ⟨s, hs, hin⟩
  · intro hx
    obtain ⟨s, hs, hin⟩ := mem_blocksOf.1 hx
    exact ⟨s.first, hsound.onSpan_iff.2 ⟨s, hs, rfl, hin⟩⟩

/-- A list counts its blocks, and there are no more of them than the ceiling allows. -/
theorem Sound.counts_listed (hsound : h.Sound spans live foreign) (place : Place) (c : Category) :
    (h.listed place c).Finite ∧ (h.listed place c).ncard = (h.cacheAt place).count c ∧
      (h.cacheAt place).count c ≤ cacheCeiling := by
  have hholds := hsound.holds place c
  have hset : h.listed place c = ↑(blocksOf c (spans place c)).toFinset := by
    rw [hsound.listed_eq, List.coe_toFinset]
  rw [hset]
  refine ⟨Finset.finite_toSet _, ?_, hholds.count_le⟩
  rw [Set.ncard_coe_finset, List.toFinset_card_of_nodup hholds.linked.nodup]
  exact hholds.count_eq.symm

/-- A block is on one list at most. -/
theorem Sound.listed_unique (hsound : h.Sound spans live foreign) {place' : Place} {c' : Category}
    (hin : y ∈ h.listed place c) (hin' : y ∈ h.listed place' c') : (place', c') = (place, c) := by
  obtain ⟨node, hon⟩ := hin
  obtain ⟨node', hon'⟩ := hin'
  obtain ⟨rfl, rfl, -⟩ := hsound.onSpan_unique hon hon'
  rfl

theorem surplus_subset : h.surplus place c ⊆ h.listed place c := by
  unfold surplus
  split
  · exact Set.empty_subset _
  · exact Set.Subset.refl _

/-! ## What becomes of a block that is freed -/

theorem Files.putsOn (hfiles : h.Files spans live foreign place c x new h')
    (hsound : h.Sound spans live foreign) : h.PutsOn place c x h' := by
  have hsound' := hfiles.releases.sound
  constructor
  · rw [hsound'.listed_eq, Function.update_self, Function.update_self, hfiles.piles, surplus,
      hsound.listed_eq]
    ext y
    simp only [BlockHeap.pile, Set.mem_ofPred_eq, List.mem_cons, Set.mem_insert_iff]
    split <;> simp
  · intro place' c' hne
    rw [hsound'.listed_eq, hsound.listed_eq]
    by_cases hplace : place' = place
    · subst hplace
      have hc : c' ≠ c := fun heq => hne (by rw [heq])
      rw [Function.update_self, Function.update_of_ne hc]
    · rw [Function.update_of_ne hplace]

/-- What was in a cache is in one still, or was surplus. -/
theorem PutsOn.cached_iff (hputs : h.PutsOn place c x h') (hsound : h.Sound spans live foreign) :
    h'.Cached y ↔ y = x ∨ h.Cached y ∧ y ∉ h.surplus place c := by
  simp only [cached_iff_listed]
  constructor
  · rintro ⟨place', c', hin⟩
    by_cases hself : (place', c') = (place, c)
    · obtain ⟨rfl, rfl⟩ := Prod.mk.inj hself
      rw [hputs.listed_eq] at hin
      exact hin.imp_right fun hold => ⟨⟨_, _, hold.1⟩, hold.2⟩
    · rw [hputs.others _ _ hself] at hin
      refine .inr ⟨⟨place', c', hin⟩, fun hsurplus => hself ?_⟩
      exact hsound.listed_unique (surplus_subset hsurplus) hin
  · rintro (rfl | ⟨⟨place', c', hin⟩, hnot⟩)
    · exact ⟨place, c, hputs.listed_eq ▸ Set.mem_insert y _⟩
    · refine ⟨place', c', ?_⟩
      by_cases hself : (place', c') = (place, c)
      · obtain ⟨rfl, rfl⟩ := Prod.mk.inj hself
        rw [hputs.listed_eq]
        exact .inr ⟨hin, hnot⟩
      · rwa [hputs.others _ _ hself]

/-- On a list that was full, the block is alone. -/
theorem PutsOn.alone (hputs : h.PutsOn place c x h') (hsound' : h'.Sound spans live foreign)
    (hfull : (h.cacheAt place).count c = cacheCeiling) :
    h'.listed place c = {x} ∧ (h'.cacheAt place).count c = 1 := by
  have hlisted : h'.listed place c = {x} := by
    rw [hputs.listed_eq, surplus, if_neg (by omega), Set.sdiff_self, insert_empty_eq]
  refine ⟨hlisted, ?_⟩
  rw [← (hsound'.counts_listed place c).2.1, hlisted, Set.ncard_singleton]

/-- The surplus is all that comes home. -/
theorem PutsOn.used_eq (hputs : h.PutsOn place c x h') (hsound : h.Sound spans live foreign)
    (hx : x ∈ live) (hoffset : pageOffset x ≠ 0) :
    h.used live = h'.used (live \ {x}) ∪ h.surplus place c ∧
      Disjoint (h'.used (live \ {x})) (h.surplus place c) := by
  have hsurplus : ∀ y ∈ h.surplus place c, h.Cached y :=
    fun y hy => ⟨place, c, surplus_subset hy⟩
  have hlive : ∀ y, h.Cached y → y ∉ live :=
    fun y hy => hsound.cached_notMem y (hsound.cached_iff.1 hy)
  constructor
  · ext y
    constructor
    · rintro (hcached | hheld)
      · by_cases hin : y ∈ h.surplus place c
        · exact .inr hin
        · exact .inl (.inl ((hputs.cached_iff hsound).2 (.inr ⟨hcached, hin⟩)))
      · by_cases hself : y = x
        · exact .inl (.inl ((hputs.cached_iff hsound).2 (.inl hself)))
        · exact .inl (.inr ⟨⟨hheld.1, hself⟩, hheld.2⟩)
    · rintro ((hcached | hheld) | hin)
      · rcases (hputs.cached_iff hsound).1 hcached with rfl | ⟨hold, -⟩
        · exact .inr ⟨hx, hoffset⟩
        · exact .inl hold
      · exact .inr ⟨hheld.1.1, hheld.2⟩
      · exact .inl (hsurplus y hin)
  · rw [Set.disjoint_left]
    rintro y (hcached | hheld) hin
    · rcases (hputs.cached_iff hsound).1 hcached with rfl | ⟨-, hnot⟩
      · exact hlive y (hsurplus y hin) hx
      · exact hnot hin
    · exact hlive y (hsurplus y hin) hheld.1.1

/-! ## Requests that free -/

/-- Whatever the request that frees it, a block is put on the list that serves the thread. -/
theorem Sound.ensures_serve_filed {r : HeapRequest} (hsound : h.Sound spans live foreign) (t : Nat)
    (hfrees : r.frees = true) (hpassed : r.passed? = some x) (hx : x ∈ live)
    (hblock : IsBlock h.kernel.memory c x) :
    Action.Ensures (serve t r) h
      (fun a h' => a.granted? = none ∧ h.FiledBy spans live foreign t c x h')
      (fun e _ => h.ServeEnds r e) := by
  have hfreed : Action.Ensures (reclaim t (some x)) h
      (fun _ h' => h.FiledBy spans live foreign t c x h') (fun e _ => h.ServeEnds r e) := by
    apply (hsound.ensures_reclaimBlock t hx hblock).mono
    · exact fun _ _ hfiled => hfiled
    · exact fun _ _ hends => .stuck (.inl hends)
  -- To ask for no bytes in place of a block is to free it.
  have hnone : Action.Ensures (Answer.pointer <$> (reclaim t (some x) >>= fun _ => pure none)) h
      (fun a h' => a.granted? = none ∧ h.FiledBy spans live foreign t c x h')
      (fun e _ => h.ServeEnds r e) := by
    rw [Action.ensures_map, Action.ensures_bind]
    exact hfreed.imp fun _ _ hfiled => .answer ⟨rfl, hfiled⟩
  have hsized : ∀ size, r.claims? = some size →
      Action.Ensures ((fun _ => Answer.done) <$> reclaimSized t (some x) size) h
        (fun a h' => a.granted? = none ∧ h.FiledBy spans live foreign t c x h')
        (fun e _ => h.ServeEnds r e) := by
    intro size hclaims
    rw [Action.ensures_map]
    apply (hsound.ensures_reclaimSizedBlock t size hx hblock).mono
    · exact fun _ _ hfiled => ⟨rfl, hfiled⟩
    · rintro e _ (hlock | ⟨hlt, rfl⟩)
      · exact .stuck (.inl hlock)
      · exact .claim hpassed hclaims (.inr ⟨c, hblock, rfl⟩) hlt
  cases r with
  | reclaim pointer? =>
      obtain rfl : pointer? = some x := hpassed
      rw [serve, Action.ensures_map]
      exact hfreed.imp fun _ _ hfiled => ⟨rfl, hfiled⟩
  | reclaimSized pointer? size =>
      obtain rfl : pointer? = some x := hpassed
      exact hsized size rfl
  | deallocateLayout pointer? l =>
      obtain rfl : pointer? = some x := hpassed
      exact hsized l.size rfl
  | deallocateSlice pointer? l =>
      obtain rfl : pointer? = some x := hpassed
      exact hsized l.size rfl
  | reallocate pointer? size opts =>
      obtain rfl : pointer? = some x := hpassed
      obtain rfl : size = 0 := by simpa [HeapRequest.frees] using hfrees
      exact hnone
  | realloc pointer? size =>
      obtain rfl : pointer? = some x := hpassed
      obtain rfl : size = 0 := by simpa [HeapRequest.frees] using hfrees
      exact hnone
  | _ => cases hfrees

end Heap
end PagedHeap
