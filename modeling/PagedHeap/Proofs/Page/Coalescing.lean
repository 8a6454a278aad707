import PagedHeap.Proofs.Page.Evictions

/-!
# How a range joins the cache

A range that is handed back joins its neighbours in the cache.  Whatever it finds there, the
range and those cached before are together the ranges cached afterwards and those that have
to leave.
-/

namespace PagedHeap
namespace RangeCache

open Ranges

variable {c c' : RangeCache} {slots : List (Option Range)} {r range : Range}
  {opts : ReclaimOptions}

/-! ## Neighbours -/

/-- What is to be kept apart from the range does not touch it anyway. -/
structure Unparted (c : RangeCache) (range : Range) (opts : ReclaimOptions) : Prop where
  before : opts.noMergeLeft = true → ∀ r ∈ c.ranges, r.address + r.len ≠ range.address
  behind : opts.noMergeRight = true → ∀ r ∈ c.ranges, range.address + range.len ≠ r.address

/-- What a search for the range in front of `address` comes to. -/
def EndsAt (slots : List (Option Range)) (address : Nat) (ofBreak : Bool) : Option Nat → Prop
  | none => ∀ r ∈ held slots, ¬(r.address + r.len = address ∧ r.ofBreak = ofBreak)
  | some i => ∃ r, slots[i]? = some (some r) ∧ r.address + r.len = address ∧ r.ofBreak = ofBreak

theorem EndsAt.succ {address : Nat} {ofBreak : Bool} {i? : Option Nat} {first : Option Range}
    (h : EndsAt slots address ofBreak i?)
    (hfirst : ∀ r, first = some r → ¬(r.address + r.len = address ∧ r.ofBreak = ofBreak)) :
    EndsAt (first :: slots) address ofBreak (i?.map (· + 1)) := by
  cases i? with
  | some i => exact h
  | none =>
      intro r hr
      cases first with
      | none => exact h r hr
      | some r' =>
          rcases List.mem_cons.1 (show r ∈ r' :: held slots from hr) with rfl | hr
          · exact hfirst r rfl
          · exact h r hr

theorem ensures_endingAt (hproper : ∀ r ∈ held slots, r.Proper) (address : Nat) (ofBreak : Bool) :
    Action.Ensures (endingAt address ofBreak slots) c
      (fun i? c' => c' = c ∧ EndsAt slots address ofBreak i?) Action.never := by
  induction slots with
  | nil => exact .answer ⟨rfl, fun r hr => absurd hr (by simp [held])⟩
  | cons first rest ih =>
      cases first with
      | none =>
          simp only [endingAt, Action.ensures_bind, Action.ensures_pure]
          apply (ih hproper).weaken
          rintro i? c' ⟨rfl, hends⟩
          exact ⟨rfl, hends.succ fun r hr => absurd hr (by simp)⟩
      | some r =>
          have hr : r ∈ held (some r :: rest) := List.mem_cons_self
          simp only [endingAt, (hproper r hr).stop?_eq, Action.ensures_bind,
            Action.ensures_checked_some]
          split
          · rename_i hends
            exact .answer ⟨rfl, r, rfl, hends⟩
          · rename_i hnot
            simp only [Action.ensures_bind, Action.ensures_pure]
            apply (ih fun r hr => hproper r (List.mem_cons_of_mem _ hr)).weaken
            rintro i? c' ⟨rfl, hends⟩
            exact ⟨rfl, hends.succ fun r' hr' => Option.some.inj hr' ▸ hnot⟩

/-- The left neighbour that is found, if one is. -/
theorem Valid.ensures_leftNeighbour (h : c.Valid) (opts : ReclaimOptions) :
    Action.Ensures (leftNeighbour range opts) c
      (fun i? c' => c' = c ∧ (∀ i, i? = some i → ∃ l, c.slots[i]? = some (some l) ∧
        l.address + l.len = range.address ∧ l.ofBreak = range.ofBreak) ∧
        (i? = none → c.Unparted range opts → FreeBefore range c.ranges)) Action.never := by
  unfold leftNeighbour
  rw [Action.ensures_ite]
  split
  · rename_i hparts
    exact .answer ⟨rfl, fun i hi => absurd hi (by simp),
      fun _ hunparted r hr _ => hunparted.before hparts r hr⟩
  · simp only [Action.ensures_bind, Action.ensures_get]
    apply (ensures_endingAt h.tidy.proper range.address range.ofBreak).weaken
    rintro i? c' ⟨rfl, hends⟩
    refine ⟨rfl, ?_, ?_⟩
    · rintro i rfl
      exact hends
    · rintro rfl _ r hr hkind hstop
      exact hends r hr ⟨hstop, hkind⟩

theorem ensures_rightNeighbour (hproper : range.Proper) (opts : ReclaimOptions) :
    Action.Ensures (rightNeighbour range opts) c
      (fun j? c' => c' = c ∧ (∀ j, j? = some j → ∃ b, c.slots[j]? = some (some b) ∧
        range.address + range.len = b.address ∧ range.ofBreak = b.ofBreak) ∧
        (j? = none → c.Unparted range opts → FreeBehind range c.ranges)) Action.never := by
  unfold rightNeighbour
  simp only [Action.ensures_bind, Action.ensures_get]
  rw [Action.ensures_ite]
  split
  · rename_i hskips
    refine .answer ⟨rfl, fun j hj => absurd hj (by simp), fun _ hunparted r hr _ => ?_⟩
    rcases Bool.or_eq_true_iff.1 hskips with hparts | hempty
    · exact hunparted.behind hparts r hr
    · exact absurd hr (List.isEmpty_iff.1 hempty ▸ List.not_mem_nil)
  · simp only [startingBehind, hproper.stop?_eq, Action.ensures_bind,
      Action.ensures_checked_some, Action.ensures_pure]
    refine ⟨trivial, fun j hj => ?_, fun hnone _ r hr hkind hstop => ?_⟩
    · obtain ⟨hlt, hany, -⟩ := List.findIdx?_eq_some_iff_getElem.1 hj
      obtain ⟨b, hb, hmatch⟩ := (Option.any_eq_true _ _).1 hany
      rw [Bool.and_eq_true, beq_iff_eq, beq_iff_eq] at hmatch
      refine ⟨b, ?_, hmatch.1.symm, hmatch.2.symm⟩
      rw [List.getElem?_eq_getElem hlt, hb]
    · -- Had the search passed over the range, it would not be behind.
      have hslot : some r ∈ c.slots := mem_held.1 hr
      have hpassed := List.findIdx?_eq_none_iff.1 hnone (some r) hslot
      simp [hstop, hkind] at hpassed

/-! ## Joining -/

/-- `joined`, which is not in the cache, and the ranges of `c'` are `range` and those of `c`;
`range` is not counted yet. -/
structure Joins (c : RangeCache) (range : Range) (opts : ReclaimOptions) (c' : RangeCache)
    (joined : Range) : Prop where
  slots_length : c'.slots.length = cacheSlots
  cachedBytes_eq : c'.cachedBytes = c.cachedBytes
  reshapes : Reshapes (range :: c.ranges) (joined :: c'.ranges)
  address_eq : joined.address = range.address
  kind_eq : joined.ofBreak = range.ofBreak
  subset : c'.ranges ⊆ c.ranges
  behind : c.Unparted range opts → Coalesced c.ranges → FreeBehind joined c'.ranges

theorem ensures_join {behind : Range} (hbehind : behind.Proper)
    (hnext : range.address + range.len = behind.address) :
    Action.Ensures (join range behind) c (fun joined c' => joined = range.joined behind ∧ c' = c)
      Action.never := by
  have hadd : Word.add? range.len behind.len = some (range.len + behind.len) := by
    have hstop := hbehind.stop_le
    rw [Word.add?_eq_some_iff]
    refine ⟨rfl, ?_⟩
    simp only [Word.signedLimit, Word.limit] at hstop ⊢
    omega
  simp only [join, hadd, Action.ensures_bind, Action.ensures_checked_some, Action.ensures_pure]
  exact ⟨rfl, trivial⟩

theorem Valid.ensures_joinRight (h : c.Valid) {j? : Option Nat}
    (hright : ∀ j, j? = some j → ∃ b, c.slots[j]? = some (some b) ∧
      range.address + range.len = b.address ∧ range.ofBreak = b.ofBreak)
    (hnone : j? = none → c.Unparted range opts → FreeBehind range c.ranges) :
    Action.Ensures (joinRight range j?) c
      (fun joined c' => Joins c range opts c' joined ∧
        (∀ (i : Nat) (l : Range), c.slots[i]? = some (some l) → l.address < range.address →
          c'.slots[i]? = some (some l)) ∧
        (joined = range ∧ c' = c ∨ none ∈ c'.slots)) Action.never := by
  cases j? with
  | none =>
      exact .answer ⟨⟨h.slots_length, rfl, Reshapes.refl _, rfl, rfl, List.Subset.refl _,
        fun hunparted _ => hnone rfl hunparted⟩, fun i l hl _ => hl, .inl ⟨rfl, rfl⟩⟩
  | some j =>
      obtain ⟨b, hslot, hnext, hkind⟩ := hright j rfl
      have hj : j < c.slots.length := (List.getElem?_eq_some_iff.1 hslot).1
      simp only [joinRight, Action.ensures_bind, Action.ensures_get, slot?_eq_some hslot,
        Action.ensures_set]
      apply (ensures_join (h.proper hslot) hnext).weaken
      rintro joined c' ⟨rfl, rfl⟩
      have hperm : c.ranges.Perm (b :: held (c.slots.set j none)) := held_perm hslot
      have hsub : held (c.slots.set j none) ⊆ c.ranges := held_set_none_subset hslot
      refine ⟨⟨?_, rfl, ?_, rfl, rfl, hsub, fun _ hcoalesced r hr hsame hstop => ?_⟩, ?_, .inr ?_⟩
      · rw [List.length_set]
        exact h.slots_length
      · exact (Reshapes.of_perm (hperm.cons range)).trans
          ((Reshapes.join hnext hkind).append_right _)
      · -- What starts behind both starts where the one behind ends.
        refine hcoalesced b (hperm.mem_iff.2 List.mem_cons_self) r (hsub hr)
          (hkind.symm.trans hsame.symm) ?_
        rw [← hnext, ← hstop, Nat.add_assoc]
        rfl
      · intro i l hl hlt
        have hij : j ≠ i := by
          rintro rfl
          rw [hslot] at hl
          obtain rfl := Option.some.inj (Option.some.inj hl)
          omega
        rw [List.getElem?_set_ne hij]
        exact hl
      · exact List.mem_set hj none

/-- Putting the joined range into a slot counts what was handed back. -/
theorem Joins.ensures_fillSlot (hjoins : Joins c range opts c' r) {added : Range} {i : Nat}
    {slot : Option Range} (hvalid : c.Valid) (htidy : Tidy (range :: c.ranges))
    (hfits : c.cachedBytes + range.len < Word.limit) (hi : c'.slots[i]? = some slot)
    (hreshapes : Reshapes (r :: slot.toList) [added]) :
    Action.Ensures (fillSlot i added range.len) c'
      (fun _ c'' => c''.Valid ∧ c''.cachedBytes = c.cachedBytes + range.len ∧
        Reshapes (range :: c.ranges) c''.ranges ∧
        (Coalesced (added :: held (c'.slots.set i none)) → Coalesced c''.ranges))
      Action.never := by
  have hlt : i < c'.slots.length := (List.getElem?_eq_some_iff.1 hi).1
  have hadd : Word.add? c'.cachedBytes range.len = some (c.cachedBytes + range.len) := by
    rw [hjoins.cachedBytes_eq, Word.add?_eq_some_iff]
    exact ⟨rfl, hfits⟩
  have hall : Reshapes (range :: c.ranges) (held (c'.slots.set i (some added))) := by
    have hout := Reshapes.of_perm ((held_perm hi).cons r)
    have hmade := hreshapes.append_right (held (c'.slots.set i none))
    have hin := Reshapes.of_perm (held_set_perm hlt (some added)).symm
    exact ((hjoins.reshapes.trans hout).trans hmade).trans hin
  simp only [fillSlot, Action.ensures_bind, Action.ensures_get, hadd,
    Action.ensures_checked_some, Action.ensures_set]
  refine ⟨⟨?_, ?_, hall.tidy htidy⟩, trivial, hall,
    fun hcoalesced => hcoalesced.of_subset (held_set_perm hlt (some added)).subset⟩
  · rw [List.length_set]
    exact hjoins.slots_length
  · have htotal := hall.total_eq
    rw [total_cons, ← hvalid.cachedBytes_eq] at htotal
    show c.cachedBytes + range.len = total (held (c'.slots.set i (some added)))
    omega

/-- What becomes of a range that is handed back and of the cache. -/
structure TakenIn (c : RangeCache) (range : Range) (opts : ReclaimOptions) (bounced : Option Range)
    (c' : RangeCache) : Prop where
  valid : c'.Valid
  cachedBytes_le : c'.cachedBytes ≤ c.cachedBytes + range.len
  reshapes : Reshapes (range :: c.ranges) (bounced.toList ++ c'.ranges)
  coalesced : c.Unparted range opts → Coalesced c.ranges → Coalesced c'.ranges

theorem Joins.ensures_store (hjoins : Joins c range opts c' r) (hvalid : c.Valid)
    (htidy : Tidy (range :: c.ranges)) (hfits : c.cachedBytes + range.len < Word.limit)
    (hsame : r = range ∧ c' = c ∨ none ∈ c'.slots)
    (hbefore : c.Unparted range opts → FreeBefore range c.ranges) :
    Action.Ensures (store r range.len) c' (TakenIn c range opts) Action.never := by
  simp only [store, Action.ensures_bind, Action.ensures_get]
  cases hempty : c'.slots.findIdx? Option.isNone with
  | none =>
      rcases hsame with ⟨rfl, rfl⟩ | hnone
      · exact .answer ⟨hvalid, Nat.le_add_right _ _, Reshapes.refl _, fun _ hcoalesced => hcoalesced⟩
      · have hall := List.findIdx?_eq_none_iff.1 hempty none hnone
        exact absurd hall (by simp)
  | some i =>
      obtain ⟨hlt, hslot, -⟩ := List.findIdx?_eq_some_iff_getElem.1 hempty
      have hi : c'.slots[i]? = some none := by
        rw [List.getElem?_eq_getElem hlt, Option.isNone_iff_eq_none.1 hslot]
      simp only [Action.ensures_bind, Action.ensures_pure]
      apply (hjoins.ensures_fillSlot hvalid htidy hfits hi (Reshapes.refl [r])).weaken
      rintro _ c'' ⟨hvalid', hcount, hreshapes, hmade⟩
      refine ⟨hvalid', Nat.le_of_eq hcount, hreshapes, fun hunparted hcoalesced => hmade ?_⟩
      have hothers : held (c'.slots.set i none) ⊆ c'.ranges := held_set_none_subset hi
      have hpos := (tidy_cons.1 (hjoins.reshapes.tidy htidy)).1.len_pos
      refine (hcoalesced.of_subset (List.Subset.trans hothers hjoins.subset)).cons hpos
        (fun r' hr' hkind => ?_) fun r' hr' => hjoins.behind hunparted hcoalesced r' (hothers hr')
      rw [hjoins.address_eq]
      exact hbefore hunparted r' (hjoins.subset (hothers hr')) (hkind.trans hjoins.kind_eq)

theorem Joins.ensures_joinLeft (hjoins : Joins c range opts c' r) (hvalid : c.Valid)
    (htidy : Tidy (range :: c.ranges)) (hfits : c.cachedBytes + range.len < Word.limit)
    (hsame : r = range ∧ c' = c ∨ none ∈ c'.slots) {i? : Option Nat}
    (hleft : ∀ i, i? = some i → ∃ l, c'.slots[i]? = some (some l) ∧
      l.address + l.len = range.address ∧ l.ofBreak = range.ofBreak)
    (hnone : i? = none → c.Unparted range opts → FreeBefore range c.ranges) :
    Action.Ensures (joinLeft r range.len i?) c' (TakenIn c range opts) Action.never := by
  cases i? with
  | none => exact hjoins.ensures_store hvalid htidy hfits hsame (hnone rfl)
  | some i =>
      obtain ⟨l, hslot, hnext, hkind⟩ := hleft i rfl
      have hall := hjoins.reshapes.tidy htidy
      have hproper : l.Proper := by
        apply (tidy_cons.1 hall).2.2.proper
        exact (held_perm hslot).mem_iff.2 List.mem_cons_self
      rw [← hjoins.address_eq] at hnext
      rw [← hjoins.kind_eq] at hkind
      simp only [joinLeft, Action.ensures_bind, Action.ensures_get, slot?_eq_some hslot,
        Action.ensures_pure]
      apply (ensures_join (tidy_cons.1 hall).1 hnext).weaken
      rintro joined _ ⟨rfl, rfl⟩
      have hmade : Reshapes (r :: (some l).toList) [l.joined r] :=
        (Reshapes.of_perm (List.Perm.swap l r [])).trans (Reshapes.join hnext hkind)
      apply (hjoins.ensures_fillSlot hvalid htidy hfits hslot hmade).weaken
      rintro _ c'' ⟨hvalid', hcount, hreshapes, hput⟩
      refine ⟨hvalid', Nat.le_of_eq hcount, hreshapes, fun hunparted hcoalesced => hput ?_⟩
      have hothers := held_set_none_subset hslot
      have hsub := List.Subset.trans hothers hjoins.subset
      have hin : l ∈ c.ranges := hjoins.subset ((held_perm hslot).mem_iff.2 List.mem_cons_self)
      refine (hcoalesced.of_subset hsub).cons (Nat.lt_of_lt_of_le hproper.len_pos
        (Nat.le_add_right _ _)) (fun r' hr' => hcoalesced r' (hsub hr') l hin) fun r' hr' hsame => ?_
      have hstop : (l.joined r).address + (l.joined r).len = r.address + r.len := by
        rw [← hnext, Nat.add_assoc]
        rfl
      rw [hstop]
      exact hjoins.behind hunparted hcoalesced r' (hothers hr') (hsame.trans hkind)

theorem Valid.ensures_insert (h : c.Valid) (htidy : Tidy (range :: c.ranges))
    (hfits : c.cachedBytes + range.len < Word.limit) (opts : ReclaimOptions) :
    Action.Ensures (insert range opts) c (TakenIn c range opts) Action.never := by
  have hrange := (tidy_cons.1 htidy).1
  simp only [insert, Action.ensures_bind]
  apply (h.ensures_leftNeighbour opts).weaken
  rintro left c₁ ⟨rfl, hleft, hnone⟩
  apply (ensures_rightNeighbour hrange opts).weaken
  rintro right c₁ ⟨rfl, hright, hnone'⟩
  apply (h.ensures_joinRight hright hnone').weaken
  rintro joined c' ⟨hjoins, hkept, hsame⟩
  refine hjoins.ensures_joinLeft h htidy hfits hsame (fun i hi => ?_) hnone
  obtain ⟨l, hslot, hnext, hkind⟩ := hleft i hi
  -- The left neighbour is not the right one, so it is still there.
  have hpos := (h.proper hslot).len_pos
  exact ⟨l, hkept i l hslot (by omega), hnext, hkind⟩

/-- A range that is handed back is too large to be cached, or it is put into the cache, and then
ranges are evicted down to the limit. -/
inductive TakesIn (c : RangeCache) (range : Range) (opts : ReclaimOptions) :
    List Range → RangeCache → Prop where
  | large (hlarge : cacheLimit < range.len) : TakesIn c range opts [range] c
  | inserted {bounced? : Option Range} {c₁ c' : RangeCache} {evicted : List Range}
      (hsmall : range.len ≤ cacheLimit) (hrun : insert range opts c = .ok bounced? c₁)
      (htaken : c.TakenIn range opts bounced? c₁) (hevictions : c₁.Evictions cacheLimit evicted c') :
      TakesIn c range opts (bounced?.toList ++ evicted) c'

theorem ensures_bounced (bounced? : Option Range) (c : RangeCache) :
    Action.Ensures (bounced bounced?) c (fun out c' => out = bounced?.toList ∧ c' = c)
      Action.never := by
  cases bounced? with
  | none => exact .answer ⟨rfl, rfl⟩
  | some r =>
      simp only [bounced, pushEvicted, Action.ensures_bind]
      apply Action.ensures_require (by decide)
      exact .answer ⟨rfl, rfl⟩

theorem Valid.ensures_takeIn (h : c.Valid) (htidy : Tidy (range :: c.ranges))
    (hlimit : c.cachedBytes ≤ cacheLimit) (opts : ReclaimOptions) :
    Action.Ensures (takeIn range opts) c (c.TakesIn range opts) Action.never := by
  unfold takeIn
  rw [Action.ensures_ite]
  split
  · rename_i hlarge
    simp only [pushEvicted, Action.ensures_bind]
    apply Action.ensures_require (by decide)
    exact .answer (.large hlarge)
  · rename_i hsmall
    simp only [Action.ensures_bind]
    apply (h.ensures_insert htidy (by simp only [cacheLimit, Word.limit] at *; omega)
      opts).with_run.weaken
    rintro bounced? c₁ ⟨hrun, htaken⟩
    apply (ensures_bounced bounced? c₁).weaken
    rintro _ _ ⟨rfl, rfl⟩
    have hroom : bounced?.toList.length ≤ 1 := by
      cases bounced? <;> simp
    apply (htaken.valid.ensures_evictDownTo hroom).weaken
    rintro _ c' ⟨evicted, rfl, hevictions⟩
    exact .inserted (Nat.not_lt.1 hsmall) hrun htaken hevictions

namespace TakesIn

variable {evicted : List Range}

theorem valid (h : c.TakesIn range opts evicted c') (hvalid : c.Valid) : c'.Valid := by
  cases h with
  | large => exact hvalid
  | inserted _ _ htaken hevictions => exact hevictions.valid htaken.valid

theorem cachedBytes_le (h : c.TakesIn range opts evicted c') (hlimit : c.cachedBytes ≤ cacheLimit) :
    c'.cachedBytes ≤ cacheLimit := by
  cases h with
  | large => exact hlimit
  | inserted _ _ _ hevictions => exact hevictions.cachedBytes_le

/-- The ranges that have to leave and those that stay are the range and the ranges before. -/
theorem reshapes (h : c.TakesIn range opts evicted c') :
    Reshapes (range :: c.ranges) (evicted ++ c'.ranges) := by
  cases h with
  | large => exact Reshapes.refl _
  | @inserted bounced? c₁ _ more _ _ htaken hevictions =>
      have hperm := hevictions.perm.append_left bounced?.toList
      rw [← List.append_assoc] at hperm
      exact htaken.reshapes.trans (Reshapes.of_perm hperm)

theorem keeps_coalesced (h : c.TakesIn range opts evicted c') (hunparted : c.Unparted range opts)
    (hbefore : Coalesced c.ranges) : Coalesced c'.ranges := by
  cases h with
  | large => exact hbefore
  | inserted _ _ htaken hevictions =>
      exact (htaken.coalesced hunparted hbefore).of_subset hevictions.subset

end TakesIn

end RangeCache
end PagedHeap
