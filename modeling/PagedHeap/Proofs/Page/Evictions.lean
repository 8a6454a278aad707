import Mathlib.Data.List.Perm.Subperm
import PagedHeap.Proofs.Page.Cache

/-!
# Evicting ranges

When the cache holds too many bytes, ranges are taken out of it one at a time until no more are
left than are allowed.  The loop comes to its end: every round empties a slot, and a cache with
too many bytes has a range to give.

The largest range goes first.  So no other choice of fewer ranges would have been enough: whatever
range such a choice has in place of the first one taken out is no larger, and the rest of the choice
falls short of what the later rounds take out.
-/

namespace PagedHeap
namespace RangeCache

open Ranges

variable {c c' : RangeCache} {slots : List (Option Range)} {r : Range} {limit : Nat}
  {evicted : List Range}

/-! ## One round -/

/-- Where a range is replaced by any that is not smaller, the largest is chosen. -/
theorem len_le_of_choose {i : Nat}
    (h : choose (fun _ => true) (fun later r => decide (r.len ≤ later.len)) slots = some (i, r)) :
    ∀ s ∈ held slots, s.len ≤ r.len := by
  induction slots generalizing i r with
  | nil => exact absurd h (by simp [choose])
  | cons first rest ih =>
      cases hrest : choose (fun _ => true) (fun later r => decide (r.len ≤ later.len)) rest with
      | none =>
          have hempty := choose_eq_none hrest
          cases first with
          | none => simp [choose, hrest] at h
          | some candidate =>
              simp only [choose, hrest, Option.map_none, if_true] at h
              obtain ⟨-, rfl⟩ := Prod.mk.inj (Option.some.inj h)
              intro s hs
              rcases List.mem_cons.1 (show s ∈ candidate :: held rest from hs) with rfl | hs
              · exact Nat.le_refl _
              · exact absurd (hempty s hs) (by simp)
      | some found =>
          obtain ⟨j, later⟩ := found
          have hlater := ih hrest
          cases first with
          | none =>
              simp only [choose, hrest, Option.map_some] at h
              obtain ⟨-, rfl⟩ := Prod.mk.inj (Option.some.inj h)
              exact hlater
          | some candidate =>
              simp only [choose, hrest, Option.map_some, Bool.true_and, Bool.not_eq_true',
                decide_eq_false_iff_not, Nat.not_le] at h
              intro s hs
              rcases List.mem_cons.1 (show s ∈ candidate :: held rest from hs) with rfl | hs
              · split at h <;> obtain ⟨-, rfl⟩ := Prod.mk.inj (Option.some.inj h) <;> omega
              · have hle := hlater s hs
                split at h <;> obtain ⟨-, rfl⟩ := Prod.mk.inj (Option.some.inj h) <;> omega

/-- `r`, a range that no other exceeds, was taken out of its slot. -/
structure EvictsLargest (c : RangeCache) (r : Range) (c' : RangeCache) : Prop where
  valid : c'.Valid
  perm : c.ranges.Perm (r :: c'.ranges)
  largest : ∀ s ∈ c.ranges, s.len ≤ r.len
  kept : ∀ i s, c'.slot? i = some s → c.slot? i = some s

theorem slot?_set_none {i j cachedBytes : Nat} {s : Range}
    (h : slot? ⟨c.slots.set i none, cachedBytes⟩ j = some s) : c.slot? j = some s := by
  simp only [slot?, List.getElem?_set] at h ⊢
  split at h
  · split at h <;> simp at h
  · exact h

theorem Valid.ensures_evictLargest (h : c.Valid) :
    Action.Ensures evictLargest c
      (fun range? c' => match range? with
        | none => c' = c ∧ c.ranges = []
        | some r => c.EvictsLargest r c')
      Action.never := by
  unfold evictLargest
  simp only [Action.ensures_bind, Action.ensures_get]
  cases hlargest : c.largest? with
  | none =>
      refine .answer ⟨rfl, List.eq_nil_iff_forall_not_mem.2 fun r hr => ?_⟩
      exact absurd (choose_eq_none hlargest r hr) (by simp)
  | some found =>
      obtain ⟨i, r⟩ := found
      obtain ⟨hslot, -⟩ := choose_eq_some hlargest
      have hle := h.len_le hslot
      have hsub : Word.sub? c.cachedBytes r.len = some (c.cachedBytes - r.len) :=
        Word.sub?_eq_some_iff.2 ⟨hle, rfl⟩
      simp only [Action.ensures_bind, hsub, Action.ensures_checked_some, Action.ensures_set,
        Action.ensures_pure]
      have hcuts : Cuts c r ⟨c.slots.set i none, c.cachedBytes - r.len⟩ :=
        h.cuts_set hslot (Reshapes.refl [r]) (by omega)
          fun hbefore => hbefore.of_subset (List.subset_cons_self _ _)
      exact ⟨hcuts.valid, held_perm hslot, len_le_of_choose hlargest, fun _ _ => slot?_set_none⟩

/-! ## All rounds -/

/-- For as long as more than `limit` bytes were cached, a largest range was taken out. -/
inductive Evictions (limit : Nat) : RangeCache → List Range → RangeCache → Prop where
  | enough {c : RangeCache} (hle : c.cachedBytes ≤ limit) : Evictions limit c [] c
  | round {c c₁ c' : RangeCache} {r : Range} {evicted : List Range} (hover : limit < c.cachedBytes)
      (hrun : evictLargest c = .ok (some r) c₁) (hevicts : c.EvictsLargest r c₁)
      (hrest : Evictions limit c₁ evicted c') : Evictions limit c (r :: evicted) c'

/-- A cache without ranges is within any limit. -/
theorem Valid.cachedBytes_le (h : c.Valid) (hnil : c.ranges = []) (limit : Nat) :
    c.cachedBytes ≤ limit := by
  rw [h.cachedBytes_eq, hnil]
  exact Nat.zero_le limit

/-- Where there are rounds enough for every range, the loop ends because few enough bytes are left
and not because it has run out of rounds. -/
theorem Valid.ensures_evictRounds (h : c.Valid) {rounds : Nat} {before : List Range}
    (hrounds : c.ranges.length ≤ rounds)
    (hroom : before.length + c.ranges.length ≤ cacheSlots + 1) :
    Action.Ensures (evictRounds limit rounds before) c
      (fun out c' => ∃ evicted, out = before ++ evicted ∧ c.Evictions limit evicted c')
      Action.never := by
  induction rounds generalizing c before with
  | zero =>
      have hnil : c.ranges = [] := List.length_eq_zero_iff.1 (Nat.le_zero.1 hrounds)
      exact .answer ⟨[], (List.append_nil before).symm, .enough (h.cachedBytes_le hnil limit)⟩
  | succ rounds ih =>
      unfold evictRounds
      simp only [Action.ensures_bind, Action.ensures_get]
      split
      · rename_i hle
        exact .answer ⟨[], (List.append_nil before).symm, .enough hle⟩
      · rename_i hover
        rw [Action.ensures_bind]
        apply h.ensures_evictLargest.with_run.weaken
        rintro range? c₁ ⟨hrun, hpost⟩
        cases range? with
        | none => exact absurd (h.cachedBytes_le hpost.2 limit) hover
        | some r =>
            have hevicts : c.EvictsLargest r c₁ := hpost
            have hlength := hevicts.perm.length_eq
            rw [List.length_cons] at hlength
            simp only [pushEvicted, Action.ensures_bind]
            apply Action.ensures_require
            · rw [decide_eq_true_iff]
              omega
            rw [Action.ensures_pure]
            have hnext : (before ++ [r]).length + c₁.ranges.length ≤ cacheSlots + 1 := by
              rw [List.length_append, List.length_singleton]
              omega
            apply (ih hevicts.valid (by omega) hnext).weaken
            rintro out c' ⟨evicted, rfl, hrest⟩
            refine ⟨r :: evicted, ?_, .round (Nat.not_le.1 hover) hrun hevicts hrest⟩
            rw [List.append_assoc, List.singleton_append]

theorem Valid.ensures_evictDownTo (h : c.Valid) {before : List Range} (hroom : before.length ≤ 1) :
    Action.Ensures (evictDownTo limit before) c
      (fun out c' => ∃ evicted, out = before ++ evicted ∧ c.Evictions limit evicted c')
      Action.never :=
  have hlength := h.length_ranges_le
  h.ensures_evictRounds hlength (by omega)

namespace Evictions

theorem valid (h : c.Evictions limit evicted c') (hvalid : c.Valid) : c'.Valid := by
  induction h with
  | enough => exact hvalid
  | round _ _ hevicts _ ih => exact ih hevicts.valid

theorem cachedBytes_le (h : c.Evictions limit evicted c') : c'.cachedBytes ≤ limit := by
  induction h with
  | enough hle => exact hle
  | round _ _ _ _ ih => exact ih

theorem perm (h : c.Evictions limit evicted c') : c.ranges.Perm (evicted ++ c'.ranges) := by
  induction h with
  | enough => exact List.Perm.refl _
  | round _ _ hevicts _ ih => exact hevicts.perm.trans (ih.cons _)

/-- What was cached is cached still, or was evicted. -/
theorem cachedBytes_add (h : c.Evictions limit evicted c') (hvalid : c.Valid) :
    c'.cachedBytes + total evicted = c.cachedBytes := by
  have htotal := (Reshapes.of_perm h.perm).total_eq
  rw [total_append] at htotal
  rw [(h.valid hvalid).cachedBytes_eq, hvalid.cachedBytes_eq, ← htotal, Nat.add_comm]

theorem subset (h : c.Evictions limit evicted c') : c'.ranges ⊆ c.ranges :=
  List.Subset.trans (List.subset_append_right _ _) h.perm.symm.subset

theorem kept (h : c.Evictions limit evicted c') (i : Nat) (s : Range)
    (hslot : c'.slot? i = some s) : c.slot? i = some s := by
  induction h with
  | enough => exact hslot
  | round _ _ hevicts _ ih => exact hevicts.kept i s (ih hslot)

theorem idle (h : c.Evictions limit evicted c') (hle : c.cachedBytes ≤ limit) :
    evicted = [] ∧ c' = c := by
  cases h with
  | enough => exact ⟨rfl, rfl⟩
  | round hover => exact absurd hle (Nat.not_le.2 hover)

/-- No choice of fewer ranges would have been enough: without them more bytes are left than
allowed. -/
theorem fewest (h : c.Evictions limit evicted c') (hvalid : c.Valid) {others : List Range}
    (hsub : others.Subperm c.ranges) (hfewer : others.length < evicted.length) :
    limit + total others < c.cachedBytes := by
  induction h generalizing others with
  | enough => exact absurd hfewer (Nat.not_lt_zero _)
  | @round c c₁ c' r evicted hover hrun hevicts hrest ih =>
      have hcount : c.cachedBytes = r.len + c₁.cachedBytes := by
        rw [hvalid.cachedBytes_eq, hevicts.valid.cachedBytes_eq, ← total_cons]
        exact (Reshapes.of_perm hevicts.perm).total_eq.symm
      rw [List.length_cons] at hfewer
      have hsub' : (others.erase r).Subperm c₁.ranges := by
        have herased := (hsub.trans hevicts.perm.subperm).erase r
        rwa [List.erase_cons_head] at herased
      by_cases hin : r ∈ others
      · -- The choice has the largest range too, and the rest of it falls short of the later rounds.
        have hperm := List.perm_cons_erase hin
        have hlength := hperm.length_eq
        have htotal := (Reshapes.of_perm hperm).total_eq
        rw [List.length_cons] at hlength
        rw [total_cons] at htotal
        have hless := ih hevicts.valid hsub' (by omega)
        omega
      · rw [List.erase_of_not_mem hin] at hsub'
        cases others with
        | nil =>
            rw [total_nil]
            omega
        | cons first rest =>
            -- Whatever the choice has in its place is no larger.
            have hle := hevicts.largest first (hsub.subset List.mem_cons_self)
            have hless := ih hevicts.valid ((List.sublist_cons_self first rest).subperm.trans hsub')
              (by rw [List.length_cons] at hfewer; omega)
            rw [total_cons]
            omega

end Evictions

/-- Ranges were evicted down to `limit` bytes, and no more of them than had to be. -/
structure EvictsFewest (limit : Nat) (c : RangeCache) (evicted : List Range) (c' : RangeCache) :
    Prop where
  evictions : c.Evictions limit evicted c'
  valid : c'.Valid
  cachedBytes_le : c'.cachedBytes ≤ limit
  perm : c.ranges.Perm (evicted ++ c'.ranges)
  kept : ∀ i s, c'.slot? i = some s → c.slot? i = some s
  idle : c.cachedBytes ≤ limit → evicted = [] ∧ c' = c
  fewest : ∀ others : List Range, others.Subperm c.ranges → others.length < evicted.length →
    limit + total others < c.cachedBytes

theorem Evictions.evictsFewest (h : c.Evictions limit evicted c') (hvalid : c.Valid) :
    EvictsFewest limit c evicted c' where
  evictions := h
  valid := h.valid hvalid
  cachedBytes_le := h.cachedBytes_le
  perm := h.perm
  kept := h.kept
  idle := h.idle
  fewest _ := h.fewest hvalid

end RangeCache
end PagedHeap
