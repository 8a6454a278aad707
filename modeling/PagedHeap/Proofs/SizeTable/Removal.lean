import PagedHeap.Proofs.SizeTable.Probing

/-!
# Closing a hole

A removal leaves a hole, and entries behind it may have been put there because the hole was
in use.  The loop walks on from the hole.  An entry that needs the hole moves into it and
leaves a new hole where it was; an entry that does not need it stays.  The walk ends at the
first empty slot.

While the loop runs the slot of the hole still holds what was there, so no slot looks empty
that was in use.  `Closing` says what holds then: all entries are linked if the hole counts
as in use, and those already passed do not need it.  At the end the hole can be made empty.
-/

namespace PagedHeap
namespace SizeTable

variable {slots : Array (Option SizeEntry)}

/-- The loop that closes `hole`, from slot `j` on and with no bound on it, ends after this
many rounds and leaves these slots. -/
inductive Closes : Nat → Nat → Nat → Array (Option SizeEntry) → Array (Option SizeEntry) → Prop
  | empty {hole j : Nat} {slots : Array (Option SizeEntry)} (h : entryAt slots j = none) :
      Closes 1 hole j slots (slots.setIfInBounds hole none)
  | move {rounds hole j : Nat} {e : SizeEntry} {slots closed : Array (Option SizeEntry)}
      (h : entryAt slots j = some e)
      (hneeds : distance slots.size hole j ≤ distance slots.size (home slots.size e.page) j)
      (hrest : Closes rounds j ((j + 1) % slots.size) (slots.setIfInBounds hole (some e)) closed) :
      Closes (rounds + 1) hole j slots closed
  | pass {rounds hole j : Nat} {e : SizeEntry} {slots closed : Array (Option SizeEntry)}
      (h : entryAt slots j = some e)
      (hfree : ¬distance slots.size hole j ≤ distance slots.size (home slots.size e.page) j)
      (hrest : Closes rounds hole ((j + 1) % slots.size) slots closed) :
      Closes (rounds + 1) hole j slots closed

theorem Closes.closeHole_eq {rounds hole j bound : Nat} {slots closed : Array (Option SizeEntry)}
    (h : Closes rounds hole j slots closed) (hbound : rounds ≤ bound) :
    closeHole bound hole j slots = closed := by
  induction h generalizing bound with
  | empty h =>
      obtain ⟨bound, rfl⟩ : ∃ b, bound = b + 1 := ⟨bound - 1, by omega⟩
      simp only [closeHole, h]
  | move h hneeds _ ih =>
      obtain ⟨bound, rfl⟩ : ∃ b, bound = b + 1 := ⟨bound - 1, by omega⟩
      simp only [closeHole, h, hneeds, if_true]
      exact ih (by omega)
  | pass h hfree _ ih =>
      obtain ⟨bound, rfl⟩ : ∃ b, bound = b + 1 := ⟨bound - 1, by omega⟩
      simp only [closeHole, h, hfree, if_false]
      exact ih (by omega)

/-- The walk from `hole` has passed the slots up to `m` behind it. -/
structure Closing (slots : Array (Option SizeEntry)) (hole m : Nat) : Prop where
  size_eq : ∃ k, slots.size = 2 ^ k
  hole_lt : hole < slots.size
  stale : entryAt slots hole ≠ none
  linked : ∀ i e, i ≠ hole → entryAt slots i = some e → Linked slots i e
  distinct : ∀ i j e e', i ≠ hole → j ≠ hole → entryAt slots i = some e →
    entryAt slots j = some e' → e.page = e'.page → i = j
  passed : ∀ d, 0 < d → d < m → ∀ e, entryAt slots ((hole + d) % slots.size) = some e →
    distance slots.size (home slots.size e.page) ((hole + d) % slots.size) < d

/-- `closed` has the entries of `slots` outside the hole and is in order. -/
structure Closed (slots : Array (Option SizeEntry)) (hole : Nat)
    (closed : Array (Option SizeEntry)) : Prop where
  size_eq : closed.size = slots.size
  linked : ∀ i e, entryAt closed i = some e → Linked closed i e
  distinct : ∀ i j e e', entryAt closed i = some e → entryAt closed j = some e' →
    e.page = e'.page → i = j
  entries : ∀ e, (∃ i, entryAt closed i = some e) ↔ ∃ i, i ≠ hole ∧ entryAt slots i = some e
  occupied : occupied closed + 1 = occupied slots

theorem Closing.home_lt {hole m : Nat} (h : Closing slots hole m) (page : Nat) :
    home slots.size page < slots.size := by
  obtain ⟨k, hk⟩ := h.size_eq
  exact SizeTable.home_lt hk page

/-- The slot `m` behind the hole is another one. -/
theorem Closing.add_mod_ne {hole m : Nat} (h : Closing slots hole m) (hm : 0 < m)
    (hmn : m < slots.size) : (hole + m) % slots.size ≠ hole := by
  intro heq
  have hzero := distance_add h.hole_lt hmn
  have hself := distance_add h.hole_lt (show 0 < slots.size by omega)
  rw [add_zero_mod h.hole_lt] at hself
  rw [heq] at hzero
  omega

/-- At an empty slot no entry needs the hole any more. -/
theorem Closing.linked_erase {hole m : Nat} (h : Closing slots hole m)
    (hempty : entryAt slots ((hole + m) % slots.size) = none)
    {i : Nat} {e : SizeEntry} (hi : i ≠ hole) (he : entryAt slots i = some e) :
    Linked (slots.setIfInBounds hole none) i e := by
  have hlt := lt_size_of_entryAt he
  have hhome := h.home_lt e.page
  have hway := add_distance hhome hlt
  intro d hd
  rw [Array.size_setIfInBounds] at hd ⊢
  rw [entryAt_setIfInBounds]
  split
  · rename_i hhole
    exfalso
    -- The hole is on the way of `e`, `q` slots before `e` itself.
    obtain ⟨q, hdq⟩ : ∃ q, d + q = distance slots.size (home slots.size e.page) i :=
      ⟨_, Nat.add_sub_cancel' (Nat.le_of_lt hd)⟩
    have hq : (hole + q) % slots.size = i := by
      rw [hhole.1, Nat.mod_add_mod, Nat.add_assoc, hdq, hway]
    have hdist := distance_lt (show 0 < slots.size by omega) (home slots.size e.page) i
    subst hq
    rcases Nat.lt_trichotomy q m with hqm | hqm | hqm
    · have := h.passed q (by omega) hqm e he
      omega
    · rw [hqm, hempty] at he
      exact absurd he (by simp)
    · -- The way of `e` leads from the hole across the empty slot.
      have hcross := h.linked _ e hi he (d + m) (by omega)
      apply hcross
      rw [← Nat.add_assoc, ← Nat.mod_add_mod, ← hhole.1]
      exact hempty
  · exact h.linked i e hi he d hd

theorem Closing.closed {hole m : Nat} (h : Closing slots hole m)
    (hempty : entryAt slots ((hole + m) % slots.size) = none) :
    Closed slots hole (slots.setIfInBounds hole none) := by
  have hentry : ∀ i e, entryAt (slots.setIfInBounds hole none) i = some e ↔
      i ≠ hole ∧ entryAt slots i = some e := by
    intro i e
    rw [entryAt_setIfInBounds]
    by_cases hi : hole = i
    · subst hi
      simp [h.hole_lt]
    · simp [hi, Ne.symm hi]
  refine ⟨Array.size_setIfInBounds, ?_, ?_, ?_, ?_⟩
  · intro i e he
    obtain ⟨hi, he⟩ := (hentry i e).1 he
    exact h.linked_erase hempty hi he
  · intro i j e e' he he' hpage
    obtain ⟨hi, he⟩ := (hentry i e).1 he
    obtain ⟨hj, he'⟩ := (hentry j e').1 he'
    exact h.distinct i j e e' hi hj he he' hpage
  · intro e
    exact exists_congr fun i => hentry i e
  · have hcount := occupied_setIfInBounds h.hole_lt none
    rw [if_pos (Option.isSome_iff_ne_none.2 h.stale)] at hcount
    simpa using hcount

/-- The entry in the next slot needs the hole: it moves, and the walk starts anew from where
it was. -/
theorem Closing.move {hole m : Nat} (h : Closing slots hole m) (hm : 0 < m)
    (hmn : m < slots.size) {e : SizeEntry}
    (he : entryAt slots ((hole + m) % slots.size) = some e)
    (hneeds : m ≤ distance slots.size (home slots.size e.page) ((hole + m) % slots.size)) :
    Closing (slots.setIfInBounds hole (some e)) ((hole + m) % slots.size) 1 := by
  have hj := h.add_mod_ne hm hmn
  have hjlt := lt_size_of_entryAt he
  have hhome := h.home_lt e.page
  have hkept : ∀ i, entryAt slots i ≠ none →
      entryAt (slots.setIfInBounds hole (some e)) i ≠ none := by
    intro i hi
    rw [entryAt_setIfInBounds]
    split
    · simp
    · exact hi
  have hentry : ∀ i e', i ≠ (hole + m) % slots.size →
      entryAt (slots.setIfInBounds hole (some e)) i = some e' →
      (i = hole ∧ e' = e) ∨ (i ≠ hole ∧ entryAt slots i = some e') := by
    intro i e' _ he'
    rw [entryAt_setIfInBounds] at he'
    split at he'
    · rename_i hi
      exact .inl ⟨hi.1.symm, (Option.some.inj he').symm⟩
    · rename_i hi
      refine .inr ⟨fun heq => hi ⟨heq.symm, ?_⟩, he'⟩
      exact lt_size_of_entryAt he'
  refine ⟨?_, ?_, ?_, ?_, ?_, ?_⟩
  · rw [Array.size_setIfInBounds]
    exact h.size_eq
  · rw [Array.size_setIfInBounds]
    exact hjlt
  · exact hkept _ (by rw [he]; simp)
  · intro i e' hi he' d hd
    rw [Array.size_setIfInBounds] at hd ⊢
    apply hkept
    rcases hentry i e' hi he' with ⟨rfl, rfl⟩ | ⟨hne, he'⟩
    · -- The way to the hole is the first part of the way to where the entry was.
      apply h.linked _ e' hj he
      have hfarther := distance_add_of_le hhome h.hole_lt hneeds
      omega
    · exact h.linked i e' hne he' d hd
  · intro i j e₁ e₂ hi hj' hnew₁ hnew₂ hpage
    rcases hentry i e₁ hi hnew₁ with ⟨rfl, rfl⟩ | ⟨hne₁, he₁⟩
    · rcases hentry j e₂ hj' hnew₂ with ⟨rfl, -⟩ | ⟨hne₂, he₂⟩
      · rfl
      · exact absurd (h.distinct _ _ _ _ hne₂ hj he₂ he hpage.symm) hj'
    · rcases hentry j e₂ hj' hnew₂ with ⟨rfl, rfl⟩ | ⟨hne₂, he₂⟩
      · exact absurd (h.distinct _ _ _ _ hne₁ hj he₁ he hpage) hi
      · exact h.distinct _ _ _ _ hne₁ hne₂ he₁ he₂ hpage
  · intro d hd hd'
    omega

/-- The entry in the next slot does not need the hole: the walk goes on. -/
theorem Closing.pass {hole m : Nat} (h : Closing slots hole m) {e : SizeEntry}
    (he : entryAt slots ((hole + m) % slots.size) = some e)
    (hfree : distance slots.size (home slots.size e.page) ((hole + m) % slots.size) < m) :
    Closing slots hole (m + 1) := by
  refine ⟨h.size_eq, h.hole_lt, h.stale, h.linked, h.distinct, ?_⟩
  intro d hd hd' e' he'
  rcases Nat.lt_or_ge d m with hlt | hge
  · exact h.passed d hd hlt e' he'
  · obtain rfl : d = m := by omega
    rw [he] at he'
    obtain rfl := Option.some.inj he'
    exact hfree

/-- After a move there are the same entries outside the hole, and as many slots in use. -/
theorem Closed.of_move {hole m : Nat} (h : Closing slots hole m) (hm : 0 < m)
    (hmn : m < slots.size) {e : SizeEntry}
    (he : entryAt slots ((hole + m) % slots.size) = some e)
    {closed : Array (Option SizeEntry)}
    (hclosed : Closed (slots.setIfInBounds hole (some e)) ((hole + m) % slots.size) closed) :
    Closed slots hole closed := by
  have hj := h.add_mod_ne hm hmn
  refine ⟨?_, hclosed.linked, hclosed.distinct, ?_, ?_⟩
  · rw [hclosed.size_eq, Array.size_setIfInBounds]
  · intro e'
    rw [hclosed.entries]
    constructor
    · rintro ⟨i, hi, he'⟩
      rw [entryAt_setIfInBounds] at he'
      split at he'
      · obtain rfl := Option.some.inj he'
        exact ⟨_, hj, he⟩
      · rename_i hne
        exact ⟨i, fun heq => hne ⟨heq.symm, lt_size_of_entryAt he'⟩, he'⟩
    · rintro ⟨i, hi, he'⟩
      by_cases hmoved : i = (hole + m) % slots.size
      · rw [hmoved, he] at he'
        refine ⟨hole, Ne.symm hj, ?_⟩
        rw [entryAt_setIfInBounds, if_pos ⟨rfl, h.hole_lt⟩, he']
      · refine ⟨i, hmoved, ?_⟩
        rw [entryAt_setIfInBounds, if_neg (fun heq => hi heq.1.symm), he']
  · have hcount := occupied_setIfInBounds h.hole_lt (some e)
    rw [if_pos (Option.isSome_iff_ne_none.2 h.stale), Option.isSome_some, if_pos rfl] at hcount
    rw [hclosed.occupied]
    omega

/-- The loop closes the hole.  It ends at the first empty slot, `r` slots ahead. -/
theorem Closing.exists_closes {r hole m : Nat} (h : Closing slots hole m) (hm : 0 < m)
    (hroom : m + r < slots.size)
    (hempty : entryAt slots ((hole + (m + r)) % slots.size) = none)
    (hway : ∀ r', r' < r → entryAt slots ((hole + (m + r')) % slots.size) ≠ none) :
    ∃ closed, Closed slots hole closed ∧
      Closes (r + 1) hole ((hole + m) % slots.size) slots closed := by
  induction r generalizing slots hole m with
  | zero =>
      rw [Nat.add_zero] at hempty
      exact ⟨_, h.closed hempty, .empty hempty⟩
  | succ r ih =>
      have hnext := hway 0 (by omega)
      rw [Nat.add_zero] at hnext
      obtain ⟨e, he⟩ := Option.ne_none_iff_exists'.1 hnext
      have hdist := distance_add h.hole_lt (show m < slots.size by omega)
      by_cases hneeds : m ≤ distance slots.size (home slots.size e.page)
          ((hole + m) % slots.size)
      · have hmove := h.move hm (by omega) he hneeds
        have hslot : ∀ x, ((hole + m) % slots.size + (1 + x)) % slots.size =
            (hole + (m + (x + 1))) % slots.size := by
          intro x
          rw [Nat.mod_add_mod]
          congr 1
          omega
        -- What is ahead is as it was: the hole was in use before and is in use now.
        have hahead : ∀ x, entryAt (slots.setIfInBounds hole (some e)) x = none ↔
            entryAt slots x = none := by
          intro x
          rw [entryAt_setIfInBounds]
          split
          · rename_i hx
            rw [← hx.1]
            exact iff_of_false (by simp) h.stale
          · exact Iff.rfl
        obtain ⟨closed, hclosed, hcloses⟩ := ih hmove (by omega)
          (by rw [Array.size_setIfInBounds]; omega)
          (by rw [Array.size_setIfInBounds, hslot, hahead]; exact hempty)
          (by
            intro r' hr'
            rw [Array.size_setIfInBounds, hslot, Ne, hahead]
            exact hway (r' + 1) (by omega))
        rw [Array.size_setIfInBounds] at hcloses
        exact ⟨closed, hclosed.of_move h hm (by omega) he, .move he (by omega) hcloses⟩
      · obtain ⟨closed, hclosed, hcloses⟩ := ih (h.pass he (by omega)) (by omega) (by omega)
          (by rw [← hempty]; congr 2; omega)
          (by
            intro r' hr'
            rw [show m + 1 + r' = m + (r' + 1) by omega]
            exact hway (r' + 1) (by omega))
        refine ⟨closed, hclosed, .pass he (by omega) ?_⟩
        rw [Nat.mod_add_mod, Nat.add_assoc]
        exact hcloses

/-- In a linked table any slot in use can be cleared, and one turn is enough for it. -/
theorem Sorted.exists_closes (h : Sorted slots) {hole : Nat} {e : SizeEntry}
    (he : entryAt slots hole = some e) :
    ∃ rounds closed, rounds ≤ slots.size ∧ Closed slots hole closed ∧ Sorted closed ∧
      Closes rounds hole ((hole + 1) % slots.size) slots closed := by
  have hlt := lt_size_of_entryAt he
  have hnext : (hole + 1) % slots.size < slots.size := Nat.mod_lt _ (by omega)
  obtain ⟨d, hd, hempty, hway⟩ := exists_first_empty h.room hnext
  have hslot : ∀ x, ((hole + 1) % slots.size + x) % slots.size =
      (hole + (1 + x)) % slots.size := by
    intro x
    rw [Nat.mod_add_mod, Nat.add_assoc]
  rw [hslot] at hempty
  -- One turn leads back to the hole, which is in use.
  have hdn : 1 + d < slots.size := by
    by_contra hge
    have hturn : (hole + (1 + d)) % slots.size = hole := by
      rw [show hole + (1 + d) = hole + slots.size by omega, Nat.add_mod_right,
        Nat.mod_eq_of_lt hlt]
    rw [hturn, he] at hempty
    exact absurd hempty (by simp)
  have hclosing : Closing slots hole 1 :=
    ⟨h.size_eq, hlt, by rw [he]; simp, fun i e _ => h.linked i e,
      fun i j e e' _ _ => h.distinct i j e e', fun d hd hd' => by omega⟩
  obtain ⟨closed, hclosed, hcloses⟩ := hclosing.exists_closes (by omega) hdn hempty
    (fun r' hr' => by rw [← hslot]; exact hway r' hr')
  refine ⟨d + 1, closed, by omega, hclosed, ?_, hcloses⟩
  refine ⟨by rw [hclosed.size_eq]; exact h.size_eq, ?_, hclosed.linked, hclosed.distinct⟩
  have hcount := hclosed.occupied
  have hroom := h.room
  rw [hclosed.size_eq]
  omega

end SizeTable
end PagedHeap
