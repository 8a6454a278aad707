/-!
# Sets of pages as extents

A set of page numbers is kept as the list of its maximal runs, in ascending order.
Because the runs are maximal, a stretch of pages belongs to the set exactly when one
run covers it, and the places where `n` pages fit can be read off the runs.

The separation of the runs is part of the type, so every set is in this form.
`mem_insert` and `mem_erase` give the two updates pointwise; `covers_iff` says that the
cover test answers for the set and not for its representation, and
`lowestFit?_covers` and `highestFit?_covers` that a place found lies in the set.
-/

namespace PagedHeap

/-- The pages from `first` up to, not including, `stop`. -/
structure Extent where
  first : Nat
  stop : Nat
  deriving DecidableEq, Repr

/-- Non-empty extents in ascending order with a gap between any two. -/
def Separated (extents : List Extent) : Prop :=
  (∀ e ∈ extents, e.first < e.stop) ∧ extents.Pairwise (fun a b => a.stop < b.first)

/-- A set of page numbers. -/
structure ExtentSet where
  extents : List Extent
  separated : Separated extents

namespace Extent

/-- Add the pages from `first` to `stop` to ascending extents, joining whatever they touch. -/
def insertInto (first stop : Nat) : List Extent → List Extent
  | [] => [⟨first, stop⟩]
  | e :: rest =>
      if stop < e.first then ⟨first, stop⟩ :: e :: rest
      else if e.stop < first then e :: insertInto first stop rest
      -- The two touch, and what they make together may touch the next extent too.
      else insertInto (min first e.first) (max stop e.stop) rest

/-- What is left of an extent without the pages from `first` to `stop`. -/
def minus (first stop : Nat) (e : Extent) : List Extent :=
  (if e.first < min e.stop first then [⟨e.first, min e.stop first⟩] else []) ++
    (if max e.first stop < e.stop then [⟨max e.first stop, e.stop⟩] else [])

end Extent

namespace ExtentSet

instance : Membership Nat ExtentSet where
  mem s x := ∃ e ∈ s.extents, e.first ≤ x ∧ x < e.stop

theorem mem_def {s : ExtentSet} {x : Nat} :
    x ∈ s ↔ ∃ e ∈ s.extents, e.first ≤ x ∧ x < e.stop := Iff.rfl

theorem mem_insertInto {first stop : Nat} (h : first < stop) (extents : List Extent)
    (nonempty : ∀ e ∈ extents, e.first < e.stop) (x : Nat) :
    (∃ e ∈ Extent.insertInto first stop extents, e.first ≤ x ∧ x < e.stop) ↔
      (first ≤ x ∧ x < stop) ∨ ∃ e ∈ extents, e.first ≤ x ∧ x < e.stop := by
  induction extents generalizing first stop with
  | nil => simp [Extent.insertInto]
  | cons e rest ih =>
    have he := nonempty e (by simp)
    have hrest : ∀ e' ∈ rest, e'.first < e'.stop := fun e' h' => nonempty e' (by simp [h'])
    simp only [Extent.insertInto]
    split
    · simp
    -- Behind the first extent the pages are added to the rest.
    split
    · simp only [List.mem_cons, exists_eq_or_imp, ih h hrest]
      constructor
      · rintro (h | h | h) <;> simp [h]
      · rintro (h | h | h) <;> simp [h]
    · -- The pages between the two belong to one of them, since they touch.
      rw [ih (by omega) hrest]
      simp only [List.mem_cons, exists_eq_or_imp]
      constructor
      · rintro (hx | hx)
        · by_cases h1 : first ≤ x ∧ x < stop
          · exact .inl h1
          · exact .inr (.inl (by omega))
        · exact .inr (.inr hx)
      · rintro (hx | hx | hx)
        · exact .inl (by omega)
        · exact .inl (by omega)
        · exact .inr hx

theorem separated_insertInto {first stop : Nat} (h : first < stop) {extents : List Extent}
    (sep : Separated extents) :
    Separated (Extent.insertInto first stop extents) ∧
      ∀ bound, bound < first → (∀ e ∈ extents, bound < e.first) →
        ∀ e ∈ Extent.insertInto first stop extents, bound < e.first := by
  induction extents generalizing first stop with
  | nil => simp [Extent.insertInto, Separated, h]
  | cons e rest ih =>
    obtain ⟨hne, hpw⟩ := sep
    rw [List.pairwise_cons] at hpw
    have he := hne e (by simp)
    have hrest : Separated rest := ⟨fun e' h' => hne e' (by simp [h']), hpw.2⟩
    simp only [Extent.insertInto]
    split
    · -- In front of the first extent there is a gap already.
      rename_i hlt
      refine ⟨⟨?_, ?_⟩, ?_⟩
      · simp only [List.mem_cons, forall_eq_or_imp]
        exact ⟨h, he, fun e' h' => hne e' (by simp [h'])⟩
      · rw [List.pairwise_cons, List.pairwise_cons]
        refine ⟨?_, hpw.1, hpw.2⟩
        simp only [List.mem_cons, forall_eq_or_imp]
        exact ⟨hlt, fun e' h' => Nat.lt_trans hlt (Nat.lt_trans he (hpw.1 e' h'))⟩
      · intro bound hb hall
        simp only [List.mem_cons, forall_eq_or_imp]
        exact ⟨hb, hall e (by simp), fun e' h' => hall e' (by simp [h'])⟩
    split
    · rename_i hge hlt
      obtain ⟨⟨ihne, ihpw⟩, ihb⟩ := ih h hrest
      refine ⟨⟨?_, ?_⟩, ?_⟩
      · simp only [List.mem_cons, forall_eq_or_imp]
        exact ⟨he, ihne⟩
      · rw [List.pairwise_cons]
        exact ⟨ihb e.stop hlt hpw.1, ihpw⟩
      · intro bound hb hall
        simp only [List.mem_cons, forall_eq_or_imp]
        exact ⟨hall e (by simp), ihb bound hb (fun e' h' => hall e' (by simp [h']))⟩
    · obtain ⟨ihs, ihb⟩ := @ih (min first e.first) (max stop e.stop) (by omega) hrest
      refine ⟨ihs, ?_⟩
      intro bound hb hall
      have := hall e (by simp)
      exact ihb bound (by omega) (fun e' h' => hall e' (by simp [h']))

theorem mem_minus (first stop : Nat) (e : Extent) (x : Nat) :
    (∃ e' ∈ e.minus first stop, e'.first ≤ x ∧ x < e'.stop) ↔
      (e.first ≤ x ∧ x < e.stop) ∧ (x < first ∨ stop ≤ x) := by
  unfold Extent.minus
  split <;> split <;> simp <;> omega

theorem separated_flatMap_minus {first stop : Nat} (proper : first < stop)
    {extents : List Extent} (sep : Separated extents) :
    Separated (extents.flatMap (·.minus first stop)) := by
  have inside : ∀ e : Extent, ∀ e' ∈ e.minus first stop,
      e.first ≤ e'.first ∧ e'.first < e'.stop ∧ e'.stop ≤ e.stop := by
    intro e e' he'
    unfold Extent.minus at he'
    rw [List.mem_append] at he'
    rcases he' with he' | he' <;> split at he' <;> simp at he' <;> subst he' <;> simp <;> omega
  refine ⟨?_, ?_⟩
  · intro e' he'
    obtain ⟨e, _, he'⟩ := List.mem_flatMap.1 he'
    exact (inside e e' he').2.1
  · rw [List.pairwise_flatMap]
    -- The two parts of one extent lie on both sides of what was taken out of it.
    refine ⟨?_, ?_⟩
    · intro e _
      unfold Extent.minus
      split <;> split <;> simp
      omega
    · refine sep.2.imp ?_
      intro a b hab a' ha' b' hb'
      have h1 := inside a a' ha'
      have h2 := inside b b' hb'
      omega

/-- No pages. -/
def empty : ExtentSet := ⟨[], by simp [Separated]⟩

/-- The set with the pages from `first` to `stop`. -/
def insert (first stop : Nat) (s : ExtentSet) : ExtentSet :=
  if h : first < stop then
    ⟨Extent.insertInto first stop s.extents, (separated_insertInto h s.separated).1⟩
  else s

/-- The set without the pages from `first` to `stop`. -/
def erase (first stop : Nat) (s : ExtentSet) : ExtentSet :=
  if h : first < stop then
    ⟨s.extents.flatMap (·.minus first stop),
      separated_flatMap_minus h s.separated⟩
  else s

/-- Whether all pages from `first` to `stop` belong to the set; meant for `first < stop`. -/
def covers (first stop : Nat) (s : ExtentSet) : Bool :=
  s.extents.any fun e => e.first ≤ first && stop ≤ e.stop

/-- The lowest position where `count` pages fit. -/
def lowestFit? (count : Nat) (s : ExtentSet) : Option Nat :=
  (s.extents.find? fun e => e.first + count ≤ e.stop).map Extent.first

/-- The highest position where `count` pages fit. -/
def highestFit? (count : Nat) (s : ExtentSet) : Option Nat :=
  (s.extents.reverse.find? fun e => e.first + count ≤ e.stop).map fun e => e.stop - count

@[simp] theorem not_mem_empty (x : Nat) : ¬ x ∈ empty := by
  simp [mem_def, empty]

@[simp] theorem mem_insert {first stop x : Nat} {s : ExtentSet} :
    x ∈ s.insert first stop ↔ (first ≤ x ∧ x < stop) ∨ x ∈ s := by
  unfold insert
  split
  · rename_i h
    exact mem_insertInto h s.extents s.separated.1 x
  · constructor
    · exact .inr
    · rintro (h | h)
      · omega
      · exact h

@[simp] theorem mem_erase {first stop x : Nat} {s : ExtentSet} :
    x ∈ s.erase first stop ↔ x ∈ s ∧ (x < first ∨ stop ≤ x) := by
  unfold erase
  split
  · simp only [mem_def, List.mem_flatMap]
    constructor
    · rintro ⟨e', ⟨e, he, he'⟩, hx⟩
      have := (mem_minus first stop e x).1 ⟨e', he', hx⟩
      exact ⟨⟨e, he, this.1⟩, this.2⟩
    · rintro ⟨⟨e, he, hx⟩, hout⟩
      obtain ⟨e', he', hx'⟩ := (mem_minus first stop e x).2 ⟨hx, hout⟩
      exact ⟨e', ⟨e, he, he'⟩, hx'⟩
  · constructor
    · exact fun h => ⟨h, by omega⟩
    · exact fun h => h.1

/-- Pages in a row that all belong to the set lie in one extent. -/
theorem exists_extent_of_forall_mem {first stop : Nat} (h : first < stop) {s : ExtentSet}
    (all : ∀ x, first ≤ x → x < stop → x ∈ s) :
    ∃ e ∈ s.extents, e.first ≤ first ∧ stop ≤ e.stop := by
  obtain ⟨e, he, hfirst⟩ := all first (Nat.le_refl _) h
  refine ⟨e, he, hfirst.1, ?_⟩
  by_cases hstop : stop ≤ e.stop
  · exact hstop
  exfalso
  -- The page behind `e` belongs to another extent, although a gap has to be there.
  obtain ⟨e', he', hx⟩ := all e.stop (by omega) (by omega)
  have hpos := s.separated.1
  have hpos' := hpos e' he'
  rcases List.pairwise_iff_getElem.1 s.separated.2 with hpw
  obtain ⟨i, hi, rfl⟩ := List.getElem_of_mem he
  obtain ⟨j, hj, rfl⟩ := List.getElem_of_mem he'
  rcases Nat.lt_trichotomy i j with hij | hij | hij
  · have := hpw i j hi hj hij
    omega
  · subst hij
    omega
  · have := hpw j i hj hi hij
    omega

theorem covers_iff {first stop : Nat} (h : first < stop) {s : ExtentSet} :
    s.covers first stop = true ↔ ∀ x, first ≤ x → x < stop → x ∈ s := by
  unfold covers
  constructor
  · intro hc x h1 h2
    obtain ⟨e, he, hb⟩ := List.any_eq_true.1 hc
    simp only [Bool.and_eq_true, decide_eq_true_eq] at hb
    exact ⟨e, he, by omega⟩
  · intro all
    obtain ⟨e, he, hb⟩ := exists_extent_of_forall_mem h all
    exact List.any_eq_true.2 ⟨e, he, by simp [hb.1, hb.2]⟩

theorem lowestFit?_covers {count position : Nat} {s : ExtentSet}
    (h : s.lowestFit? count = some position) (x : Nat) (h1 : position ≤ x)
    (h2 : x < position + count) : x ∈ s := by
  unfold lowestFit? at h
  obtain ⟨e, he, rfl⟩ := Option.map_eq_some_iff.1 h
  have hfit := List.find?_some he
  simp only [decide_eq_true_eq] at hfit
  exact ⟨e, List.mem_of_find?_eq_some he, by omega⟩

theorem highestFit?_covers {count position : Nat} {s : ExtentSet}
    (h : s.highestFit? count = some position) (x : Nat) (h1 : position ≤ x)
    (h2 : x < position + count) : x ∈ s := by
  unfold highestFit? at h
  obtain ⟨e, he, rfl⟩ := Option.map_eq_some_iff.1 h
  have hfit := List.find?_some he
  simp only [decide_eq_true_eq] at hfit
  exact ⟨e, List.mem_reverse.1 (List.mem_of_find?_eq_some he), by omega⟩

end ExtentSet
end PagedHeap
