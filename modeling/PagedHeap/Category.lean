import PagedHeap.Geometry

/-!
# Size categories

Blocks come in seven sizes, `16 * 2 ^ c` bytes for the categories `c` from 0 to 6.
The largest is a quarter of a page, so a page of blocks yields at least three after
the slot that its header takes.

Two views are given.  `Category` is the type of the seven categories and its functions
are total.  `CategoryNumber` holds the same rules for any number that may stand for a
category or a size, with `none` where the arithmetic behind them has no answer.
-/

namespace PagedHeap

/-- The number of categories. -/
def categoryCount : Nat := 7

/-- The highest category. -/
def maxCategory : Nat := 6

/-- A category of blocks. -/
abbrev Category : Type := Fin 7

namespace Category

/-- The size of a block. -/
def blockSize (c : Category) : Nat := minSize <<< c.val

/-- The number of blocks in a page; the slot at the start of the page is the header's. -/
def blocksPerPage (c : Category) : Nat := pageSize / c.blockSize - 1

/-- All categories, smallest blocks first. -/
def all : List Category := List.finRange 7

/-- The category of a number, if it is one. -/
def ofNat? (n : Nat) : Option Category :=
  if h : n < 7 then some ⟨n, h⟩ else none

/-- The least category whose blocks hold `size` bytes, for a size from 1 to `smallLimit`. -/
def ofSize (size : Nat) (fits : size ≤ smallLimit) : Category :=
  ⟨Nat.log2 ((size - 1) ||| (minSize - 1)) - 3, by
    -- Setting the low four bits keeps the logarithm from 3 to 9.
    have hlow : (size - 1) ||| (minSize - 1) < 2 ^ 10 := by
      apply Nat.or_lt_two_pow
      · simp only [smallLimit] at fits; omega
      · decide
    have hpos : (size - 1) ||| (minSize - 1) ≠ 0 := by
      have : minSize - 1 ≤ (size - 1) ||| (minSize - 1) := Nat.right_le_or
      simp only [minSize] at this ⊢
      omega
    have := (Nat.log2_lt hpos).2 hlow
    omega⟩

theorem blockSize_eq (c : Category) : c.blockSize = 16 * 2 ^ c.val := by
  simp [blockSize, minSize, Nat.shiftLeft_eq]

theorem blockSize_pos (c : Category) : 0 < c.blockSize := by
  rw [blockSize_eq]
  exact Nat.mul_pos (by decide) (Nat.two_pow_pos _)

theorem blockSize_dvd_pageSize (c : Category) : c.blockSize ∣ pageSize := by
  revert c
  decide

theorem minSize_dvd_blockSize (c : Category) : minSize ∣ c.blockSize := by
  rw [blockSize_eq]
  exact Nat.dvd_mul_right _ _

/-- Header slot and blocks fill the page exactly. -/
theorem blocksPerPage_succ_mul (c : Category) :
    (c.blocksPerPage + 1) * c.blockSize = pageSize := by
  revert c
  decide

theorem three_le_blocksPerPage (c : Category) : 3 ≤ c.blocksPerPage := by
  revert c
  decide

theorem blocksPerPage_lt_cacheCeiling (c : Category) : c.blocksPerPage < cacheCeiling := by
  revert c
  decide

theorem ofNat?_val (c : Category) : ofNat? c.val = some c := by
  simp [ofNat?, c.isLt]

theorem val_of_ofNat? {c : Category} {n : Nat} (h : ofNat? n = some c) : c.val = n := by
  unfold ofNat? at h
  split at h
  · exact congrArg Fin.val (Option.some.inj h).symm
  · exact absurd h (by simp)

theorem ofNat?_eq_none_iff {n : Nat} : ofNat? n = none ↔ maxCategory < n := by
  unfold ofNat? maxCategory
  split <;> simp <;> omega

end Category

namespace CategoryNumber

/-- The block size that belongs to a category number.  A shift by the width of a word or
more has no answer; bits shifted out are dropped. -/
def blockSize? (category : Nat) : Option Nat :=
  if category < 64 then some ((minSize <<< category) % Word.limit) else none

/-- The category number of a size, which has to be from 1 to `smallLimit`. -/
def ofSize? (size : Nat) : Option Nat :=
  if h : 0 < size ∧ size ≤ smallLimit then some (Category.ofSize size h.2).val else none

/-- The number of blocks in a page; there is none if a block does not fit or is empty. -/
def blocksPerPage? (category : Nat) : Option Nat := do
  let size ← blockSize? category
  if size = 0 then none else Word.sub? (pageSize / size) 1

theorem blockSize?_val (c : Category) : blockSize? c.val = some c.blockSize := by
  revert c
  decide

theorem blocksPerPage?_val (c : Category) : blocksPerPage? c.val = some c.blocksPerPage := by
  revert c
  decide

end CategoryNumber
end PagedHeap
