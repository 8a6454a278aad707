/-!
# Machine words

Addresses and sizes are natural numbers below `2 ^ 64`.  Arithmetic on them is
checked: `add?`, `sub?` and `mul?` answer `none` exactly when the true result is
not a word.  Rounding is defined on top of that, so `alignUp?` also says when
rounding leaves the range.

Where a counter is meant to wrap around, it is a `UInt64` and does not use this
module.
-/

namespace PagedHeap

/-- Powers of numbers are the ones of `Nat` itself in every module of the library, whether or not
the module knows numbers as a monoid. -/
@[default_instance 20000]
instance (priority := 2000) natPow : Pow Nat Nat := instPowNat

namespace Word

/-- The number of machine words. -/
def limit : Nat := 2 ^ 64

/-- Offsets and displacements stay below this bound. -/
def signedLimit : Nat := 2 ^ 63

/-- The sum, if it is a word. -/
def add? (a b : Nat) : Option Nat :=
  if a + b < limit then some (a + b) else none

/-- The difference, if it is not negative. -/
def sub? (a b : Nat) : Option Nat :=
  if b ≤ a then some (a - b) else none

/-- The product, if it is a word. -/
def mul? (a b : Nat) : Option Nat :=
  if a * b < limit then some (a * b) else none

/-- One of the numbers `1, 2, 4, 8, …`. -/
def isPowerOfTwo (n : Nat) : Bool :=
  n == 2 ^ n.log2

/-- `x` with the bits of `mask` cleared. -/
def clearBits (x mask : Nat) : Nat :=
  x - (x &&& mask)

/-- `x` rounded up to a multiple of `align`, which is meant to be a power of two.
The sum `x + (align - 1)` has to be a word, also where the rounded value is one. -/
def alignUp? (x align : Nat) : Option Nat := do
  let mask ← sub? align 1
  let reach ← add? x mask
  return clearBits reach mask

theorem add?_eq_some_iff {a b c : Nat} : add? a b = some c ↔ a + b = c ∧ c < limit := by
  unfold add?
  split <;> simp <;> omega

theorem add?_eq_none_iff {a b : Nat} : add? a b = none ↔ limit ≤ a + b := by
  unfold add?
  split <;> simp <;> omega

theorem sub?_eq_some_iff {a b c : Nat} : sub? a b = some c ↔ b ≤ a ∧ a - b = c := by
  unfold sub?
  split <;> simp <;> omega

theorem sub?_eq_none_iff {a b : Nat} : sub? a b = none ↔ a < b := by
  unfold sub?
  split <;> simp <;> omega

theorem mul?_eq_some_iff {a b c : Nat} : mul? a b = some c ↔ a * b = c ∧ c < limit := by
  unfold mul?
  split <;> simp <;> omega

theorem isPowerOfTwo_two_pow (k : Nat) : isPowerOfTwo (2 ^ k) = true := by
  simp [isPowerOfTwo]

theorem isPowerOfTwo_iff {n : Nat} : isPowerOfTwo n = true ↔ ∃ k, n = 2 ^ k := by
  constructor
  · intro h
    exact ⟨n.log2, by simpa [isPowerOfTwo] using h⟩
  · rintro ⟨k, rfl⟩
    exact isPowerOfTwo_two_pow k

/-- Clearing the bits below `2 ^ k` leaves the multiple of `2 ^ k` at or below `x`. -/
theorem clearBits_two_pow_sub_one (x k : Nat) :
    clearBits x (2 ^ k - 1) = x - x % 2 ^ k := by
  rw [clearBits, Nat.and_two_pow_sub_one_eq_mod]

/-- Rounding to a power of two gives the next multiple, whenever the sum on the way is a word. -/
theorem alignUp?_two_pow (x k : Nat) :
    alignUp? x (2 ^ k) =
      if x + (2 ^ k - 1) < limit then
        some (x + (2 ^ k - 1) - (x + (2 ^ k - 1)) % 2 ^ k)
      else none := by
  have hpos : 1 ≤ 2 ^ k := Nat.one_le_two_pow
  simp only [alignUp?, sub?, hpos, if_true, add?]
  by_cases h : x + (2 ^ k - 1) < limit <;> simp [h, clearBits_two_pow_sub_one]

end Word
end PagedHeap
