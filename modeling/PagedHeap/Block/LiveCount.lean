import PagedHeap.Word

/-!
# Counting the blocks of a run

A run counts its blocks that have not come home.  Giving back more than that is
impossible; what is then left in the counter depends on how it is shared.  A counter
that only one thread uses is left alone.  One that many threads use is lowered first
and looked at afterwards, so a failed release has already wrapped around.
-/

namespace PagedHeap
namespace LiveCount

/-- The number of values of a counter. -/
def modulus : Nat := 2 ^ 32

/-- The count after giving back `n` of `live` blocks, if there are as many. -/
def release (live n : Nat) : Option Nat :=
  if n ≤ live then some (live - n) else none

/-- A release on a counter of one thread: the answer, and what the counter holds. -/
def releaseExclusive (live n : Nat) : Option Nat × Nat :=
  (release live n, if n ≤ live then live - n else live)

/-- A release on a counter of many threads: the answer, and what the counter holds. -/
def releaseShared (live n : Nat) : Option Nat × Nat :=
  (release live n, (live + modulus - n) % modulus)

theorem release_eq_some_iff {live n left : Nat} :
    release live n = some left ↔ left + n = live := by
  unfold release
  split <;> simp <;> omega

/-- Where a release succeeds, sharing makes no difference. -/
theorem releaseShared_eq_releaseExclusive {live n : Nat} (h : n ≤ live)
    (bound : live < modulus) : releaseShared live n = releaseExclusive live n := by
  simp only [releaseShared, releaseExclusive, h, if_true, Prod.mk.injEq, true_and]
  rw [show live + modulus - n = (live - n) + modulus by omega, Nat.add_mod_right,
    Nat.mod_eq_of_lt (by omega)]

end LiveCount
end PagedHeap
