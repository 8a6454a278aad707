import PagedHeap.Word

/-!
# Bytes as runs

A stretch of memory mostly repeats a few bytes, so it is kept as a list of runs
`(count, byte)`.  `toList` spells the runs out and is what every operation is stated
through.  `compact` gives the shortest list of runs with the same bytes.

The module also has the little-endian coding of numbers, the form in which list nodes
and headers are kept in memory.
-/

namespace PagedHeap

/-- Bytes as a list of runs. -/
abbrev ByteRuns : Type := List (Nat × UInt8)

namespace ByteRuns

/-- The bytes one by one. -/
def toList (runs : ByteRuns) : List UInt8 :=
  runs.flatMap fun run => List.replicate run.1 run.2

/-- The number of bytes. -/
def size : ByteRuns → Nat
  | [] => 0
  | (count, _) :: rest => count + size rest

/-- The first `n` bytes. -/
def takeBytes (n : Nat) : ByteRuns → ByteRuns
  | [] => []
  | (count, byte) :: rest =>
      if n = 0 then []
      else if n ≤ count then [(n, byte)]
      else (count, byte) :: takeBytes (n - count) rest

/-- The bytes after the first `n`. -/
def dropBytes (n : Nat) : ByteRuns → ByteRuns
  | [] => []
  | (count, byte) :: rest =>
      if n < count then (count - n, byte) :: rest else dropBytes (n - count) rest

/-- One run per byte. -/
def ofBytes (bytes : List UInt8) : ByteRuns :=
  bytes.map fun byte => (1, byte)

/-- The shortest list of runs: none is empty and neighbours differ. -/
def compact : ByteRuns → ByteRuns
  | [] => []
  | (count, byte) :: rest =>
      if count = 0 then compact rest
      else
        match compact rest with
        | [] => [(count, byte)]
        | (next, other) :: tail =>
            if byte = other then (count + next, byte) :: tail
            else (count, byte) :: (next, other) :: tail

@[simp] theorem toList_nil : toList [] = [] := rfl

@[simp] theorem toList_cons (count : Nat) (byte : UInt8) (rest : ByteRuns) :
    toList ((count, byte) :: rest) = List.replicate count byte ++ toList rest := rfl

@[simp] theorem toList_append (a b : ByteRuns) : toList (a ++ b) = toList a ++ toList b := by
  simp [toList]

@[simp] theorem length_toList (runs : ByteRuns) : runs.toList.length = runs.size := by
  induction runs with
  | nil => rfl
  | cons run rest ih =>
    obtain ⟨count, byte⟩ := run
    simp [size, ih]

@[simp] theorem size_append (a b : ByteRuns) : size (a ++ b) = size a + size b := by
  simp [← length_toList]

theorem toList_takeBytes (n : Nat) (runs : ByteRuns) :
    (takeBytes n runs).toList = runs.toList.take n := by
  induction runs generalizing n with
  | nil => simp [takeBytes]
  | cons run rest ih =>
    obtain ⟨count, byte⟩ := run
    simp only [takeBytes]
    split
    · simp [*]
    split
    · simp [List.take_append, *, Nat.sub_eq_zero_of_le]
    · rename_i h
      simp only [toList_cons, ih, List.take_append, List.length_replicate, List.take_replicate]
      rw [Nat.min_eq_right (by omega)]

theorem toList_dropBytes (n : Nat) (runs : ByteRuns) :
    (dropBytes n runs).toList = runs.toList.drop n := by
  induction runs generalizing n with
  | nil => simp [dropBytes]
  | cons run rest ih =>
    obtain ⟨count, byte⟩ := run
    simp only [dropBytes]
    split
    · rename_i h
      simp only [toList_cons, List.drop_append, List.length_replicate, List.drop_replicate]
      rw [Nat.sub_eq_zero_of_le (Nat.le_of_lt h)]
      simp
    · rename_i h
      simp only [toList_cons, ih, List.drop_append, List.length_replicate, List.drop_replicate]
      rw [show count - n = 0 by omega]
      simp

theorem size_takeBytes (n : Nat) (runs : ByteRuns) :
    (takeBytes n runs).size = min n runs.size := by
  rw [← length_toList, toList_takeBytes, List.length_take, length_toList]

theorem size_dropBytes (n : Nat) (runs : ByteRuns) :
    (dropBytes n runs).size = runs.size - n := by
  rw [← length_toList, toList_dropBytes, List.length_drop, length_toList]

@[simp] theorem toList_ofBytes (bytes : List UInt8) : (ofBytes bytes).toList = bytes := by
  induction bytes with
  | nil => rfl
  | cons byte rest ih => simpa [ofBytes, toList] using ih

@[simp] theorem size_ofBytes (bytes : List UInt8) : (ofBytes bytes).size = bytes.length := by
  rw [← length_toList, toList_ofBytes]

/-- Compacting keeps the bytes. -/
theorem toList_compact (runs : ByteRuns) : (compact runs).toList = runs.toList := by
  induction runs with
  | nil => rfl
  | cons run rest ih =>
    obtain ⟨count, byte⟩ := run
    simp only [compact]
    split
    · rename_i h
      simp [h, ih]
    · rw [toList_cons, ← ih]
      split
      · rename_i h
        simp [h]
      · rename_i next other tail h
        rw [h]
        split
        · rename_i heq
          subst heq
          simp [← List.append_assoc]
        · simp

end ByteRuns

namespace LittleEndian

/-- The `width` low bytes of a number, least significant first. -/
def encode : Nat → Nat → List UInt8
  | 0, _ => []
  | width + 1, n => UInt8.ofNat n :: encode width (n / 256)

/-- The number that bytes stand for. -/
def decode : List UInt8 → Nat
  | [] => 0
  | byte :: rest => byte.toNat + 256 * decode rest

@[simp] theorem length_encode (width n : Nat) : (encode width n).length = width := by
  induction width generalizing n with
  | zero => rfl
  | succ width ih => simp [encode, ih]

theorem decode_encode (width n : Nat) : decode (encode width n) = n % 256 ^ width := by
  induction width generalizing n with
  | zero => simp [encode, decode, Nat.mod_one]
  | succ width ih =>
    simp only [encode, decode, ih, Nat.pow_succ]
    rw [Nat.mul_comm (256 ^ width) 256, Nat.mod_mul]
    simp

theorem decode_lt (bytes : List UInt8) : decode bytes < 256 ^ bytes.length := by
  induction bytes with
  | nil => simp [decode]
  | cons byte rest ih =>
    have := byte.toNat_lt
    simp only [decode, List.length_cons, Nat.pow_succ]
    omega

end LittleEndian
end PagedHeap
