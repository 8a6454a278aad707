import PagedHeap.Proofs.Heap.Routing

/-!
# Routing at the limits of words

Rounding a size up to an alignment may leave the words.  A request is refused for that reason only
where it has to be: the sum on the way is a word whenever the true rounding is, so whatever the true
rounding allows is served.

No step of a route fails.  `routeInWords?` takes every step in words, with no answer where one of
them leaves the words, and it always answers what `route` does.  What is done later with the size of
a large allocation is safe as well: it can be rounded up to whole pages, and there is room above it
for the alignment.
-/

namespace PagedHeap

variable {size align rounded : Nat} {opts : AllocOptions}

namespace Word

/-- Rounding up fails only if the true rounding is not a word. -/
theorem limit_le_of_alignUp?_eq_none (hpower : isPowerOfTwo align = true) (hpos : 0 < size)
    (hleast : IsLeast {m | size ≤ m ∧ align ∣ m} rounded) (hnone : alignUp? size align = none) :
    limit ≤ rounded := by
  obtain ⟨k, rfl⟩ := isPowerOfTwo_iff.1 hpower
  obtain ⟨⟨hsize, hmultiple⟩, -⟩ := hleast
  rw [alignUp?_two_pow] at hnone
  split at hnone
  · exact absurd hnone (by simp)
  · rename_i hsum
    rcases Nat.lt_or_ge k 64 with hlow | hhigh
    · -- No multiple of the alignment lies between the size and the first number that is no word.
      have hlimit : 2 ^ k ∣ limit := Nat.pow_dvd_pow 2 (Nat.le_of_lt hlow)
      by_contra hless
      have hstep := Nat.le_of_dvd (by omega) (Nat.dvd_sub hlimit hmultiple)
      omega
    · have hlimit : limit ≤ 2 ^ k := Nat.pow_le_pow_right (by decide) hhigh
      exact Nat.le_trans hlimit (Nat.le_of_dvd (by omega) hmultiple)

end Word

/-! ## What a route answers -/

namespace AllocOptions

/-- There is no requirement on the address, or a power of two. -/
def Aligned (opts : AllocOptions) : Prop := opts.align = 0 ∨ ∃ k, opts.align = 2 ^ k

theorem isPowerOfTwo_alignment_iff :
    Word.isPowerOfTwo opts.alignment = true ↔ opts.Aligned := by
  rw [alignment, Aligned]
  split
  · rename_i hzero
    exact iff_of_true (Word.isPowerOfTwo_two_pow 0) (.inl hzero)
  · rename_i hsome
    rw [Word.isPowerOfTwo_iff]
    exact ⟨.inr, fun hor => hor.resolve_left hsome⟩

/-- There is a true rounding of every size, whether or not it is a word. -/
theorem Aligned.exists_rounding (haligned : opts.Aligned) (size : Nat) :
    ∃ rounded, IsLeast {m | size ≤ m ∧ opts.alignment ∣ m} rounded := by
  obtain ⟨k, hpower⟩ := Word.isPowerOfTwo_iff.1 (isPowerOfTwo_alignment_iff.2 haligned)
  have hlt := Nat.mod_lt (size + (2 ^ k - 1)) (Nat.two_pow_pos k)
  rw [hpower]
  exact ⟨size + (2 ^ k - 1) - (size + (2 ^ k - 1)) % 2 ^ k,
    isLeast_multiple (by omega) (Nat.dvd_sub_mod _) (by omega)⟩

end AllocOptions

theorem route_eq_invalidAlignment (hmisaligned : ¬ opts.Aligned) :
    route size opts = .error (.invalidAlignment opts.align) := by
  rw [← AllocOptions.isPowerOfTwo_alignment_iff, Bool.not_eq_true] at hmisaligned
  simp only [route]
  rw [← AllocOptions.alignment, hmisaligned]
  rfl

theorem route_eq_none (haligned : opts.Aligned) : route 0 opts = .ok none := by
  rw [← AllocOptions.isPowerOfTwo_alignment_iff] at haligned
  simp only [route]
  rw [← AllocOptions.alignment, haligned]
  rfl

/-- The true rounding of a size decides on its route. -/
theorem route_eq_ofRounded (haligned : opts.Aligned) (hpos : 0 < size)
    (hleast : IsLeast {m | size ≤ m ∧ opts.alignment ∣ m} rounded) :
    route size opts =
      if rounded < Word.signedLimit then .ok (some (Route.ofRounded rounded opts.alignment))
      else .error (.outOfMemory size) := by
  rw [← AllocOptions.isPowerOfTwo_alignment_iff] at haligned
  simp only [route]
  rw [← AllocOptions.alignment, haligned, if_neg (by decide), if_neg (Nat.pos_iff_ne_zero.1 hpos)]
  cases hanswer : Word.alignUp? size opts.alignment with
  | none =>
      have hlimit := Word.limit_le_of_alignUp?_eq_none haligned hpos hleast hanswer
      have hsigned : Word.signedLimit ≤ Word.limit := by decide
      rw [if_neg (Nat.not_lt.2 (Nat.le_trans hsigned hlimit))]
  | some answer => rw [hleast.unique (isLeast_alignUp? haligned hanswer)]

/-! ## Every step in words -/

/-- The route of a size that is rounded, with no answer where a size is to have a category and has
none. -/
def Route.ofRoundedInWords? (size align : Nat) : Option Route :=
  if smallLimit < size then some (.large size align)
  else ((CategoryNumber.ofSize? size).bind Category.ofNat?).map .small

/-- The route of a request, taken in words step by step: the sum is looked at before the size is
rounded.  There is no answer where a step leaves the words. -/
def routeInWords? (size : Nat) (opts : AllocOptions) :
    Option (Except AllocError (Option Route)) :=
  if !Word.isPowerOfTwo opts.alignment then some (.error (.invalidAlignment opts.align))
  else if size = 0 then some (.ok none)
  else do
    let mask ← Word.sub? opts.alignment 1
    match Word.add? size mask with
    | none => return .error (.outOfMemory size)
    | some _ =>
        let rounded ← Word.alignUp? size opts.alignment
        if rounded < Word.signedLimit then
          return .ok (some (← Route.ofRoundedInWords? rounded opts.alignment))
        else return .error (.outOfMemory size)

/-- A size that is not zero has a category if it is to have one. -/
theorem Route.ofRoundedInWords?_eq_some (hpos : 0 < size) (align : Nat) :
    ofRoundedInWords? size align = some (ofRounded size align) := by
  rw [ofRoundedInWords?, ofRounded]
  split
  · rename_i hlarge
    rw [dif_neg (Nat.not_le.2 hlarge)]
  · rename_i hsmall
    have hfits := Nat.not_lt.1 hsmall
    rw [dif_pos hfits, CategoryNumber.ofSize?, dif_pos ⟨hpos, hfits⟩, Option.bind_some,
      Category.ofNat?_val, Option.map_some]

/-- The sum that is looked at is the one that rounding takes. -/
theorem Word.alignUp?_eq_map (hpower : isPowerOfTwo align = true) (size : Nat) :
    sub? align 1 = some (align - 1) ∧
      alignUp? size align =
        (add? size (align - 1)).map fun reach => clearBits reach (align - 1) := by
  have hmask : sub? align 1 = some (align - 1) :=
    sub?_eq_some_iff.2 ⟨pos_of_isPowerOfTwo hpower, rfl⟩
  refine ⟨hmask, ?_⟩
  rw [alignUp?, hmask, Option.bind_eq_bind, Option.bind_some]
  exact Option.map_eq_bind.symm

/-- No step of a route leaves the words. -/
theorem routeInWords?_eq_some (size : Nat) (opts : AllocOptions) :
    routeInWords? size opts = some (route size opts) := by
  unfold routeInWords? route
  dsimp only
  rw [← AllocOptions.alignment]
  split
  · rfl
  · rename_i hmisaligned
    have hpower : Word.isPowerOfTwo opts.alignment = true := by simpa using hmisaligned
    split
    · rfl
    · rename_i hsize
      obtain ⟨hmask, hround⟩ := Word.alignUp?_eq_map hpower size
      rw [hmask, Option.bind_eq_bind, Option.bind_some]
      cases hreach : Word.add? size (opts.alignment - 1) with
      | none =>
          rw [hreach, Option.map_none] at hround
          rw [hround]
          rfl
      | some reach =>
          rw [hreach, Option.map_some] at hround
          have hle := (isLeast_alignUp? hpower hround).1.1
          rw [hround, Option.bind_eq_bind, Option.bind_some,
            Route.ofRoundedInWords?_eq_some (Nat.lt_of_lt_of_le (Nat.pos_of_ne_zero hsize) hle)]
          dsimp only
          split
          · rfl
          · rfl

/-! ## Exactness -/

/-- What is done with a large allocation stays in words: its size can be rounded up to whole pages,
and there is room above it for an alignment above a page. -/
theorem route_large_words (hroute : route size opts = .ok (some (.large rounded align))) :
    ∃ len, pageCeil? rounded = some len ∧ IsLeast {m | rounded ≤ m ∧ pageSize ∣ m} len ∧
      Word.add? len (align - pageSize) = some (len + (align - pageSize)) := by
  obtain ⟨len, hceil⟩ := exists_pageCeil? hroute
  obtain ⟨-, hmod, hle, hlt⟩ := pageCeil?_eq_some_iff.1 hceil
  refine ⟨len, hceil, isLeast_multiple hle (Nat.dvd_of_mod_eq_zero hmod) hlt, ?_⟩
  obtain ⟨hpos, -, rounded', hleast, hlimit, htarget⟩ := route_eq_some hroute
  rw [Route.ofRounded] at htarget
  split at htarget
  · exact absurd htarget (by simp)
  · obtain ⟨rfl, rfl⟩ := Route.large.inj htarget
    -- The size is a multiple of the alignment, so the alignment is not above it.
    have halign := Nat.le_of_dvd (Nat.lt_of_lt_of_le hpos hleast.1.1) hleast.1.2
    have hroom : Word.signedLimit + Word.signedLimit = Word.limit := by decide
    have hpage : pageSize ≤ Word.signedLimit := by decide
    rw [Word.add?_eq_some_iff]
    omega

/-- The category of a size is the least with room for it. -/
theorem Category.isLeast_ofSize (fits : size ≤ smallLimit) :
    IsLeast {c : Category | size ≤ c.blockSize} (ofSize size fits) := by
  refine ⟨(isLeast_blockSize_ofSize fits).1.1, fun c hc => ?_⟩
  rw [Set.mem_ofPred_eq, blockSize_eq] at hc
  exact (ofSize_le_iff fits c.val).2 hc

/-- A bad alignment is named if there is one, and only then. -/
theorem route_eq_invalidAlignment_iff (size a : Nat) (opts : AllocOptions) :
    route size opts = .error (.invalidAlignment a) ↔ a = opts.align ∧ ¬ opts.Aligned := by
  by_cases haligned : opts.Aligned
  · refine iff_of_false (fun hroute => ?_) fun hboth => hboth.2 haligned
    rcases Nat.eq_zero_or_pos size with rfl | hpos
    · rw [route_eq_none haligned] at hroute
      cases hroute
    · obtain ⟨rounded, hleast⟩ := haligned.exists_rounding size
      rw [route_eq_ofRounded haligned hpos hleast] at hroute
      split at hroute
      · cases hroute
      · cases hroute
  · rw [route_eq_invalidAlignment haligned]
    constructor
    · rintro ⟨⟩
      exact ⟨rfl, haligned⟩
    · rintro ⟨rfl, -⟩
      rfl

/-- A request goes nowhere if it is empty, and only then. -/
theorem route_eq_none_iff (haligned : opts.Aligned) : route size opts = .ok none ↔ size = 0 := by
  constructor
  · intro hroute
    by_contra hsize
    obtain ⟨rounded, hleast⟩ := haligned.exists_rounding size
    rw [route_eq_ofRounded haligned (Nat.pos_of_ne_zero hsize) hleast] at hroute
    split at hroute
    · cases hroute
    · cases hroute
  · rintro rfl
    exact route_eq_none haligned

/-- What is asked for cannot be had if the true rounding is above the bound for offsets, and only
then. -/
theorem route_eq_outOfMemory_iff (haligned : opts.Aligned) (hpos : 0 < size)
    (hleast : IsLeast {m | size ≤ m ∧ opts.alignment ∣ m} rounded) (n : Nat) :
    route size opts = .error (.outOfMemory n) ↔ n = size ∧ Word.signedLimit ≤ rounded := by
  rw [route_eq_ofRounded haligned hpos hleast]
  split
  · rename_i hbelow
    exact iff_of_false (fun hroute => by cases hroute) fun hboth => Nat.not_lt.2 hboth.2 hbelow
  · rename_i habove
    constructor
    · rintro ⟨⟩
      exact ⟨rfl, Nat.not_lt.1 habove⟩
    · rintro ⟨rfl, -⟩
      rfl

/-- Whatever the size and the alignment, no step of a route leaves the words, and a request is
routed as its true rounding says.  A bad alignment is found out first, then an empty request, then a
rounding above the bound for offsets.  Any other request goes where its rounding belongs; and what
is done with the size of a large allocation stays in words. -/
theorem route_follows_rounding (size : Nat) (opts : AllocOptions) :
    routeInWords? size opts = some (route size opts) ∧
      (∀ a, route size opts = .error (.invalidAlignment a) ↔ a = opts.align ∧ ¬ opts.Aligned) ∧
      (opts.Aligned → (route size opts = .ok none ↔ size = 0)) ∧
      (opts.Aligned → 0 < size →
        ∃ rounded, IsLeast {m | size ≤ m ∧ opts.alignment ∣ m} rounded ∧
          (∀ n, route size opts = .error (.outOfMemory n) ↔ n = size ∧ 2 ^ 63 - 1 < rounded) ∧
          (rounded ≤ 2 ^ 63 - 1 → smallLimit < rounded →
            route size opts = .ok (some (.large rounded opts.alignment))) ∧
          (rounded ≤ 2 ^ 63 - 1 → rounded ≤ smallLimit →
            ∃ c, IsLeast {c : Category | rounded ≤ c.blockSize} c ∧
              route size opts = .ok (some (.small c)))) ∧
      ∀ rounded align, route size opts = .ok (some (.large rounded align)) →
        ∃ len, pageCeil? rounded = some len ∧ IsLeast {m | rounded ≤ m ∧ pageSize ∣ m} len ∧
          Word.add? len (align - pageSize) = some (len + (align - pageSize)) := by
  refine ⟨routeInWords?_eq_some size opts, fun a => route_eq_invalidAlignment_iff size a opts,
    route_eq_none_iff, fun haligned hpos => ?_, fun rounded align => route_large_words⟩
  obtain ⟨rounded, hleast⟩ := haligned.exists_rounding size
  have hlimit : Word.signedLimit = 2 ^ 63 - 1 + 1 := by decide
  refine ⟨rounded, hleast, fun n => ?_, fun hbound hlarge => ?_, fun hbound hsmall => ?_⟩
  · rw [route_eq_outOfMemory_iff haligned hpos hleast, hlimit, Nat.succ_le_iff]
  · rw [route_eq_ofRounded haligned hpos hleast, hlimit, if_pos (Nat.lt_succ_of_le hbound),
      Route.ofRounded, dif_neg (Nat.not_le.2 hlarge)]
  · refine ⟨Category.ofSize rounded hsmall, Category.isLeast_ofSize hsmall, ?_⟩
    rw [route_eq_ofRounded haligned hpos hleast, hlimit, if_pos (Nat.lt_succ_of_le hbound),
      Route.ofRounded, dif_pos hsmall]

/-- The last size that is served, and the same size with an alignment that takes it too far. -/
example : route (2 ^ 63 - 1) {} = .ok (some (.large (2 ^ 63 - 1) 1)) := by decide

example : route (2 ^ 63 - 1) { align := 2 } = .error (.outOfMemory (2 ^ 63 - 1)) := by decide

end PagedHeap
