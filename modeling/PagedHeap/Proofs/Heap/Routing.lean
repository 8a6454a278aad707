import PagedHeap.Heap.Route
import PagedHeap.Proofs.Block.Runs
import PagedHeap.Proofs.Page.Obtaining

/-!
# Where a request goes

A route fits the request that is served along it: a block of its category has the size and the
alignment asked for, and so has a range of pages of its size and alignment.  The size is never
less than asked for, since it is only ever rounded up.
-/

namespace PagedHeap

/-- A multiple that is no more than a step above is the least. -/
theorem isLeast_multiple {size align rounded : Nat} (hle : size ≤ rounded) (hdvd : align ∣ rounded)
    (hlt : rounded < size + align) : IsLeast {m | size ≤ m ∧ align ∣ m} rounded := by
  refine ⟨⟨hle, hdvd⟩, fun m hm => ?_⟩
  obtain ⟨hsize, hmultiple⟩ := hm
  by_contra hless
  have hstep : m + align ≤ rounded := by
    have hdiff := Nat.le_of_dvd (by omega) (Nat.dvd_sub hdvd hmultiple)
    omega
  omega

namespace Category

variable {size : Nat}

/-- The categories from that of a size on are those with room for it. -/
theorem ofSize_le_iff (fits : size ≤ smallLimit) (d : Nat) :
    (ofSize size fits).val ≤ d ↔ size ≤ minSize * 2 ^ d := by
  obtain ⟨low, hlow⟩ : ∃ low, low = (size - 1) ||| (minSize - 1) := ⟨_, rfl⟩
  have hsize : size - 1 ≤ low := by
    rw [hlow]
    exact Nat.left_le_or
  have hmin : 15 ≤ low := by
    rw [hlow]
    exact Nat.right_le_or
  have hvalue : (ofSize size fits).val = low.log2 - 3 := by
    rw [hlow]
    rfl
  have hpower : minSize * 2 ^ d = 2 ^ (d + 4) := by
    rw [Nat.pow_add, Nat.mul_comm]
    rfl
  have hlog := Nat.log2_lt (n := low) (k := d + 4) (by omega)
  rw [hvalue, hpower]
  constructor
  · intro hle
    have hlt := hlog.1 (by omega)
    omega
  · intro hle
    have hroom : 2 ^ 4 ≤ 2 ^ (d + 4) := Nat.pow_le_pow_right (by decide) (Nat.le_add_left 4 d)
    have hlt : low < 2 ^ (d + 4) := by
      rw [hlow]
      exact Nat.or_lt_two_pow (by omega) (Nat.lt_of_lt_of_le (by decide) hroom)
    have hlt' := hlog.2 hlt
    omega

/-- The category of a size has the smallest blocks that have room for it. -/
theorem isLeast_blockSize_ofSize (fits : size ≤ smallLimit) :
    IsLeast {m | size ≤ m ∧ ∃ c, m = minSize * 2 ^ c} (ofSize size fits).blockSize := by
  rw [blockSize_eq]
  refine ⟨⟨(ofSize_le_iff fits _).1 (Nat.le_refl _), _, rfl⟩, fun m hm => ?_⟩
  obtain ⟨hle, c, rfl⟩ := hm
  have hcategory := (ofSize_le_iff fits c).2 hle
  exact Nat.mul_le_mul_left minSize (Nat.pow_le_pow_right (by decide) hcategory)

theorem isPowerOfTwo_blockSize (c : Category) : Word.isPowerOfTwo c.blockSize = true := by
  revert c
  decide

theorem blockSize_le_smallLimit (c : Category) : c.blockSize ≤ smallLimit := by
  revert c
  decide

end Category

/-- The address of a block is a multiple of its size. -/
theorem IsBlock.blockSize_dvd {m : Memory} {c : Category} {x : Nat} (hblock : IsBlock m c x) :
    c.blockSize ∣ x := by
  have hpage := Nat.dvd_trans c.blockSize_dvd_pageSize (Nat.dvd_of_mod_eq_zero (pageOf_mod x))
  rw [← pageOf_add_pageOffset x]
  exact Nat.dvd_add hpage (Nat.dvd_of_mod_eq_zero hblock.offset_mod)

/-- A size that is rounded up is the least multiple that is not less. -/
theorem isLeast_alignUp? {size align rounded : Nat} (halign : Word.isPowerOfTwo align = true)
    (hrounded : Word.alignUp? size align = some rounded) :
    IsLeast {m | size ≤ m ∧ align ∣ m} rounded := by
  obtain ⟨k, rfl⟩ := Word.isPowerOfTwo_iff.1 halign
  have hpos : 0 < 2 ^ k := Nat.two_pow_pos k
  rw [Word.alignUp?_two_pow] at hrounded
  split at hrounded
  · obtain rfl := Option.some.inj hrounded
    have hlt := Nat.mod_lt (size + (2 ^ k - 1)) hpos
    exact isLeast_multiple (by omega) (Nat.dvd_sub_mod _) (by omega)
  · exact absurd hrounded (by simp)

namespace AllocOptions

/-- The alignment that a request is to have; none is the least. -/
def alignment (opts : AllocOptions) : Nat := if opts.align = 0 then 1 else opts.align

/-- The address has the alignment asked for. -/
def Admits (opts : AllocOptions) (x : Nat) : Prop := opts.align = 0 ∨ opts.align ∣ x

theorem admits_of_dvd {opts : AllocOptions} {x : Nat} (hdvd : opts.alignment ∣ x) :
    opts.Admits x := by
  rw [alignment] at hdvd
  split at hdvd
  · exact .inl ‹_›
  · exact .inr hdvd

/-- What a request of `size` bytes is served with: its size is rounded up to the alignment, and
then to that of a block if it is small enough, and otherwise to whole pages. -/
def Yields (opts : AllocOptions) (size n : Nat) : Prop :=
  ∃ rounded, IsLeast {m | size ≤ m ∧ opts.alignment ∣ m} rounded ∧
    (rounded ≤ smallLimit → IsLeast {m | rounded ≤ m ∧ ∃ c, m = minSize * 2 ^ c} n) ∧
    (smallLimit < rounded → IsLeast {m | rounded ≤ m ∧ pageSize ∣ m} n)

theorem Yields.size_le {opts : AllocOptions} {size n : Nat} (h : opts.Yields size n) :
    size ≤ n := by
  obtain ⟨rounded, hrounded, hsmall, hlarge⟩ := h
  apply Nat.le_trans hrounded.1.1
  rcases Nat.lt_or_ge smallLimit rounded with hlt | hge
  · exact (hlarge hlt).1.1
  · exact (hsmall hge).1.1

/-- Nothing but the size and the alignment asked for tells the size. -/
theorem Yields.unique {opts : AllocOptions} {size n n' : Nat} (h : opts.Yields size n)
    (h' : opts.Yields size n') : n = n' := by
  obtain ⟨rounded, hrounded, hsmall, hlarge⟩ := h
  obtain ⟨rounded', hrounded', hsmall', hlarge'⟩ := h'
  obtain rfl := hrounded.unique hrounded'
  rcases Nat.lt_or_ge smallLimit rounded with hlt | hge
  · exact (hlarge hlt).unique (hlarge' hlt)
  · exact (hsmall hge).unique (hsmall' hge)

end AllocOptions

variable {size : Nat} {opts : AllocOptions}

theorem route_eq_some {target : Route} (hroute : route size opts = .ok (some target)) :
    0 < size ∧ Word.isPowerOfTwo opts.alignment = true ∧
      ∃ rounded, IsLeast {m | size ≤ m ∧ opts.alignment ∣ m} rounded ∧
        rounded < Word.signedLimit ∧ target = Route.ofRounded rounded opts.alignment := by
  simp only [route] at hroute
  rw [← AllocOptions.alignment] at hroute
  split at hroute
  · exact absurd hroute (by simp)
  · rename_i hpower
    have halign : Word.isPowerOfTwo opts.alignment = true := by simpa using hpower
    split at hroute
    · exact absurd hroute (by simp)
    · split at hroute
      · exact absurd hroute (by simp)
      · rename_i rounded hrounded
        have hleast := isLeast_alignUp? halign hrounded
        split at hroute
        · refine ⟨Nat.pos_of_ne_zero ‹_›, halign, rounded, hleast, ‹_›, ?_⟩
          simpa using hroute.symm
        · exact absurd hroute (by simp)

/-- A block of the category has the size and the alignment asked for. -/
theorem route_small {c : Category} (hroute : route size opts = .ok (some (.small c))) :
    opts.Yields size c.blockSize ∧ ∀ m x, IsBlock m c x → opts.Admits x := by
  obtain ⟨hpos, halign, rounded, hleast, -, htarget⟩ := route_eq_some hroute
  rw [Route.ofRounded] at htarget
  split at htarget
  · rename_i hfits
    obtain rfl := Route.small.inj htarget
    have hblock := Category.isLeast_blockSize_ofSize hfits
    have hpower := Category.isPowerOfTwo_blockSize (Category.ofSize rounded hfits)
    have hsmall : opts.alignment ≤ rounded :=
      Nat.le_of_dvd (Nat.lt_of_lt_of_le hpos hleast.1.1) hleast.1.2
    have hmultiple := isPowerOfTwo_dvd halign hpower (Nat.le_trans hsmall hblock.1.1)
    refine ⟨⟨rounded, hleast, fun _ => hblock, fun hlarge => ?_⟩, fun m x hx =>
      AllocOptions.admits_of_dvd (Nat.dvd_trans hmultiple hx.blockSize_dvd)⟩
    exact absurd hfits (Nat.not_le.2 hlarge)
  · exact absurd htarget (by simp)

/-- Whole pages for the size rounded have the size asked for. -/
theorem route_large {rounded align : Nat}
    (hroute : route size opts = .ok (some (.large rounded align))) :
    0 < size ∧ size ≤ rounded ∧ align = opts.alignment ∧ Word.isPowerOfTwo align = true ∧
      ∀ n, pageCeil? rounded = some n → opts.Yields size n := by
  obtain ⟨hpos, halign, rounded', hleast, -, htarget⟩ := route_eq_some hroute
  rw [Route.ofRounded] at htarget
  split at htarget
  · exact absurd htarget (by simp)
  · rename_i hexceeds
    obtain ⟨rfl, rfl⟩ := Route.large.inj htarget
    refine ⟨hpos, hleast.1.1, rfl, halign, fun n hceil => ?_⟩
    obtain ⟨-, hmod, hle, hlt⟩ := pageCeil?_eq_some_iff.1 hceil
    refine ⟨rounded, hleast, fun hfits => absurd hfits hexceeds, fun _ => ?_⟩
    exact isLeast_multiple hle (Nat.dvd_of_mod_eq_zero hmod) hlt

/-- A size that has a route can be rounded up to pages. -/
theorem exists_pageCeil? {rounded align : Nat}
    (hroute : route size opts = .ok (some (.large rounded align))) :
    ∃ len, pageCeil? rounded = some len := by
  obtain ⟨-, -, rounded', -, hlimit, htarget⟩ := route_eq_some hroute
  rw [Route.ofRounded] at htarget
  split at htarget
  · exact absurd htarget (by simp)
  · obtain ⟨rfl, -⟩ := Route.large.inj htarget
    have hroom : Word.signedLimit + (pageSize - 1) ≤ Word.limit := by decide
    have hword := Nat.lt_of_lt_of_le (Nat.add_lt_add_right hlimit (pageSize - 1)) hroom
    rw [pageCeil?, Word.add?_eq_some_iff.2 ⟨rfl, hword⟩]
    exact ⟨_, rfl⟩

end PagedHeap
