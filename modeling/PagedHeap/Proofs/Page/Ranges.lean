import Mathlib.Algebra.GroupWithZero.Nat
import PagedHeap.Page.RangeCache
import PagedHeap.Proofs.Kernel.InUse

/-!
# Lists of ranges

The cache of a page supplier cuts ranges, joins them and moves them from slot to slot.  None
of this creates or loses a byte.  `Reshapes` says so of two lists of ranges: they cover the
same bytes, have the same number of them, and no byte counts as zero or as memory of the
break that did not before.
-/

namespace PagedHeap
namespace Range

/-- The addresses in a range. -/
def bytes (r : Range) : Set Nat := bytesAt r.address r.len

/-- Whole pages, at least one, in the lower half of the addresses. -/
structure Proper (r : Range) : Prop where
  address_mod : r.address % pageSize = 0
  len_mod : r.len % pageSize = 0
  len_pos : 0 < r.len
  stop_le : r.address + r.len ≤ Word.signedLimit

/-- What is left behind the first `len` bytes. -/
def back (r : Range) (len : Nat) : Range :=
  { r with address := r.address + len, len := r.len - len }

/-- One range made of `r` and the range behind it. -/
def joined (r behind : Range) : Range :=
  { r with len := r.len + behind.len, clean := r.clean && behind.clean }

theorem Proper.stop?_eq {r : Range} (h : r.Proper) : r.stop? = some (r.address + r.len) := by
  rw [stop?, Word.add?_eq_some_iff]
  have hstop := h.stop_le
  refine ⟨rfl, ?_⟩
  simp only [Word.signedLimit, Word.limit] at hstop ⊢
  omega

theorem bytes_front_union_back {r : Range} {len : Nat} (hlen : len ≤ r.len) :
    (r.front len).bytes ∪ (r.back len).bytes = r.bytes := by
  ext x
  simp only [bytes, front, back, Set.mem_union, mem_bytesAt]
  omega

theorem bytes_joined {r behind : Range} (hnext : r.address + r.len = behind.address) :
    (r.joined behind).bytes = r.bytes ∪ behind.bytes := by
  show bytesAt r.address (r.len + behind.len) = _
  rw [bytesAt_add, hnext]
  rfl

end Range

namespace Ranges

/-- The addresses in any of the ranges. -/
def bytes (ranges : List Range) : Set Nat := {x | ∃ r ∈ ranges, x ∈ r.bytes}

/-- The lengths of all ranges together. -/
def total (ranges : List Range) : Nat := (ranges.map Range.len).sum

/-- Proper ranges that share no byte. -/
structure Tidy (ranges : List Range) : Prop where
  proper : ∀ r ∈ ranges, r.Proper
  apart : ranges.Pairwise fun r r' => Disjoint r.bytes r'.bytes

/-- `new` covers the bytes of `old`, and knows nothing of them that `old` did not. -/
structure Reshapes (old new : List Range) : Prop where
  tidy : Tidy old → Tidy new
  bytes_eq : bytes new = bytes old
  total_eq : total new = total old
  refines : ∀ r ∈ new, ∀ x ∈ r.bytes, ∃ r' ∈ old, x ∈ r'.bytes ∧ r'.ofBreak = r.ofBreak ∧
    (r.clean = true → r'.clean = true)

/-- No range of the same kind ends where `r` starts. -/
def FreeBefore (r : Range) (ranges : List Range) : Prop :=
  ∀ r' ∈ ranges, r'.ofBreak = r.ofBreak → r'.address + r'.len ≠ r.address

/-- No range of the same kind starts where `r` ends. -/
def FreeBehind (r : Range) (ranges : List Range) : Prop :=
  ∀ r' ∈ ranges, r'.ofBreak = r.ofBreak → r.address + r.len ≠ r'.address

/-- No range ends where another of its kind starts. -/
def Coalesced (ranges : List Range) : Prop :=
  ∀ r ∈ ranges, ∀ r' ∈ ranges, r.ofBreak = r'.ofBreak → r.address + r.len ≠ r'.address

variable {old new mid rest : List Range} {r : Range}

@[simp] theorem bytes_nil : bytes [] = ∅ := by
  ext x
  simp [bytes]

@[simp] theorem bytes_cons : bytes (r :: rest) = r.bytes ∪ bytes rest := by
  ext x
  simp [bytes]

@[simp] theorem bytes_append : bytes (old ++ new) = bytes old ∪ bytes new := by
  ext x
  simp only [bytes, List.mem_append, Set.mem_ofPred_eq, Set.mem_union]
  constructor
  · rintro ⟨r, hr | hr, hx⟩
    · exact .inl ⟨r, hr, hx⟩
    · exact .inr ⟨r, hr, hx⟩
  · rintro (⟨r, hr, hx⟩ | ⟨r, hr, hx⟩)
    · exact ⟨r, .inl hr, hx⟩
    · exact ⟨r, .inr hr, hx⟩

@[simp] theorem total_nil : total [] = 0 := rfl

@[simp] theorem total_cons : total (r :: rest) = r.len + total rest := by
  simp [total]

@[simp] theorem total_append : total (old ++ new) = total old + total new := by
  simp [total]

theorem bytes_subset_of_mem (hr : r ∈ rest) : r.bytes ⊆ bytes rest :=
  fun _ hx => ⟨r, hr, hx⟩

theorem disjoint_bytes {s : Set Nat} :
    Disjoint s (bytes rest) ↔ ∀ r ∈ rest, Disjoint s r.bytes := by
  constructor
  · intro h r hr
    exact h.mono_right (bytes_subset_of_mem hr)
  · intro h
    rw [Set.disjoint_right]
    rintro x ⟨r, hr, hx⟩
    exact Set.disjoint_right.1 (h r hr) hx

theorem tidy_nil : Tidy [] := ⟨by simp, List.Pairwise.nil⟩

theorem tidy_cons : Tidy (r :: rest) ↔ r.Proper ∧ Disjoint r.bytes (bytes rest) ∧ Tidy rest := by
  constructor
  · intro h
    obtain ⟨hfirst, hrest⟩ := List.pairwise_cons.1 h.apart
    exact ⟨h.proper r List.mem_cons_self, disjoint_bytes.2 hfirst,
      fun r' hr' => h.proper r' (List.mem_cons_of_mem _ hr'), hrest⟩
  · rintro ⟨hproper, hdisjoint, htidy⟩
    refine ⟨?_, List.pairwise_cons.2 ⟨disjoint_bytes.1 hdisjoint, htidy.apart⟩⟩
    rintro r' (_ | ⟨_, hr'⟩)
    · exact hproper
    · exact htidy.proper r' hr'

theorem tidy_append :
    Tidy (old ++ new) ↔ Tidy old ∧ Tidy new ∧ Disjoint (bytes old) (bytes new) := by
  induction old with
  | nil => simp [tidy_nil]
  | cons r old ih =>
      rw [List.cons_append, tidy_cons, tidy_cons, ih, bytes_append, bytes_cons,
        Set.disjoint_union_right, Set.disjoint_union_left]
      tauto

theorem Reshapes.refl (ranges : List Range) : Reshapes ranges ranges where
  tidy := id
  bytes_eq := rfl
  total_eq := rfl
  refines r hr _ hx := ⟨r, hr, hx, rfl, id⟩

theorem Reshapes.trans (h : Reshapes old mid) (h' : Reshapes mid new) : Reshapes old new where
  tidy htidy := h'.tidy (h.tidy htidy)
  bytes_eq := h'.bytes_eq.trans h.bytes_eq
  total_eq := h'.total_eq.trans h.total_eq
  refines r hr x hx := by
    obtain ⟨r₁, hr₁, hx₁, hkind₁, hclean₁⟩ := h'.refines r hr x hx
    obtain ⟨r₂, hr₂, hx₂, hkind₂, hclean₂⟩ := h.refines r₁ hr₁ x hx₁
    exact ⟨r₂, hr₂, hx₂, hkind₂.trans hkind₁, fun hclean => hclean₂ (hclean₁ hclean)⟩

theorem Reshapes.of_perm (h : old.Perm new) : Reshapes old new where
  tidy htidy :=
    ⟨fun r hr => htidy.proper r (h.mem_iff.2 hr),
      h.pairwise htidy.apart fun hdisjoint => hdisjoint.symm⟩
  bytes_eq := by
    ext x
    simp only [bytes, h.mem_iff]
  total_eq := (h.map Range.len).sum_nat.symm
  refines r hr x hx := ⟨r, h.mem_iff.2 hr, hx, rfl, id⟩

/-- Two ranges share no byte. -/
theorem Tidy.disjoint {r' : Range} (h : Tidy rest) (hr : r ∈ rest) (hr' : r' ∈ rest)
    (hne : r ≠ r') : Disjoint r.bytes r'.bytes := by
  obtain ⟨before, after, rfl⟩ := List.append_of_mem hr
  obtain ⟨-, hapart, -⟩ := tidy_cons.1 ((Reshapes.of_perm List.perm_middle).tidy h)
  have hothers : r' ∈ before ++ after := by
    simpa [hne.symm] using hr'
  exact hapart.mono_right (bytes_subset_of_mem hothers)

/-- What happens to some of the ranges happens to all of them. -/
theorem Reshapes.append_right (h : Reshapes old new) (rest : List Range) :
    Reshapes (old ++ rest) (new ++ rest) where
  tidy htidy := by
    obtain ⟨hold, hrest, hdisjoint⟩ := tidy_append.1 htidy
    exact tidy_append.2 ⟨h.tidy hold, hrest, by rwa [h.bytes_eq]⟩
  bytes_eq := by rw [bytes_append, bytes_append, h.bytes_eq]
  total_eq := by rw [total_append, total_append, h.total_eq]
  refines r hr x hx := by
    rcases List.mem_append.1 hr with hnew | hsame
    · obtain ⟨r', hr', hrest⟩ := h.refines r hnew x hx
      exact ⟨r', List.mem_append_left _ hr', hrest⟩
    · exact ⟨r, List.mem_append_right _ hsame, hx, rfl, id⟩

/-- Cutting a range on a page boundary inside it. -/
theorem Reshapes.cut {len : Nat} (hpos : 0 < len) (hlt : len < r.len)
    (hmod : len % pageSize = 0) : Reshapes [r] [r.front len, r.back len] where
  tidy htidy := by
    have hproper := htidy.proper r List.mem_cons_self
    obtain ⟨haddress, hlen, _, hstop⟩ := hproper
    refine tidy_cons.2
      ⟨⟨haddress, hmod, hpos, ?_⟩, ?_, tidy_cons.2 ⟨⟨?_, ?_, ?_, ?_⟩, ?_, tidy_nil⟩⟩
    · show r.address + len ≤ _
      omega
    · rw [bytes_cons, bytes_nil, Set.union_empty]
      exact disjoint_bytesAt.2 (.inr (.inr (.inl (Nat.le_refl _))))
    · show (r.address + len) % pageSize = 0
      simp only [pageSize] at haddress hmod ⊢
      omega
    · show (r.len - len) % pageSize = 0
      simp only [pageSize] at hlen hmod ⊢
      omega
    · show 0 < r.len - len
      omega
    · show r.address + len + (r.len - len) ≤ _
      omega
    · rw [bytes_nil]
      exact Set.disjoint_empty _
  bytes_eq := by
    simp only [bytes_cons, bytes_nil, Set.union_empty]
    exact Range.bytes_front_union_back (Nat.le_of_lt hlt)
  total_eq := by
    simp only [total_cons, total_nil, Range.front, Range.back]
    omega
  refines r' hr' x hx := by
    have hsub := Range.bytes_front_union_back (r := r) (Nat.le_of_lt hlt)
    rw [List.mem_cons, List.mem_singleton] at hr'
    rcases hr' with rfl | rfl
    · exact ⟨r, List.mem_cons_self, hsub ▸ Set.mem_union_left _ hx, rfl, id⟩
    · exact ⟨r, List.mem_cons_self, hsub ▸ Set.mem_union_right _ hx, rfl, id⟩

/-- Joining a range with one of the same kind that starts where it ends. -/
theorem Reshapes.join {behind : Range} (hnext : r.address + r.len = behind.address)
    (hkind : r.ofBreak = behind.ofBreak) : Reshapes [r, behind] [r.joined behind] where
  tidy htidy := by
    have hfirst := htidy.proper r List.mem_cons_self
    have hbehind := htidy.proper behind (List.mem_cons_of_mem _ List.mem_cons_self)
    refine tidy_cons.2 ⟨⟨hfirst.address_mod, ?_, ?_, ?_⟩, ?_, tidy_nil⟩
    · show (r.len + behind.len) % pageSize = 0
      have hmod := hfirst.len_mod
      have hmod' := hbehind.len_mod
      simp only [pageSize] at hmod hmod' ⊢
      omega
    · show 0 < r.len + behind.len
      have hpos := hfirst.len_pos
      omega
    · show r.address + (r.len + behind.len) ≤ _
      have hstop := hbehind.stop_le
      omega
    · rw [bytes_nil]
      exact Set.disjoint_empty _
  bytes_eq := by
    simp only [bytes_cons, bytes_nil, Set.union_empty]
    exact Range.bytes_joined hnext
  total_eq := by
    simp only [total_cons, total_nil, Range.joined]
    omega
  refines r' hr' x hx := by
    obtain rfl := List.mem_singleton.1 hr'
    rw [Range.bytes_joined hnext] at hx
    have hclean : (r.joined behind).clean = true → r.clean = true ∧ behind.clean = true := by
      show (r.clean && behind.clean) = true → _
      rw [Bool.and_eq_true]
      exact id
    rcases hx with hx | hx
    · exact ⟨r, List.mem_cons_self, hx, rfl, fun h => (hclean h).1⟩
    · exact ⟨behind, List.mem_cons_of_mem _ List.mem_cons_self, hx, hkind.symm,
        fun h => (hclean h).2⟩

/-! ## Ranges that do not touch -/

theorem coalesced_nil : Coalesced [] := fun _ hr => absurd hr List.not_mem_nil

theorem Coalesced.of_subset (h : Coalesced old) (hsub : new ⊆ old) : Coalesced new :=
  fun r hr r' hr' => h r (hsub hr) r' (hsub hr')

/-- A range that touches none of its kind joins those that do not touch. -/
theorem Coalesced.cons (h : Coalesced rest) (hpos : 0 < r.len)
    (hbefore : FreeBefore r rest) (hbehind : FreeBehind r rest) : Coalesced (r :: rest) := by
  intro r₁ hr₁ r₂ hr₂ hkind
  rcases List.mem_cons.1 hr₁ with rfl | hin₁
  · rcases List.mem_cons.1 hr₂ with rfl | hin₂
    · omega
    · exact hbehind r₂ hin₂ hkind.symm
  · rcases List.mem_cons.1 hr₂ with rfl | hin₂
    · exact hbefore r₁ hin₁ hkind
    · exact h r₁ hin₁ r₂ hin₂ hkind

/-- Where a range is cut, no other range ends. -/
theorem Coalesced.cut {len : Nat} (h : Coalesced (r :: rest)) (htidy : Tidy (r :: rest))
    (hpos : 0 < len) (hlt : len < r.len) : Coalesced (r.back len :: rest) := by
  have hrest : Coalesced rest := h.of_subset (List.subset_cons_self r rest)
  have hstop : (r.back len).address + (r.back len).len = r.address + r.len := by
    show r.address + len + (r.len - len) = r.address + r.len
    omega
  refine hrest.cons (Nat.sub_pos_of_lt hlt) (fun r' hr' _ heq => ?_) fun r' hr' hkind => ?_
  · -- The last byte of the other range would be in this one.
    have hother := (tidy_cons.1 htidy).2.2.proper r' hr'
    have hlast : r.address + (len - 1) ∈ r.bytes := mem_bytesAt.2 (by omega)
    have hlast' : r.address + (len - 1) ∈ r'.bytes := by
      have hlen := hother.len_pos
      have hplace : r'.address + r'.len = r.address + len := heq
      exact mem_bytesAt.2 (by omega)
    exact Set.disjoint_left.1 (tidy_cons.1 htidy).2.1 hlast (bytes_subset_of_mem hr' hlast')
  · rw [hstop]
    exact h r List.mem_cons_self r' (List.mem_cons_of_mem r hr') hkind.symm

end Ranges
end PagedHeap
