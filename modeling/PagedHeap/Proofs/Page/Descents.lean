import PagedHeap.Proofs.Page.Ranges

/-!
# Ranges that lie one below the other

The program break can be lowered over a range that ends at it, and then over one that ends where
that one starts.  Ranges that are tried one after the other, each of them once, are sunk where they
end at the break at that moment.  Of the chains that can be picked from them in their order and
reach down from the break, that makes the longest one; a chain that takes them in another order is
cut short where an upper range is tried after the one below it.
-/

namespace PagedHeap
namespace Ranges

/-- Break ranges each of which ends where the one before it starts, from `top` down to `bottom`. -/
def Descends : Nat → List Range → Nat → Prop
  | top, [], bottom => bottom = top
  | top, r :: rest, bottom =>
      r.ofBreak = true ∧ r.address + r.len = top ∧ Descends r.address rest bottom

/-- Every chain of `ranges`, in their order, that reaches down from `top` is the start of
`chain`. -/
def Longest (top : Nat) (ranges chain : List Range) : Prop :=
  ∀ other bottom, other.Sublist ranges → Descends top other bottom → other <+: chain

/-- No break range is listed before the one right above it. -/
def TopDown (ranges : List Range) : Prop :=
  ranges.Pairwise fun r above =>
    r.ofBreak = true → above.ofBreak = true → r.address + r.len ≠ above.address

/-- The ranges over which the break sinks from `top` if each is tried once. -/
def sinking : Nat → List Range → List Range
  | _, [] => []
  | top, r :: rest =>
      if r.ofBreak = true ∧ r.address + r.len = top then r :: sinking r.address rest
      else sinking top rest

variable {top mid bottom : Nat} {ranges chain chain' : List Range} {r : Range}

theorem Descends.append (h : Descends top chain mid) (h' : Descends mid chain' bottom) :
    Descends top (chain ++ chain') bottom := by
  induction chain generalizing top with
  | nil =>
      obtain rfl : mid = top := h
      exact h'
  | cons r rest ih =>
      obtain ⟨hkind, htop, hrest⟩ := h
      exact ⟨hkind, htop, ih hrest⟩

/-- A chain reaches down by the lengths of its ranges. -/
theorem Descends.total (h : Descends top chain bottom) : bottom + total chain = top := by
  induction chain generalizing top with
  | nil => exact h
  | cons r rest ih =>
      obtain ⟨-, htop, hrest⟩ := h
      have hbelow := ih hrest
      rw [total_cons]
      omega

theorem Descends.ofBreak (h : Descends top chain bottom) : ∀ r ∈ chain, r.ofBreak = true := by
  induction chain generalizing top with
  | nil => exact fun r hr => absurd hr List.not_mem_nil
  | cons r rest ih =>
      obtain ⟨hkind, -, hrest⟩ := h
      intro r' hr'
      rcases List.mem_cons.1 hr' with rfl | hin
      · exact hkind
      · exact ih hrest r' hin

theorem Descends.stop_le (h : Descends top chain bottom) (hr : r ∈ chain) :
    r.address + r.len ≤ top := by
  induction chain generalizing top with
  | nil => exact absurd hr List.not_mem_nil
  | cons first rest ih =>
      obtain ⟨-, htop, hrest⟩ := h
      rcases List.mem_cons.1 hr with rfl | hin
      · exact Nat.le_of_eq htop
      · have hbelow := ih hrest hin
        omega

/-- A range of a chain ends at the top, or where another one starts. -/
theorem Descends.top_or_above (h : Descends top chain bottom) (hr : r ∈ chain) :
    r.address + r.len = top ∨
      ∃ above ∈ chain, above.ofBreak = true ∧ r.address + r.len = above.address := by
  induction chain generalizing top with
  | nil => exact absurd hr List.not_mem_nil
  | cons first rest ih =>
      obtain ⟨hkind, htop, hrest⟩ := h
      rcases List.mem_cons.1 hr with rfl | hin
      · exact .inl htop
      · rcases ih hrest hin with hstop | ⟨above, habove, hrest'⟩
        · exact .inr ⟨first, List.mem_cons_self, hkind, hstop⟩
        · exact .inr ⟨above, List.mem_cons_of_mem first habove, hrest'⟩

/-! ## Trying each range once -/

/-- What comes first is tried first. -/
theorem sinking_append (hdescends : Descends top (sinking top ranges) bottom)
    (rest : List Range) :
    sinking top (ranges ++ rest) = sinking top ranges ++ sinking bottom rest := by
  induction ranges generalizing top with
  | nil =>
      obtain rfl : bottom = top := hdescends
      rfl
  | cons r ranges ih =>
      rw [List.cons_append, sinking, sinking] at *
      split at hdescends
      · rename_i hsinks
        rw [if_pos hsinks, if_pos hsinks, ih hdescends.2.2]
        rfl
      · rename_i hstays
        rw [if_neg hstays, if_neg hstays, ih hdescends]

/-- Ranges that share no byte end at different places. -/
theorem Tidy.eq_of_stop (h : Tidy (r :: ranges)) {r' : Range} (hr' : r' ∈ ranges) :
    r'.address + r'.len ≠ r.address + r.len := by
  intro hstop
  obtain ⟨hproper, hapart, hrest⟩ := tidy_cons.1 h
  have hpos := hproper.len_pos
  have hpos' := (hrest.proper r' hr').len_pos
  -- They would share their last byte.
  have hlast : r.address + r.len - 1 ∈ r.bytes := mem_bytesAt.2 (by omega)
  have hlast' : r.address + r.len - 1 ∈ r'.bytes := mem_bytesAt.2 (by omega)
  exact Set.disjoint_left.1 hapart hlast (bytes_subset_of_mem hr' hlast')

/-- Trying each range once makes the longest chain in their order. -/
theorem longest_sinking (htidy : Tidy ranges) (top : Nat) :
    Longest top ranges (sinking top ranges) := by
  induction ranges generalizing top with
  | nil =>
      intro other bottom hsub _
      rw [List.sublist_nil.1 hsub]
      exact List.nil_prefix
  | cons r rest ih =>
      have hrest := (tidy_cons.1 htidy).2.2
      intro other bottom hsub hdescends
      rw [sinking]
      cases other with
      | nil => exact List.nil_prefix
      | cons first other =>
          obtain ⟨hkind, htop, hbelow⟩ := hdescends
          -- The first range of the other chain is the one tried, or comes later.
          rcases List.sublist_cons_iff.1 hsub with hlater | ⟨tail, heq, htail⟩
          · have hfirst : first ∈ rest := hlater.subset List.mem_cons_self
            rw [if_neg fun hsinks => htidy.eq_of_stop hfirst (htop.trans hsinks.2.symm)]
            exact ih hrest top _ bottom hlater ⟨hkind, htop, hbelow⟩
          · obtain ⟨rfl, rfl⟩ := List.cons.inj heq
            rw [if_pos ⟨hkind, htop⟩, List.prefix_cons_inj]
            exact ih hrest first.address _ bottom htail hbelow

/-- If the first of the ranges listed is in a chain at all, the chain starts with it. -/
theorem Descends.head_eq {first : Range} (h : Descends top (first :: chain) bottom)
    (htidy : Tidy (r :: ranges)) (hordered : TopDown (r :: ranges))
    (hsub : first :: chain ⊆ r :: ranges) (hr : r ∈ first :: chain) : first = r := by
  rcases List.mem_cons.1 (hsub List.mem_cons_self) with heq | hlater
  · exact heq
  · rcases h.top_or_above hr with hstop | ⟨above, habove, hkind, hstop⟩
    · exact absurd (h.2.1.trans hstop.symm) (htidy.eq_of_stop hlater)
    · -- The one above it would be listed later.
      rcases List.mem_cons.1 (hsub habove) with rfl | hlater'
      · have hpos := (tidy_cons.1 htidy).1.len_pos
        omega
      · exact absurd hstop ((List.pairwise_cons.1 hordered).1 above hlater' (h.ofBreak r hr) hkind)

/-- Ranges that are listed from the top down have all their chains in their order. -/
theorem Descends.sublist (h : Descends top chain bottom) (htidy : Tidy ranges)
    (hordered : TopDown ranges) (hsub : chain ⊆ ranges) : chain.Sublist ranges := by
  induction ranges generalizing top chain with
  | nil =>
      obtain rfl := List.subset_nil.1 hsub
      exact List.Sublist.refl []
  | cons r rest ih =>
      obtain ⟨hproper, -, hrest⟩ := tidy_cons.1 htidy
      have hordered' := (List.pairwise_cons.1 hordered).2
      by_cases hr : r ∈ chain
      · cases chain with
        | nil => exact absurd hr List.not_mem_nil
        | cons first chain =>
            obtain rfl := h.head_eq htidy hordered hsub hr
            obtain ⟨-, htop, hbelow⟩ := h
            -- What comes next in the chain lies below, so it is another range.
            refine (ih hbelow hrest hordered' fun r' hr' => ?_).cons_cons first
            rcases List.mem_cons.1 (hsub (List.mem_cons_of_mem _ hr')) with rfl | hin
            · have hle := hbelow.stop_le hr'
              have hpos := hproper.len_pos
              omega
            · exact hin
      · refine (ih h hrest hordered' fun r' hr' => ?_).cons r
        rcases List.mem_cons.1 (hsub hr') with rfl | hin
        · exact absurd hr' hr
        · exact hin

/-- A range that ends where the longest chain stopped would have been the next one, had it not been
listed too early. -/
theorem Longest.not_sublist (h : Longest top ranges chain) (hdescends : Descends top chain bottom)
    (hkind : r.ofBreak = true) (hstop : r.address + r.len = bottom) :
    ¬(chain ++ [r]).Sublist ranges := by
  intro hsub
  have hnext : Descends bottom [r] r.address := ⟨hkind, hstop, rfl⟩
  have hprefix := (h _ _ hsub (hdescends.append hnext)).length_le
  rw [List.length_append, List.length_singleton] at hprefix
  omega

end Ranges
end PagedHeap
