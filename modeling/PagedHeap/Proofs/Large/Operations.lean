import PagedHeap.Proofs.Large.Ranges

/-!
# What an allocator of large ranges does

A large allocation is a range that was in nobody's hands, with an entry for its size.  Other
ranges keep their size and content, whether a request is met or not.
-/

namespace PagedHeap
namespace LargeHeap

open SizeTable

variable {l l' l'' : LargeHeap} {rest : Set Nat} {lent : Nat} {sizes : Nat → Option Nat}
  {address len old : Nat}

/-- Besides ranges of the given `sizes`, which keep their content, there is one more. -/
structure Places (l : LargeHeap) (rest : Set Nat) (lent : Nat) (sizes : Nat → Option Nat)
    (address len : Nat) (l' : LargeHeap) : Prop where
  sound : l'.Sound rest lent
  keeps : l.paging.Keeps (extent sizes ∪ rest) l'.paging
  fresh : sizes address = none
  sizes_eq : l'.table.get? = Function.update sizes address (some len)

theorem Places.get?_eq (h : l.Places rest lent sizes address len l') :
    l'.table.get? address = some len := by
  rw [h.sizes_eq, Function.update_self]

theorem Places.extent_eq (h : l.Places rest lent sizes address len l') :
    extent l'.table.get? = extent sizes ∪ bytesAt address len := by
  rw [h.sizes_eq, extent_update_some, update_none_of_absent h.fresh]

theorem Places.apart (h : l.Places rest lent sizes address len l') :
    Disjoint (extent sizes ∪ rest) (bytesAt address len) := by
  have hothers := h.sound.spread.disjoint h.get?_eq
  have hrest := h.sound.apart
  rw [h.sizes_eq, Function.update_idem, update_none_of_absent h.fresh] at hothers
  rw [h.extent_eq, Set.disjoint_union_left] at hrest
  exact Set.disjoint_union_left.2 ⟨hothers, hrest.2.symm⟩

/-! ## Allocating -/

/-- What an allocation comes to. -/
def Allocates (l : LargeHeap) (rest : Set Nat) (lent size align : Nat) :
    Option Nat → LargeHeap → Prop
  | none, l' => l.Rests rest lent l'
  | some address, l' => ∃ len, pageCeil? size = some len ∧
      l.Places rest lent l.table.get? address len l' ∧ address % align = 0 ∧
      ∀ x ∈ bytesAt address len, l'.paging.byteAt x = 0

/-- A range that was taken is recorded, or it goes back. -/
theorem Sound.ensures_settle {size align : Nat} (hceil : pageCeil? size = some len)
    (hgets : l.Gets rest lent len (some address) l') (hpos : 0 < len)
    (halign : address % align = 0) :
    Action.Ensures (do
        if ← recordSize address len then return some address
        else
          onPages (Paging.reclaim address len { clean := true })
          return none) l' (l.Allocates rest lent size align) Action.never := by
  obtain ⟨hsound, hkeeps, htable, hapart, haddress, hzero⟩ := hgets
  obtain ⟨-, hlen, -⟩ := pageCeil?_eq_some_iff.1 hceil
  have hall := Set.disjoint_union_left.1 hapart
  simp only [Action.ensures_bind, Action.ensures_ite, Action.ensures_pure]
  apply (hsound.ensures_recordSize hall.2 haddress hlen hpos).weaken
  intro room l₁ hrecords
  have hzeroed : l'.paging.Keeps (extent l.table.get? ∪ (rest ∪ bytesAt address len)) l₁.paging →
      ∀ x ∈ bytesAt address len, l₁.paging.byteAt x = 0 := by
    intro hkept x hx
    rw [hkept.byteAt x (.inr (.inr hx))]
    exact hzero x hx
  cases room with
  | true =>
      obtain ⟨hsound₁, hkept, hfresh, hsizes⟩ := hrecords
      rw [htable] at hkept hfresh hsizes
      have hkeeps₁ := (hkeeps.mono Set.subset_union_right).trans (hkept.mono
        (Set.union_subset_union_right (extent l.table.get?) Set.subset_union_left))
      exact ⟨len, hceil, ⟨hsound₁, hkeeps₁, hfresh, hsizes⟩, halign, hzeroed hkept⟩
  | false =>
      have hrests₁ : l'.Rests (rest ∪ bytesAt address len) (lent + len) l₁ := hrecords
      have hkept := hrests₁.keeps
      rw [htable] at hkept
      apply (hrests₁.sound.ensures_returnPages hall.2 hpos haddress hlen (Nat.le_add_left len lent)
        (fun _ => hzeroed hkept) (Paging.not_parts_of_merges rfl rfl)).weaken
      intro _ l₂ hrests₂
      rw [Nat.add_sub_cancel] at hrests₂
      have hrests := hrests₁.trans hrests₂ Set.subset_union_left
      have hspares := hrests.spares
      rw [htable] at hspares
      exact ⟨hrests.sound, hkeeps.trans hspares, hrests.table_eq.trans htable⟩

theorem Sound.ensures_allocate (h : l.Sound rest lent) {size align : Nat} (hpos : 0 < size)
    (halign : Word.isPowerOfTwo align = true) :
    Action.Ensures (allocate size align) l (l.Allocates rest lent size align) Action.never := by
  simp only [allocate, Action.ensures_bind]
  apply Action.ensures_require
  · simp [hpos, halign]
  cases hceil : pageCeil? size with
  | none => exact .answer h.rests_self
  | some len =>
      obtain ⟨-, hlen, hle, -⟩ := pageCeil?_eq_some_iff.1 hceil
      have hlenpos := Nat.lt_of_lt_of_le hpos hle
      rw [Action.ensures_bind]
      apply (h.ensures_takeRange hlenpos hlen halign).weaken
      intro address? l' hpost
      obtain ⟨hgets, hmod⟩ := hpost
      cases address? with
      | none => exact .answer hgets
      | some address => exact Sound.ensures_settle hceil hgets hlenpos (hmod address rfl)

/-! ## Freeing -/

/-- The entry is gone, and other ranges keep their size and content. -/
structure Frees (l : LargeHeap) (rest : Set Nat) (lent address : Nat) (l' : LargeHeap) :
    Prop where
  sound : l'.Sound rest lent
  keeps : l.paging.Keeps
    (extent (Function.update l.table.get? address none) ∪ rest) l'.paging
  sizes_eq : l'.table.get? = Function.update l.table.get? address none

theorem ensures_sizeOf {ends : Ending → LargeHeap → Prop}
    {post : Nat → LargeHeap → Prop} (hold : l.table.get? address = some old) (h : post old l) :
    Action.Ensures (sizeOf address) l post ends := by
  simp only [sizeOf, Action.ensures_bind, Action.ensures_get, hold]
  exact .answer h

/-- The claim to free more than is allocated ends the process. -/
def ClaimsMore (address actual : Nat) (claimed : Option Nat) (e : Ending) : Prop :=
  ∃ given, claimed = some given ∧ actual < given ∧
    e = .corrupted (.sizeMismatch address given actual)

theorem ensures_checkClaim {actual : Nat} {claimed : Option Nat}
    {post : Unit → LargeHeap → Prop} (h : post () l) :
    Action.Ensures (checkClaim address actual claimed) l post
      (fun e _ => ClaimsMore address actual claimed e) := by
  cases claimed with
  | none => exact .answer h
  | some given =>
      simp only [checkClaim, corrupted, Action.ensures_onlyIf, Action.ensures_within,
        Kernel.ensures_corrupted]
      split
      · exact ⟨given, rfl, by simpa using ‹decide (actual < given) = true›, rfl⟩
      · exact h

theorem Sound.ensures_free (h : l.Sound rest lent) (hold : l.table.get? address = some old)
    (claimed : Option Nat) :
    Action.Ensures (free address claimed) l (fun _ l' => l.Frees rest lent address l')
      (fun e _ => ClaimsMore address old claimed e) := by
  simp only [free, Action.ensures_bind]
  apply ensures_sizeOf hold
  apply ensures_checkClaim
  obtain ⟨-, hremoved, hcapacity, hremove⟩ := h.table.remove_of_present hold
  have hget : (l.table.remove address).2.get? = Function.update l.table.get? address none := by
    funext page
    rw [hremove, Function.update_apply]
  obtain ⟨hapart, hleft⟩ := h.leave hold hremoved hget (storage_remove _ _) hcapacity
  have hall := Set.disjoint_union_left.1 hapart
  rw [ensures_updateTable]
  apply (hleft.ensures_returnPages hall.2 (h.spread.size_pos _ _ hold)
    (h.spread.page_mod _ _ hold) (h.spread.size_mod _ _ hold) (Nat.le_add_left old lent)
    (fun hclean => absurd hclean (by simp)) (Paging.not_parts_of_merges rfl rfl)).weaken
  intro _ l' hrests
  have hkeeps := hrests.keeps
  rw [Nat.add_sub_cancel] at hrests
  rw [show ({ l with table := (l.table.remove address).2 } : LargeHeap).table.get? = _ from hget]
    at hkeeps
  exact ⟨hrests.sound, hkeeps, (congrArg get? hrests.table_eq).trans hget⟩

/-! ## Resizing -/

/-- Content is copied into a range that is out. -/
theorem Sound.ensures_copy {source target : Nat} (h : l.Sound rest lent)
    (hown : bytesAt target len ⊆ extent l.table.get? ∪ rest) :
    Action.Ensures (copy source target len) l (fun _ l' => l'.Sound rest lent ∧
      l.paging.Keeps (bytesAt target len)ᶜ l'.paging ∧ l'.table = l.table ∧
      ∀ i < len, l'.paging.byteAt (target + i) = l.paging.byteAt (source + i)) Action.never := by
  simp only [copy, Action.ensures_within, Action.ensures_modify]
  obtain ⟨hholding, hkeeps⟩ := h.paging.rewrites_by (·.copy source target len)
    (hown.trans Set.subset_union_right) fun x hx => Memory.byteAt_copy_outside hx
  refine ⟨h.repage h.out_apart hholding, hkeeps, rfl, fun i hi => ?_⟩
  refine (Memory.byteAt_copy l.paging.kernel.memory source target len (target + i)).trans ?_
  rw [if_pos ⟨Nat.le_add_right target i, Nat.add_lt_add_left hi target⟩, Nat.add_sub_cancel_left]
  rfl

/-- What resizing an allocation of `old` bytes comes to. -/
def Resizes (l : LargeHeap) (rest : Set Nat) (lent address old size align : Nat) :
    Option Nat → LargeHeap → Prop
  | none, l' => l.Rests rest lent l'
  | some moved, l' => ∃ len, pageCeil? size = some len ∧
      l.Places rest lent (Function.update l.table.get? address none) moved len l' ∧
      (moved = address ∨ moved % align = 0) ∧
      (∀ i < min old len, l'.paging.byteAt (moved + i) = l.paging.byteAt (address + i)) ∧
      ∀ i, old ≤ i → i < len → l'.paging.byteAt (moved + i) = 0

variable {size align : Nat}

/-- The others are out, and have nothing of the range. -/
theorem Sound.others_apart (h : l.Sound rest lent) (hold : l.table.get? address = some old) :
    Disjoint (extent (Function.update l.table.get? address none) ∪ rest)
      (bytesAt address old) := by
  have hrest := h.apart
  rw [extent_eq_union hold, Set.disjoint_union_left] at hrest
  exact Set.disjoint_union_left.2 ⟨h.spread.disjoint hold, hrest.2.symm⟩

theorem extent_update_none_subset (hold : l.table.get? address = some old) :
    extent (Function.update l.table.get? address none) ⊆ extent l.table.get? := by
  rw [extent_eq_union hold]
  exact Set.subset_union_left

theorem Sound.resizes_same (h : l.Sound rest lent) (hold : l.table.get? address = some old)
    (hceil : pageCeil? size = some old) :
    l.Resizes rest lent address old size align (some address) l := by
  refine ⟨old, hceil, ⟨h, Paging.Keeps.refl _ _, Function.update_self _ _ _, ?_⟩, .inl rfl,
    fun _ _ => rfl, fun i hge hlt => absurd hlt (Nat.not_lt.2 hge)⟩
  rw [Function.update_idem, ← hold, Function.update_eq_self]

/-- The end goes back. -/
theorem Sound.ensures_shrink (h : l.Sound rest lent) (hold : l.table.get? address = some old)
    (hceil : pageCeil? size = some len) (hpos : 0 < len) (hlt : len < old) :
    Action.Ensures (do
        updateTable fun t => (t.set address len).2
        onPages (Paging.reclaim (address + len) (old - len) { noMergeLeft := true })
        return some address) l (l.Resizes rest lent address old size align) Action.never := by
  obtain ⟨-, hlen, -⟩ := pageCeil?_eq_some_iff.1 hceil
  have haddress := h.spread.page_mod _ _ hold
  have holdmod := h.spread.size_mod _ _ hold
  obtain ⟨tail, rfl⟩ : ∃ tail, old = len + tail := ⟨old - len, by omega⟩
  have hothers := h.others_apart hold
  rw [bytesAt_add, Set.disjoint_union_left] at hothers
  have hrest := Set.disjoint_union_right.1 hothers.2
  have htail : Disjoint (bytesAt (address + len) tail) (bytesAt address len) :=
    disjoint_bytesAt.2 (.inr (.inr (.inr (Nat.le_refl _))))
  have hsame : rest ∪ bytesAt address (len + tail) =
      rest ∪ bytesAt (address + len) tail ∪ bytesAt address len := by
    rw [bytesAt_add, Set.union_assoc, Set.union_comm (bytesAt address len)]
  obtain ⟨hsizes, hsound⟩ := h.reenter hold hlen hpos hsame
    (show lent + (len + tail) = lent + tail + len by omega)
    (Set.disjoint_union_left.2 ⟨hrest.1, htail⟩)
  have hplace : (address + len) % pageSize = 0 := by
    simp only [pageSize] at haddress hlen ⊢
    omega
  have htailmod : tail % pageSize = 0 := by
    simp only [pageSize] at holdmod hlen ⊢
    omega
  simp only [Action.ensures_bind, ensures_updateTable, Nat.add_sub_cancel_left,
    Action.ensures_pure]
  -- In front of the end there is what stays.
  have hlast : address + (len - 1) ∈ extent (l.table.set address len).2.get? ∪ rest := by
    rw [hsizes, extent_update_some]
    exact .inl (.inr (mem_bytesAt.2 (by omega)))
  apply (hsound.ensures_returnPages hrest.2 (by omega) hplace htailmod
    (Nat.le_add_left tail lent) (fun hclean => absurd hclean (by simp))
    (Paging.not_parts_of_before rfl hlast (by omega))).weaken
  intro _ l' hrests
  have hkeeps := hrests.keeps
  rw [Nat.add_sub_cancel] at hrests
  rw [show ({ l with table := (l.table.set address len).2 } : LargeHeap).table.get? = _ from
    hsizes, extent_update_some] at hkeeps
  refine ⟨len, hceil, ⟨hrests.sound, hkeeps.mono ?_,
    Function.update_self _ _ _, ?_⟩, .inl rfl, fun i hi => ?_,
    fun i hge hlt' => absurd hlt' (by omega)⟩
  · exact Set.union_subset_union_left rest Set.subset_union_left
  · rw [Function.update_idem, congrArg get? hrests.table_eq]
    exact hsizes
  · apply hkeeps.byteAt
    refine .inl (.inr (mem_bytesAt.2 ?_))
    omega

/-- The range has grown into `new` bytes behind its end. -/
theorem Sound.resizes_grown {tail : Nat} (h : l.Sound rest lent)
    (hold : l.table.get? address = some old) (hceil : pageCeil? size = some (old + tail))
    (hgets : l.Gets rest lent tail (some (address + old)) l') :
    l.Resizes rest lent address old size align (some address)
      { l' with table := (l'.table.set address (old + tail)).2 } := by
  obtain ⟨hsound, hkeeps, htable, hapart, -, hzero⟩ := hgets
  obtain ⟨-, hlen, -⟩ := pageCeil?_eq_some_iff.1 hceil
  have hpos := h.spread.size_pos _ _ hold
  have hothers := h.others_apart hold
  have hnew := Set.disjoint_union_left.1 hapart
  rw [← htable] at hold
  have hsame : rest ∪ bytesAt (address + old) tail ∪ bytesAt address old =
      rest ∪ bytesAt address (old + tail) := by
    rw [bytesAt_add, Set.union_assoc, Set.union_comm (bytesAt address old)]
  have hrest : Disjoint rest (bytesAt address (old + tail)) := by
    rw [bytesAt_add, Set.disjoint_union_right]
    exact ⟨(Set.disjoint_union_left.1 hothers).2, hnew.2⟩
  obtain ⟨hsizes, hsound'⟩ := hsound.reenter hold hlen (by omega) hsame
    (show lent + tail + old = lent + (old + tail) by omega) hrest
  rw [htable] at hold
  rw [htable] at hsizes hsound' ⊢
  refine ⟨old + tail, hceil, ⟨hsound', ?_, Function.update_self _ _ _, ?_⟩, .inl rfl,
    fun i hi => ?_, fun i hge hlt => ?_⟩
  · exact hkeeps.mono ((Set.union_subset_union_left rest (extent_update_none_subset hold)).trans
      Set.subset_union_right)
  · rw [Function.update_idem]
    exact hsizes
  · apply hkeeps.byteAt
    refine .inr (.inl (bytesAt_subset_extent hold (mem_bytesAt.2 ?_)))
    omega
  · apply hzero
    rw [mem_bytesAt]
    omega

theorem pageCeil?_of_pageCeil? {len' : Nat} (hlen : len % pageSize = 0)
    (hceil : pageCeil? len = some len') : len' = len := by
  obtain ⟨-, hmod, hle, hlt⟩ := pageCeil?_eq_some_iff.1 hceil
  simp only [pageSize] at hlen hmod hlt
  omega

/-- The new range is not where one was before. -/
theorem Places.ne {moved : Nat} (hplaces : l.Places rest lent l.table.get? moved len l')
    (hold : l.table.get? address = some old) : moved ≠ address := by
  intro heq
  have hfresh := hplaces.fresh
  rw [heq, hold] at hfresh
  exact absurd hfresh (by simp)

/-- The content of the range was copied into the new one, and then the range went. -/
theorem Places.resizes_moved {moved : Nat} {l₁ l₂ l₃ : LargeHeap}
    (hplaces : l.Places rest lent l.table.get? moved len l₁)
    (hold : l.table.get? address = some old) (hceil : pageCeil? size = some len)
    (hle : old ≤ len) (halign : moved % align = 0) (hzero : ∀ x ∈ bytesAt moved len, l₁.paging.byteAt x = 0)
    (hkeeps : l₁.paging.Keeps (bytesAt moved old)ᶜ l₂.paging) (htable : l₂.table = l₁.table)
    (hcopied : ∀ i < old, l₂.paging.byteAt (moved + i) = l₁.paging.byteAt (address + i))
    (hfrees : l₂.Frees rest lent address l₃) :
    l.Resizes rest lent address old size align (some moved) l₃ := by
  have hne := hplaces.ne hold
  have hsizes : Function.update l₁.table.get? address none =
      Function.update (Function.update l.table.get? address none) moved (some len) := by
    rw [hplaces.sizes_eq, Function.update_comm hne.symm]
  have hfresh : Function.update l.table.get? address none moved = none := by
    rw [Function.update_of_ne hne, hplaces.fresh]
  have hkept := hfrees.keeps
  have hleft := hfrees.sizes_eq
  rw [htable, hsizes] at hkept hleft
  rw [extent_update_some, update_none_of_absent hfresh] at hkept
  have hmoved : ∀ i < len, l₃.paging.byteAt (moved + i) = l₂.paging.byteAt (moved + i) := by
    intro i hi
    apply hkept.byteAt
    refine .inl (.inr (mem_bytesAt.2 ?_))
    omega
  refine ⟨len, hceil, ⟨hfrees.sound, ?_, hfresh, hleft⟩, .inr halign, fun i hi => ?_,
    fun i hge hlt => ?_⟩
  · -- The others lie apart from the new range, so the copy leaves them alone.
    have hsub := Set.union_subset_union_left rest (extent_update_none_subset hold)
    have hout := (hplaces.apart.mono_left hsub).mono_right
      (bytesAt_subset (Nat.le_refl moved) (Nat.add_le_add_left hle moved))
    have hsub' := Set.union_subset_union_left rest
      (Set.subset_union_left (s := extent (Function.update l.table.get? address none))
        (t := bytesAt moved len))
    exact ((hplaces.keeps.mono hsub).trans
      (hkeeps.mono (Set.subset_compl_iff_disjoint_right.2 hout))).trans (hkept.mono hsub')
  · rw [hmoved i (by omega), hcopied i (by omega)]
    apply hplaces.keeps.byteAt
    exact .inl (bytesAt_subset_extent hold (mem_bytesAt.2 (by omega)))
  · rw [hmoved i hlt, hkeeps.byteAt]
    · apply hzero
      rw [mem_bytesAt]
      omega
    · rw [Set.mem_compl_iff, mem_bytesAt]
      omega

/-- The content moves to a new range, which is larger, and the range before goes. -/
theorem Places.ensures_moveInto {moved : Nat}
    (hplaces : l.Places rest lent l.table.get? moved len l')
    (hold : l.table.get? address = some old) (hceil : pageCeil? size = some len)
    (hle : old ≤ len) (halign : moved % align = 0) (hzero : ∀ x ∈ bytesAt moved len, l'.paging.byteAt x = 0) :
    Action.Ensures (do
        copy address moved old
        free address none
        return some moved) l' (l.Resizes rest lent address old size align) Action.never := by
  have hown : bytesAt moved old ⊆ extent l'.table.get? ∪ rest := by
    rw [hplaces.extent_eq]
    exact (bytesAt_subset (Nat.le_refl moved) (Nat.add_le_add_left hle moved)).trans
      (Set.subset_union_right.trans Set.subset_union_left)
  simp only [Action.ensures_bind, Action.ensures_pure]
  apply (hplaces.sound.ensures_copy hown).weaken
  rintro _ l₂ ⟨hsound, hkeeps, htable, hcopied⟩
  have hold' : l₂.table.get? address = some old := by
    rw [htable, hplaces.sizes_eq, Function.update_of_ne (hplaces.ne hold).symm, hold]
  refine (hsound.ensures_free hold' none).mono ?_ ?_
  · intro _ l₃ hfrees
    exact hplaces.resizes_moved hold hceil hle halign hzero hkeeps htable hcopied hfrees
  · intro e _ hclaims
    obtain ⟨given, hclaimed, -⟩ := hclaims
    exact absurd hclaimed (by simp)

theorem Sound.ensures_move (h : l.Sound rest lent) (hold : l.table.get? address = some old)
    (hceil : pageCeil? size = some len) (hpos : 0 < len) (hle : old ≤ len)
    (halign : Word.isPowerOfTwo align = true) :
    Action.Ensures (do
        match ← allocate len align with
        | none => return none
        | some moved =>
            copy address moved old
            free address none
            return some moved) l (l.Resizes rest lent address old size align) Action.never := by
  obtain ⟨-, hlen, -⟩ := pageCeil?_eq_some_iff.1 hceil
  rw [Action.ensures_bind]
  apply (h.ensures_allocate hpos halign).weaken
  intro moved? l' hallocates
  cases moved? with
  | none => exact .answer hallocates
  | some moved =>
      obtain ⟨len', hceil', hplaces, hmod, hzero⟩ := hallocates
      obtain rfl := pageCeil?_of_pageCeil? hlen hceil'
      exact hplaces.ensures_moveInto hold hceil hle hmod hzero

theorem Resizes.of_rests {answer : Option Nat} (hrests : l.Rests rest lent l')
    (hold : l.table.get? address = some old)
    (h : l'.Resizes rest lent address old size align answer l'') :
    l.Resizes rest lent address old size align answer l'' := by
  have hkept := hrests.keeps
  cases answer with
  | none => exact hrests.trans h (Set.Subset.refl rest)
  | some moved =>
      obtain ⟨len, hceil, hplaces, hmod, hfront, htail⟩ := h
      rw [hrests.table_eq] at hplaces
      have hsub := Set.union_subset_union_left rest (extent_update_none_subset hold)
      refine ⟨len, hceil, ⟨hplaces.sound, (hkept.mono hsub).trans hplaces.keeps, hplaces.fresh,
        hplaces.sizes_eq⟩, hmod, fun i hi => ?_, htail⟩
      rw [hfront i hi]
      apply hkept.byteAt
      exact .inl (bytesAt_subset_extent hold (mem_bytesAt.2 (by omega)))

/-- A range may grow in place; else it moves. -/
theorem Sound.ensures_grow (h : l.Sound rest lent) (hold : l.table.get? address = some old)
    (hceil : pageCeil? size = some len) (hlt : old < len)
    (halign : Word.isPowerOfTwo align = true) :
    Action.Ensures (do
        if ← onPages (Paging.extendInPlace address old len) then
          updateTable fun t => (t.set address len).2
          return some address
        else
          match ← allocate len align with
          | none => return none
          | some moved =>
              copy address moved old
              free address none
              return some moved) l (l.Resizes rest lent address old size align)
      Action.never := by
  obtain ⟨-, hlen, -⟩ := pageCeil?_eq_some_iff.1 hceil
  have hown : bytesAt address old ⊆ l.table.storageBytes ∪ (extent l.table.get? ∪ rest) :=
    fun x hx => .inr (.inl (bytesAt_subset_extent hold hx))
  rw [Action.ensures_bind, ensures_onPages]
  apply (h.paging.ensures_extendInPlace hown (h.spread.size_pos _ _ hold) hlt
    (h.spread.page_mod _ _ hold) (h.spread.size_mod _ _ hold) hlen).weaken
  intro grown p hextends
  obtain ⟨tail, rfl⟩ : ∃ tail, len = old + tail := ⟨len - old, by omega⟩
  rw [Nat.add_sub_cancel_left] at hextends
  cases grown with
  | false =>
      have hrests := h.rests hextends.1 hextends.2
      have hold' := hold
      rw [← hrests.table_eq] at hold'
      rw [if_neg (by simp)]
      apply (hrests.sound.ensures_move hold' hceil (by omega) (by omega) halign).weaken
      intro answer l'' hresizes
      exact hresizes.of_rests hrests hold
  | true =>
      obtain ⟨hkeeps, hsupplies⟩ := hextends
      rw [Nat.add_assoc] at hsupplies
      rw [if_pos rfl, Action.ensures_bind, ensures_updateTable]
      exact .answer (h.resizes_grown hold hceil (h.gets_of_supplies hkeeps hsupplies))

theorem Sound.ensures_resize (h : l.Sound rest lent) (hold : l.table.get? address = some old)
    (hpos : 0 < size) (halign : Word.isPowerOfTwo align = true) :
    Action.Ensures (resize address size align) l (l.Resizes rest lent address old size align)
      Action.never := by
  unfold resize
  cases hceil : pageCeil? size with
  | none => exact .answer h.rests_self
  | some len =>
      obtain ⟨-, -, hle, -⟩ := pageCeil?_eq_some_iff.1 hceil
      have hlenpos := Nat.lt_of_lt_of_le hpos hle
      rw [Action.ensures_bind]
      apply ensures_sizeOf hold
      rw [Action.ensures_ite, Action.ensures_ite]
      split
      · rename_i heq
        exact .answer (h.resizes_same hold (heq ▸ hceil))
      · rename_i hne
        split
        · exact h.ensures_shrink hold hceil hlenpos ‹len < old›
        · exact h.ensures_grow hold hceil (by omega) halign

theorem Sound.ensures_trim (h : l.Sound rest lent) (pad : Nat) :
    Action.Ensures (trim pad) l (fun _ l' => l.Rests rest lent l') Action.never := by
  rw [trim, ensures_onPages]
  apply (h.paging.ensures_trim pad).weaken
  intro _ p hpost
  exact h.rests hpost.1 hpost.2

end LargeHeap
end PagedHeap
