import PagedHeap.Proofs.Large.Operations

/-!
# What an allocation does not need

An alignment above a page is met by a range that is longer than needed.  What lies around the part
that is kept goes back at once, and then the part is recorded, for which the table may grow.  That
makes calls, but it takes nothing from the supplier's cache, so the supplier still has what went back.

An allocation that is to be no longer than it is stays where it is, and its end goes back.  No memory
is asked for, so that cannot fail.
-/

namespace PagedHeap
namespace LargeHeap

open PagedHeap.Action SizeTable

/-- What the supplier had in its cache it has again: cached, or it went back to the kernel. -/
def HasAgain (l l' : LargeHeap) : Prop := l.paging.Regains ∅ l'.paging

variable {l l' : LargeHeap} {rest : Set Nat} {lent address old len size align : Nat}

/-! ## Around an aligned part -/

instance : Std.Refl HasAgain := ⟨fun l => l.paging.regains_refl⟩

instance : IsTrans LargeHeap HasAgain where
  trans _ _ _ h h' := by
    have hboth := Paging.Regains.trans h h'
    rwa [Set.union_empty] at hboth

theorem hasAgain_updateTable (f : SizeTable → SizeTable) : Leaves HasAgain (updateTable f) :=
  confined_modify fun l => l.paging.regains_refl

theorem hasAgain_call {α : Type} {step : Kernel → α × Kernel}
    (hcalls : ∀ k, ∃ call, (step k).2.calls = call :: k.calls) :
    Leaves HasAgain (onPages (Paging.call step)) := by
  intro l
  obtain ⟨call, hcall⟩ := hcalls l.paging.kernel
  rw [ensures_onPages, Paging.ensures_call]
  exact Paging.regains_nothing ⟨[call], hcall⟩ rfl

theorem hasAgain_growTable : Leaves HasAgain growTable := by
  refine confined_get.bind fun l => (confined_checked trivial _).bind fun bytes => ?_
  refine (hasAgain_call fun k => ⟨_, k.calls_mapAny 0 bytes⟩).bind fun storage? => ?_
  cases storage? with
  | none => exact confined_pure false
  | some storage =>
      have hunmapped : Leaves HasAgain (onPages
          (Paging.unmap l.table.storage (l.table.capacity * SizeTable.slotWidth))) :=
        hasAgain_call fun _ => ⟨_, rfl⟩
      exact (hasAgain_updateTable _).bind fun _ => (hunmapped.onlyIf _).bind fun _ =>
        confined_pure true

theorem hasAgain_recordSize (address len : Nat) : Leaves HasAgain (recordSize address len) := by
  have hroom : Leaves HasAgain ensureRoom :=
    confined_get.bind fun _ => Confined.ite hasAgain_growTable (confined_pure true)
  exact hroom.bind fun room => ((hasAgain_updateTable _).onlyIf _).bind fun _ => confined_pure room

/-- The answer to a request with an alignment above a page was cut out of a longer range. -/
theorem Sound.ensures_allocate_cutsOut (h : l.Sound rest lent) (hpos : 0 < size)
    (halign : Word.isPowerOfTwo align = true) (hover : pageSize < align) :
    Ensures (allocate size align) l
      (fun address? l' => ∀ a, address? = some a → ∃ len, pageCeil? size = some len ∧
        l.paging.CutsOut len (align - pageSize) a l'.paging) fun _ _ => True := by
  have hpage := isPowerOfTwo_dvd isPowerOfTwo_pageSize halign (Nat.le_of_lt hover)
  have htakes : ∀ len, takeRange len align = takeOverAligned len align :=
    fun len => if_neg (Nat.not_le.2 hover)
  simp only [allocate, htakes, ensures_bind]
  apply ensures_require
  · simp [hpos, halign]
  cases hceil : pageCeil? size with
  | none => exact .answer fun a ha => absurd ha (by simp)
  | some len =>
      obtain ⟨-, hlen, hle, -⟩ := pageCeil?_eq_some_iff.1 hceil
      have hlenpos := Nat.lt_of_lt_of_le hpos hle
      rw [ensures_bind]
      apply (h.ensures_takeOverAligned hlenpos hlen halign hpage).weaken
      rintro address? l₁ ⟨hgets, hcut⟩
      cases address? with
      | none => exact .answer fun a ha => absurd ha (by simp)
      | some address =>
          obtain ⟨-, hcut⟩ := hcut address rfl
          rw [ensures_bind]
          apply (hasAgain_recordSize address len l₁).imp
          intro room l₂ hagain
          rw [ensures_ite]
          split
          · refine .answer fun a ha => ⟨len, rfl, ?_⟩
            obtain rfl := Option.some.inj ha
            exact hcut.regains hagain
          · -- A range without an entry goes back, and is no answer.
            rw [ensures_bind]
            exact .of_all (fun _ _ => .answer fun a ha => absurd ha (by simp)) fun _ _ => trivial

/-! ## Behind the end -/

/-- The least number of whole pages that holds `size` bytes, in bytes. -/
def wholePages (size : Nat) : Nat := pagesFor size * pageSize

theorem pageCeil?_eq_some_iff_wholePages :
    pageCeil? size = some len ↔ size + (pageSize - 1) < Word.limit ∧ len = wholePages size := by
  rw [pageCeil?_eq_some_iff]
  simp only [wholePages, pagesFor, pageSize]
  omega

theorem le_wholePages (size : Nat) : size ≤ wholePages size := by
  simp only [wholePages, pagesFor, pageSize]
  omega

/-- All bytes of an allocation have an address. -/
theorem Sound.size_le (h : l.Sound rest lent) (hold : l.table.get? address = some old) :
    old ≤ Word.signedLimit := by
  have hpos := h.spread.size_pos _ _ hold
  have hlast : address + (old - 1) ∈ extent l.table.get? :=
    bytesAt_subset_extent hold (mem_bytesAt.2 (by omega))
  have hlt := h.paging.lt_signedLimit (.inr (.inl hlast))
  omega

/-- An allocation of `old` bytes that is to have no more than that stays where it is, and no memory
is asked for. -/
theorem Sound.ensures_resize_within (h : l.Sound rest lent)
    (hold : l.table.get? address = some old) :
    Ensures (resize address size align) l
      (fun answer? l' => wholePages size ≤ old → answer? = some address ∧
        l.paging.Asks (fun call => call.maps = false) l'.paging) fun _ _ => True := by
  by_cases hle : wholePages size ≤ old
  · -- So many bytes are in use already that rounding up does not leave the words.
    have hceil : pageCeil? size = some (wholePages size) := by
      have hsize := le_wholePages size
      have hlimit := h.size_le hold
      refine pageCeil?_eq_some_iff_wholePages.2 ⟨?_, rfl⟩
      simp only [pageSize, Word.limit, Word.signedLimit] at hlimit ⊢
      omega
    unfold resize
    rw [hceil]
    simp only [ensures_bind]
    apply ensures_sizeOf hold
    rw [ensures_ite, ensures_ite]
    split
    · exact .answer fun _ => ⟨rfl, Paging.asks_nothing rfl⟩
    · rename_i hne
      rw [if_pos (Nat.lt_of_le_of_ne hle hne)]
      simp only [ensures_bind, ensures_updateTable, ensures_onPages, ensures_pure]
      apply (Paging.mapsNothing_reclaim (address + wholePages size) (old - wholePages size)
        { noMergeLeft := true } l.paging).imp
      exact fun _ _ hasks _ => ⟨trivial, hasks⟩
  · exact .of_all (fun _ _ hwithin => absurd hwithin hle) fun _ _ => trivial

end LargeHeap
end PagedHeap
