import PagedHeap.Proofs.Large.Sound

/-!
# Entries and ranges

Before a range is handed out its size is recorded, for which the table may have to grow.  An
alignment above a page is met with a range that holds one that is aligned, and what is left
of it at both ends goes back.
-/

namespace PagedHeap
namespace LargeHeap

open SizeTable

variable {l l' : LargeHeap} {rest : Set Nat} {lent : Nat}

/-! ## Room for an entry -/

theorem onPages_onlyIf {condition : Bool} {action : Action Paging Unit} :
    onPages (Action.onlyIf condition action) = Action.onlyIf condition (onPages action) := by
  cases condition with
  | true => rfl
  | false => rfl

/-- Room was made in the table, with the sizes as before, or nothing was changed. -/
def GrowsTable (l : LargeHeap) (rest : Set Nat) (lent : Nat) : Bool → LargeHeap → Prop
  | false, l' => l.Rests rest lent l'
  | true, l' => MakesRoom l.table true l'.table ∧ l'.Sound rest lent ∧
      l.paging.Keeps (extent l.table.get? ∪ rest) l'.paging

/-- The storage before the new one is unmapped, if there was one. -/
theorem Sound.ensures_unmapStorage {p : Paging} {new : Set Nat} (h : l.Sound rest lent)
    (hpaging : p.Sound (l.table.storageBytes ∪ (extent l.table.get? ∪ rest) ∪ new)
      (l.table.total + lent))
    (hnew : Disjoint (l.table.storageBytes ∪ (extent l.table.get? ∪ rest)) new) :
    Action.Ensures (Action.onlyIf (l.table.storage != 0)
        (Paging.unmap l.table.storage (l.table.capacity * slotWidth))) p
      (fun _ p' => p.Keeps (new ∪ (extent l.table.get? ∪ rest)) p' ∧
        p'.Sound (new ∪ (extent l.table.get? ∪ rest)) (l.table.total + lent)) Action.never := by
  have hshape : l.table.storageBytes ∪ (extent l.table.get? ∪ rest) ∪ new =
      new ∪ (extent l.table.get? ∪ rest) ∪ l.table.storageBytes := by
    ext x
    simp only [Set.mem_union]
    tauto
  rw [hshape] at hpaging
  rw [Action.ensures_onlyIf]
  split
  · refine (hpaging.ensures_unmapApart ?_ h.storage_mod h.storage_len_mod).weaken
      fun _ _ hpost => hpost
    rw [Set.disjoint_union_left] at hnew ⊢
    exact ⟨hnew.1.symm, h.storage_apart.symm⟩
  · rename_i hnone
    have hzero : l.table.capacity = 0 := h.storage_eq_zero.1 (by simpa using hnone)
    have hempty : l.table.storageBytes = ∅ := by
      rw [storageBytes, hzero, Nat.zero_mul, bytesAt_zero]
    rw [hempty, Set.union_empty] at hpaging
    exact ⟨Paging.Keeps.refl _ _, hpaging⟩

/-- A larger table in new storage is sound, once the old storage is gone. -/
theorem Sound.rehashed {p : Paging} {storage : Nat} (h : l.Sound rest lent)
    (hmakes : MakesRoom l.table true (l.table.rehash l.table.nextCapacity storage))
    (hplace : storage ≠ 0) (haligned : storage % pageSize = 0)
    (hapart : Disjoint (extent l.table.get? ∪ rest)
      (bytesAt storage (l.table.nextCapacity * slotWidth)))
    (hpaging : p.Sound (bytesAt storage (l.table.nextCapacity * slotWidth) ∪
      (extent l.table.get? ∪ rest)) (l.table.total + lent)) :
    Sound ⟨p, l.table.rehash l.table.nextCapacity storage⟩ rest lent := by
  obtain ⟨hpower, hmin, hfits⟩ := h.table.nextCapacity
  obtain ⟨hvalid, hget, -⟩ := hmakes.valid h.table
  obtain ⟨-, hcap, -⟩ := h.table.rehash hpower hmin (by omega) storage
  have hbytes : (l.table.rehash l.table.nextCapacity storage).storageBytes =
      bytesAt storage (l.table.nextCapacity * slotWidth) := by
    rw [storageBytes, hcap]
    rfl
  have hcapacity : l.table.nextCapacity ≠ 0 := by
    rw [minCapacity] at hmin
    omega
  refine ⟨hvalid, ?_, ?_, haligned, ?_, ?_, ?_⟩
  · rw [hget]
    exact h.spread
  · rw [hcap]
    exact iff_of_false hplace hcapacity
  · rw [hget]
    exact h.apart
  · rw [hget, hbytes]
    exact hapart.symm
  · rw [hget, hbytes, h.table.total_congr hvalid hget]
    exact hpaging

theorem Sound.ensures_growTable (h : l.Sound rest lent) (hroom : l.table.needsRoom = true) :
    Action.Ensures growTable l (l.GrowsTable rest lent) Action.never := by
  obtain ⟨hpower, hmin, -⟩ := h.table.nextCapacity
  simp only [growTable, Action.ensures_bind, Action.ensures_get, h.exists_nextBytes hroom,
    Action.ensures_checked_some, ensures_onPages]
  apply (h.paging.ensures_mapApart 0 (mul_slotWidth_mod hpower hmin)).weaken
  intro storage? p hobtains
  cases storage? with
  | none => exact .answer (h.rests hobtains.1 hobtains.2)
  | some storage =>
      obtain ⟨hkeeps, hsupplies⟩ := hobtains
      have hmakes : MakesRoom l.table true (l.table.rehash l.table.nextCapacity storage) :=
        .inr ⟨hroom, storage, rfl⟩
      have hpos : 0 < l.table.nextCapacity * slotWidth := by
        simp only [minCapacity, pageSize, slotWidth] at hmin ⊢
        omega
      have hplace : storage ≠ 0 := by
        rintro rfl
        apply hsupplies.sound.kernel.zero_notMem
        exact hsupplies.sound.out_used (.inr (mem_bytesAt.2 (by omega)))
      have hapart := Set.disjoint_union_left.1 hsupplies.apart
      simp only [Action.ensures_bind, ensures_updateTable, Action.ensures_pure, ← onPages_onlyIf,
        ensures_onPages]
      apply (h.ensures_unmapStorage hsupplies.sound hsupplies.apart).weaken
      rintro _ p' ⟨hkeeps', hsound⟩
      exact ⟨hmakes, h.rehashed hmakes hplace hsupplies.aligned hapart.2 hsound,
        (hkeeps.mono Set.subset_union_right).trans (hkeeps'.mono Set.subset_union_right)⟩

theorem Sound.ensures_ensureRoom (h : l.Sound rest lent) :
    Action.Ensures ensureRoom l (l.GrowsTable rest lent) Action.never := by
  simp only [ensureRoom, Action.ensures_bind, Action.ensures_get, Action.ensures_ite]
  split
  · exact h.ensures_growTable ‹_›
  · rename_i hroom
    exact .answer ⟨.inl ⟨by simpa using hroom, rfl⟩, h, Paging.Keeps.refl _ _⟩

/-- A range of the rest gets an entry, if there is room for one. -/
def Records (l : LargeHeap) (rest : Set Nat) (lent address len : Nat) : Bool → LargeHeap → Prop
  | false, l' => l.Rests (rest ∪ bytesAt address len) (lent + len) l'
  | true, l' => l'.Sound rest lent ∧
      l.paging.Keeps (extent l.table.get? ∪ (rest ∪ bytesAt address len)) l'.paging ∧
      l.table.get? address = none ∧
      l'.table.get? = Function.update l.table.get? address (some len)

theorem Sound.ensures_recordSize {address len : Nat}
    (h : l.Sound (rest ∪ bytesAt address len) (lent + len))
    (hapart : Disjoint rest (bytesAt address len)) (haddress : address % pageSize = 0)
    (hlen : len % pageSize = 0) (hpos : 0 < len) :
    Action.Ensures (recordSize address len) l (l.Records rest lent address len)
      Action.never := by
  simp only [recordSize, Action.ensures_bind]
  apply h.ensures_ensureRoom.weaken
  intro room l' hgrows
  cases room with
  | false =>
      rw [Action.onlyIf_false]
      exact .answer (.answer hgrows)
  | true =>
      obtain ⟨hmakes, hsound, hkeeps⟩ := hgrows
      obtain ⟨hvalid, hget, hroom⟩ := hmakes.valid h.table
      have habsent := hsound.get?_eq_none (.inr (mem_bytesAt_self address hpos))
      obtain ⟨hadded, hcapacity, hupdate⟩ := hvalid.add (hroom rfl) habsent len
      have hentered : (l'.table.add address len).get? =
          Function.update l'.table.get? address (some len) := by
        funext page
        rw [hupdate, Function.update_apply]
      have henter := hsound.enter hapart hadded hentered rfl hcapacity haddress hlen hpos
      rw [hget] at habsent hentered
      rw [Action.onlyIf_true, ensures_updateTable]
      exact .answer ⟨henter.2, hkeeps, habsent, hentered⟩

/-! ## Taking a range -/

/-- What lies around the `len` bytes goes back, and the supplier has it again. -/
theorem Sound.ensures_returnEnds {raw head len tail : Nat}
    (h : l.Sound (rest ∪ bytesAt raw (head + (len + tail))) (lent + (head + (len + tail))))
    (hapart : Disjoint rest (bytesAt raw (head + (len + tail)))) (hraw : raw % pageSize = 0)
    (hhead : head % pageSize = 0) (hlen : len % pageSize = 0) (htail : tail % pageSize = 0)
    (hpos : 0 < len) (hzero : ∀ x ∈ bytesAt raw (head + (len + tail)), l.paging.byteAt x = 0) :
    Action.Ensures (returnEnds raw (head + (len + tail)) (raw + head) len) l
      (fun _ l' => l.Rests (rest ∪ bytesAt (raw + head) len) (lent + len) l' ∧
        l.paging.Regains (bytesAt raw head ∪ bytesAt (raw + head + len) tail) l'.paging)
      Action.never := by
  have hsub : Word.sub? (len + tail) len = some tail := by
    rw [Word.sub?_eq_some_iff]
    omega
  obtain ⟨-, htailapart, hheadapart⟩ := disjoint_bytesAt_parts hapart
  have hheadzero : ∀ x ∈ bytesAt raw head, l.paging.byteAt x = 0 :=
    fun x hx => hzero x (bytesAt_subset (Nat.le_refl raw) (by omega) hx)
  rw [union_bytesAt_parts, show lent + (head + (len + tail)) = lent + len + tail + head by omega]
    at h
  simp only [returnEnds, Nat.add_sub_cancel_left, Action.ensures_bind]
  rw [hsub, Action.ensures_checked_some]
  -- Between the ends there is what is about to be used, so they touch nothing that is cached.
  have hbehind : raw + head ∈ extent l.table.get? ∪
      (rest ∪ bytesAt (raw + head) len ∪ bytesAt (raw + head + len) tail) :=
    .inr (.inl (.inr (mem_bytesAt_self _ hpos)))
  apply (h.ensures_returnPart hheadapart hraw hhead hheadzero
    (Paging.not_parts_of_behind rfl hbehind)).weaken
  rintro _ l₁ ⟨hrests, hback⟩
  have hplace : (raw + head + len) % pageSize = 0 := by
    simp only [pageSize] at hraw hhead hlen ⊢
    omega
  have htailzero : ∀ x ∈ bytesAt (raw + head + len) tail, l₁.paging.byteAt x = 0 := by
    intro x hx
    rw [hrests.keeps.byteAt x (.inr (.inr hx))]
    exact hzero x (bytesAt_subset (by omega) (by omega) hx)
  have hlast : raw + head + (len - 1) ∈ extent l₁.table.get? ∪ (rest ∪ bytesAt (raw + head) len) :=
    .inr (.inr (mem_bytesAt.2 (by omega)))
  apply (hrests.sound.ensures_returnPart htailapart hplace htail htailzero
    (Paging.not_parts_of_before rfl hlast (by omega))).weaken
  rintro _ l₂ ⟨hrests', hback'⟩
  exact ⟨hrests.trans hrests' Set.subset_union_left, hback.trans hback'⟩

/-- The first aligned address from a page boundary on divides `align - pageSize` bytes, the surplus of
an over-aligned range, into whole pages before it and whole pages to go behind. -/
theorem exists_aligned_cut {raw align : Nat} (halign : Word.isPowerOfTwo align = true)
    (hpage : pageSize ∣ align) (hraw : raw % pageSize = 0)
    (hlast : raw + (align - pageSize) < Word.signedLimit) :
    ∃ head tail, Word.alignUp? raw align = some (raw + head) ∧ (raw + head) % align = 0 ∧
      align - pageSize = head + tail ∧ head % pageSize = 0 ∧ tail % pageSize = 0 := by
  have hmod := Nat.mod_eq_zero_of_dvd hpage
  have hle := Nat.le_of_dvd (Word.pos_of_isPowerOfTwo halign) hpage
  obtain ⟨start, hstart, hfirst, hstop, haligned⟩ := Word.exists_alignUp halign
    (show raw + (align - 1) < Word.limit by
      simp only [Word.signedLimit, Word.limit, pageSize] at hlast ⊢
      omega)
  have hstartmod : start % pageSize = 0 :=
    Nat.mod_eq_zero_of_dvd (Nat.dvd_trans hpage (Nat.dvd_of_mod_eq_zero haligned))
  obtain ⟨head, rfl⟩ : ∃ head, start = raw + head := ⟨start - raw, by omega⟩
  obtain ⟨tail, htail⟩ : ∃ tail, align - pageSize = head + tail := by
    refine ⟨align - pageSize - head, ?_⟩
    simp only [pageSize] at *
    omega
  refine ⟨head, tail, hstart, haligned, htail, ?_, ?_⟩
  · simp only [pageSize] at *
    omega
  · simp only [pageSize] at *
    omega

/-- A range of more than is needed holds one that is aligned. -/
theorem Sound.ensures_cutAligned {l₀ : LargeHeap} {raw len align : Nat}
    (hgets : l₀.Gets rest lent (len + (align - pageSize)) (some raw) l)
    (hrun : Paging.allocate (len + (align - pageSize)) l₀.paging = .ok (some raw) l.paging)
    (hpos : 0 < len) (hlen : len % pageSize = 0) (halign : Word.isPowerOfTwo align = true)
    (hpage : pageSize ∣ align) :
    Action.Ensures (do
        let start ← Action.checked (Word.alignUp? raw align)
        returnEnds raw (len + (align - pageSize)) start len
        return some start) l
      (fun address? l' => l₀.Gets rest lent len address? l' ∧
        ∀ a, address? = some a → a % align = 0 ∧
          l₀.paging.CutsOut len (align - pageSize) a l'.paging) Action.never := by
  obtain ⟨hsound, hkeeps, htable, hapart, hraw, hzero⟩ := hgets
  have hlast : raw + (len + (align - pageSize) - 1) < Word.signedLimit := by
    apply hsound.paging.lt_signedLimit
    refine .inr (.inr (.inr (mem_bytesAt.2 ?_)))
    omega
  obtain ⟨head, tail, hstart, haligned, htail, hheadmod, htailmod⟩ :=
    exists_aligned_cut halign hpage hraw (by omega)
  have htotal : len + (align - pageSize) = head + (len + tail) := by omega
  have hstartmod : (raw + head) % pageSize = 0 :=
    Nat.mod_eq_zero_of_dvd (Nat.dvd_trans hpage (Nat.dvd_of_mod_eq_zero haligned))
  rw [htotal] at hsound hapart hzero ⊢
  have hall := Set.disjoint_union_left.1 hapart
  simp only [hstart, Action.ensures_bind, Action.ensures_checked_some, Action.ensures_pure]
  apply (hsound.ensures_returnEnds hall.2 hraw hheadmod hlen htailmod hpos hzero).weaken
  rintro _ l' ⟨hrests, hback⟩
  have hsub : bytesAt (raw + head) len ⊆ bytesAt raw (head + (len + tail)) :=
    bytesAt_subset (by omega) (by omega)
  have hspares := hrests.spares
  rw [htable] at hspares
  refine ⟨⟨hrests.sound, ?_, hrests.table_eq.trans htable, hapart.mono_right hsub,
    hstartmod, fun x hx => ?_⟩, ?_⟩
  · exact hkeeps.trans (hspares.mono (Set.union_subset_union_right _
      (Set.union_subset_union_right _ Set.subset_union_left)))
  · rw [hspares.byteAt x (.inr (.inr (.inr hx)))]
    exact hzero x (hsub hx)
  · intro a ha
    obtain rfl := Option.some.inj ha
    exact ⟨haligned, raw, head, tail, l.paging, hrun, rfl, htail.symm, hback⟩

theorem Sound.ensures_takeOverAligned (h : l.Sound rest lent) {len align : Nat} (hpos : 0 < len)
    (hlen : len % pageSize = 0) (halign : Word.isPowerOfTwo align = true)
    (hpage : pageSize ∣ align) :
    Action.Ensures (takeOverAligned len align) l
      (fun address? l' => l.Gets rest lent len address? l' ∧
        ∀ a, address? = some a → a % align = 0 ∧
          l.paging.CutsOut len (align - pageSize) a l'.paging) Action.never := by
  rw [takeOverAligned]
  cases htotal : Word.add? len (align - pageSize) with
  | none =>
      exact .answer ⟨h.rests_self, fun a ha => by simp at ha⟩
  | some total =>
      obtain ⟨rfl, -⟩ := Word.add?_eq_some_iff.1 htotal
      have htotalmod : (len + (align - pageSize)) % pageSize = 0 :=
        Nat.mod_eq_zero_of_dvd (Nat.dvd_add (Nat.dvd_of_mod_eq_zero hlen)
          (Nat.dvd_sub hpage (Nat.dvd_refl pageSize)))
      simp only [takeAround, Action.ensures_bind]
      apply (h.ensures_obtainPages (Nat.add_pos_left hpos _) htotalmod).with_run.weaken
      rintro raw? l₁ ⟨hrun, hgets⟩
      cases raw? with
      | none => exact .answer ⟨gets_none.2 (gets_none.1 hgets), fun a ha => by simp at ha⟩
      | some raw =>
          obtain ⟨p, hallocated, rfl⟩ := Action.exists_of_within hrun
          exact Sound.ensures_cutAligned hgets hallocated hpos hlen halign hpage

/-- A page aligned range, or one with a higher alignment. -/
theorem Sound.ensures_takeRange (h : l.Sound rest lent) {len align : Nat} (hpos : 0 < len)
    (hlen : len % pageSize = 0) (halign : Word.isPowerOfTwo align = true) :
    Action.Ensures (takeRange len align) l
      (fun address? l' => l.Gets rest lent len address? l' ∧
        ∀ a, address? = some a → a % align = 0) Action.never := by
  rw [takeRange, Action.ensures_ite]
  split
  · apply (h.ensures_obtainPages hpos hlen).weaken
    intro address? l' hgets
    refine ⟨hgets, ?_⟩
    intro a ha
    subst ha
    have hdvd := isPowerOfTwo_dvd halign isPowerOfTwo_pageSize ‹align ≤ pageSize›
    exact Nat.mod_eq_zero_of_dvd
      (Nat.dvd_trans hdvd (Nat.dvd_of_mod_eq_zero hgets.2.2.2.2.1))
  · have hpage := isPowerOfTwo_dvd isPowerOfTwo_pageSize halign
      (Nat.le_of_lt (Nat.lt_of_not_le ‹_›))
    apply (h.ensures_takeOverAligned hpos hlen halign hpage).weaken
    exact fun _ _ hpost => ⟨hpost.1, fun a ha => (hpost.2 a ha).1⟩

end LargeHeap
end PagedHeap
