import PagedHeap.Proofs.Page.Reclaiming
import PagedHeap.Large.Heap
import PagedHeap.Proofs.Large.Extent
import PagedHeap.Proofs.SizeTable.Ledger

/-!
# When an allocator of large ranges is sound

What is out of the supplier's hands is the table's storage, the ranges that the table speaks
of, and `rest`: pages lent to somebody else, and what was never the supplier's.  A range goes
from one to the other by an entry in the table; the supplier does not notice.
-/

namespace PagedHeap

/-- The bytes of the slots. -/
def SizeTable.storageBytes (t : SizeTable) : Set Nat :=
  bytesAt t.storage (t.capacity * SizeTable.slotWidth)

namespace LargeHeap

open SizeTable

/-- The supplier is sound with everything that is out, and the table tells the large ranges.
Of the bytes lent, `lent` are not in them. -/
structure Sound (l : LargeHeap) (rest : Set Nat) (lent : Nat) : Prop where
  table : l.table.Valid
  spread : Spread l.table.get?
  storage_eq_zero : l.table.storage = 0 ↔ l.table.capacity = 0
  storage_mod : l.table.storage % pageSize = 0
  apart : Disjoint (extent l.table.get?) rest
  storage_apart : Disjoint l.table.storageBytes (extent l.table.get? ∪ rest)
  paging : l.paging.Sound (l.table.storageBytes ∪ (extent l.table.get? ∪ rest))
    (l.table.total + lent)

/-- The table is as before, and so is what is out of the supplier's hands. -/
structure Rests (l : LargeHeap) (rest : Set Nat) (lent : Nat) (l' : LargeHeap) : Prop where
  sound : l'.Sound rest lent
  spares : l.paging.Keeps (l.table.storageBytes ∪ (extent l.table.get? ∪ rest)) l'.paging
  table_eq : l'.table = l.table

variable {l l' : LargeHeap} {rest : Set Nat} {lent : Nat} {α : Type}
  {ends : Ending → LargeHeap → Prop}

theorem Rests.keeps (h : l.Rests rest lent l') :
    l.paging.Keeps (extent l.table.get? ∪ rest) l'.paging :=
  h.spares.mono Set.subset_union_right

@[simp] theorem ensures_onPages {action : Action Paging α} {post : α → LargeHeap → Prop} :
    Action.Ensures (onPages action) l post ends ↔
      Action.Ensures action l.paging (fun a p => post a { l with paging := p })
        (fun e p => ends e { l with paging := p }) :=
  Action.ensures_within

@[simp] theorem ensures_updateTable {f : SizeTable → SizeTable}
    {post : Unit → LargeHeap → Prop} :
    Action.Ensures (updateTable f) l post ends ↔ post () { l with table := f l.table } :=
  Action.ensures_iff

/-- Nothing is large at the start, and all that is in use is in other hands. -/
theorem sound_new (config : PageConfig) {k : Kernel} (hvalid : k.Valid) :
    LargeHeap.Sound ⟨⟨k, PageSupplier.new config⟩, empty⟩ k.inUse 0 := by
  have hstorage : empty.storageBytes = ∅ := by
    rw [storageBytes, show empty.capacity = 0 from rfl, Nat.zero_mul]
    exact bytesAt_zero _
  have htotal : empty.total = 0 := by
    apply Finset.sum_eq_zero
    intro page _
    simp [sizeAt]
  refine ⟨valid_empty, spread_empty, ⟨fun _ => rfl, fun _ => rfl⟩, rfl, ?_, ?_, ?_⟩
  · show Disjoint (extent empty.get?) _
    rw [extent_empty]
    exact Set.empty_disjoint _
  · show Disjoint empty.storageBytes _
    rw [hstorage]
    exact Set.empty_disjoint _
  · show Paging.Sound ⟨k, PageSupplier.new config⟩
      (empty.storageBytes ∪ (extent empty.get? ∪ k.inUse)) (empty.total + 0)
    rw [hstorage, extent_empty, htotal, Set.empty_union, Set.empty_union]
    exact Paging.sound_new config hvalid

/-- The same memory told apart in another way. -/
theorem Sound.retable {t : SizeTable} {rest' : Set Nat} {lent' : Nat} (h : l.Sound rest lent)
    (hvalid : t.Valid) (hspread : Spread t.get?) (hstorage : t.storage = l.table.storage)
    (hcapacity : t.capacity = l.table.capacity) (hapart : Disjoint (extent t.get?) rest')
    (hsame : extent t.get? ∪ rest' = extent l.table.get? ∪ rest)
    (htotal : t.total + lent' = l.table.total + lent) :
    ({ l with table := t } : LargeHeap).Sound rest' lent' := by
  have hbytes : t.storageBytes = l.table.storageBytes := by
    rw [storageBytes, storageBytes, hstorage, hcapacity]
  refine ⟨hvalid, hspread, ?_, ?_, hapart, ?_, ?_⟩
  · rw [hstorage, hcapacity]
    exact h.storage_eq_zero
  · rw [hstorage]
    exact h.storage_mod
  · rw [hbytes, hsame]
    exact h.storage_apart
  · rw [hbytes, hsame, htotal]
    exact h.paging

/-- There is no entry for what is in other hands. -/
theorem Sound.get?_eq_none {address : Nat} (h : l.Sound rest lent) (hin : address ∈ rest) :
    l.table.get? address = none := by
  cases hold : l.table.get? address with
  | none => rfl
  | some size =>
      have hsize := h.spread.size_pos address size hold
      have hown := bytesAt_subset_extent hold (mem_bytesAt_self address hsize)
      exact absurd hin (Set.disjoint_left.1 h.apart hown)

/-- A new entry for bytes of the rest. -/
theorem Sound.enter {t : SizeTable} {address len : Nat}
    (h : l.Sound (rest ∪ bytesAt address len) (lent + len))
    (hapart : Disjoint rest (bytesAt address len)) (hvalid : t.Valid)
    (hget : t.get? = Function.update l.table.get? address (some len))
    (hstorage : t.storage = l.table.storage) (hcapacity : t.capacity = l.table.capacity)
    (haddress : address % pageSize = 0) (hlen : len % pageSize = 0) (hpos : 0 < len) :
    l.table.get? address = none ∧ ({ l with table := t } : LargeHeap).Sound rest lent := by
  have hnew := (Set.disjoint_union_right.1 h.apart).2
  have habsent := h.get?_eq_none (.inr (mem_bytesAt_self address hpos))
  have hothers := update_none_of_absent habsent
  have hextent : extent t.get? = extent l.table.get? ∪ bytesAt address len := by
    rw [hget, extent_update_some, hothers]
  have htotal := h.table.total_update hvalid address fun p hp => by
    rw [hget, Function.update_of_ne hp]
  rw [sizeAt, habsent, sizeAt, hget, Function.update_self] at htotal
  simp only [Option.getD_none, Option.getD_some] at htotal
  refine ⟨habsent, h.retable hvalid ?_ hstorage hcapacity ?_ ?_ (by omega)⟩
  · rw [hget]
    apply Spread.update_some _ haddress hlen hpos
    · rw [hothers]
      exact hnew
    · rw [hothers]
      exact h.spread
  · rw [hextent, Set.disjoint_union_left]
    exact ⟨(Set.disjoint_union_right.1 h.apart).1, hapart.symm⟩
  · rw [hextent, Set.union_assoc, Set.union_comm (bytesAt address len)]

/-- The bytes of an entry that is given up belong to the rest. -/
theorem Sound.leave {t : SizeTable} {address len : Nat} (h : l.Sound rest lent)
    (hold : l.table.get? address = some len) (hvalid : t.Valid)
    (hget : t.get? = Function.update l.table.get? address none)
    (hstorage : t.storage = l.table.storage) (hcapacity : t.capacity = l.table.capacity) :
    Disjoint (extent t.get? ∪ rest) (bytesAt address len) ∧
      ({ l with table := t } : LargeHeap).Sound (rest ∪ bytesAt address len) (lent + len) := by
  have hextent := extent_eq_union hold
  have hothers := h.spread.disjoint hold
  have hrest := h.apart
  rw [← hget] at hextent hothers
  rw [hextent, Set.disjoint_union_left] at hrest
  have htotal := h.table.total_update hvalid address fun p hp => by
    rw [hget, Function.update_of_ne hp]
  rw [sizeAt, hold, sizeAt, hget, Function.update_self] at htotal
  simp only [Option.getD_none, Option.getD_some] at htotal
  refine ⟨Set.disjoint_union_left.2 ⟨hothers, hrest.2.symm⟩,
    h.retable hvalid ?_ hstorage hcapacity ?_ ?_ (by omega)⟩
  · rw [hget]
    exact h.spread.update_none address
  · exact Set.disjoint_union_right.2 ⟨hrest.1, hothers⟩
  · rw [hextent, Set.union_assoc, Set.union_comm (bytesAt address len)]

/-- An entry gets another size, and the rest what becomes free by that or is needed for it. -/
theorem Sound.reenter {rest' : Set Nat} {lent' address old len : Nat} (h : l.Sound rest lent)
    (hold : l.table.get? address = some old) (hlen : len % pageSize = 0) (hpos : 0 < len)
    (hsame : rest ∪ bytesAt address old = rest' ∪ bytesAt address len)
    (hlent : lent + old = lent' + len) (hapart : Disjoint rest' (bytesAt address len)) :
    (l.table.set address len).2.get? = Function.update l.table.get? address (some len) ∧
      ({ l with table := (l.table.set address len).2 } : LargeHeap).Sound rest' lent' := by
  obtain ⟨-, hremoved, hcapacity, hremove⟩ := h.table.remove_of_present hold
  obtain ⟨-, hset, hcapacity', hupdate⟩ := h.table.set_of_present hold len
  have hget : (l.table.remove address).2.get? = Function.update l.table.get? address none := by
    funext page
    rw [hremove, Function.update_apply]
  have hget' : (l.table.set address len).2.get? =
      Function.update l.table.get? address (some len) := by
    funext page
    rw [hupdate, Function.update_apply]
  obtain ⟨-, hleft⟩ := h.leave hold hremoved hget (storage_remove _ _) hcapacity
  rw [hsame, hlent] at hleft
  refine ⟨hget', (hleft.enter hapart hset ?_ ?_ ?_ (h.spread.page_mod _ _ hold) hlen hpos).2⟩
  · rw [hget', hget, Function.update_idem]
  · rw [storage_set, storage_remove]
  · rw [hcapacity', hcapacity]

/-- The supplier has changed, and the bytes of the rest with it. -/
theorem Sound.repage {p : Paging} {rest' : Set Nat} {lent' : Nat} (h : l.Sound rest lent)
    (hapart : Disjoint (l.table.storageBytes ∪ extent l.table.get?) rest')
    (hpaging : p.Sound (l.table.storageBytes ∪ (extent l.table.get? ∪ rest'))
      (l.table.total + lent')) :
    ({ l with paging := p } : LargeHeap).Sound rest' lent' := by
  rw [Set.disjoint_union_left] at hapart
  refine ⟨h.table, h.spread, h.storage_eq_zero, h.storage_mod, hapart.2, ?_, hpaging⟩
  rw [Set.disjoint_union_right]
  exact ⟨(Set.disjoint_union_right.1 h.storage_apart).1, hapart.1⟩

theorem Sound.out_apart (h : l.Sound rest lent) :
    Disjoint (l.table.storageBytes ∪ extent l.table.get?) rest := by
  rw [Set.disjoint_union_left]
  exact ⟨(Set.disjoint_union_right.1 h.storage_apart).2, h.apart⟩

/-- The bytes that are needed, where those of `mine` are lent besides large allocations. -/
def own (l : LargeHeap) (mine : Set Nat) : Set Nat :=
  l.table.storageBytes ∪ (extent l.table.get? ∪ (mine ∪ Ranges.bytes l.paging.cached))

/-- Others change what is not needed. -/
theorem Sound.environment {k : Kernel} {mine foreign : Set Nat} (h : l.Sound (mine ∪ foreign) lent)
    (hvalid : k.Valid) (huse : l.own mine ⊆ k.inUse)
    (hsame : ∀ y ∈ l.own mine, k.memory.byteAt y = l.paging.byteAt y) :
    ({ l with paging := { l.paging with kernel := k } } : LargeHeap).Sound
      (mine ∪ k.inUse \ l.own mine) lent := by
  have hout := Set.disjoint_union_left.1 h.paging.apart
  have hout' := Set.disjoint_union_left.1 hout.2
  have hlent := Set.disjoint_union_left.1 hout'.2
  have hgone : ∀ {part : Set Nat}, part ⊆ l.own mine → Disjoint part (k.inUse \ l.own mine) :=
    fun hsub => Set.disjoint_left.2 fun y hy hin => hin.2 (hsub hy)
  have hfixed : l.table.storageBytes ∪ extent l.table.get? ⊆ l.own mine :=
    Set.union_subset_union_right _ Set.subset_union_left
  have hranges : Ranges.bytes l.paging.cached ⊆ l.own mine := fun y hy => .inr (.inr (.inr hy))
  refine h.repage ?_ (h.paging.environment hvalid ?_ ?_ fun y hy => hsame y (hranges hy))
  · exact Set.disjoint_union_right.2
      ⟨h.out_apart.mono_right Set.subset_union_left, hgone hfixed⟩
  · exact Set.disjoint_union_left.2 ⟨hout.1, Set.disjoint_union_left.2
      ⟨hout'.1, Set.disjoint_union_left.2 ⟨hlent.1, (hgone hranges).symm⟩⟩⟩
  · -- What is in use is needed, or foreign.
    ext y
    constructor
    · intro hy
      by_cases hown : y ∈ l.own mine
      · rcases hown with hin | hin | hin | hin
        · exact .inl (.inl hin)
        · exact .inl (.inr (.inl hin))
        · exact .inl (.inr (.inr (.inl hin)))
        · exact .inr hin
      · exact .inl (.inr (.inr (.inr ⟨hy, hown⟩)))
    · intro hy
      rcases hy with (hin | hin | hin | hin) | hin
      · exact huse (.inl hin)
      · exact huse (.inr (.inl hin))
      · exact huse (.inr (.inr (.inl hin)))
      · exact hin.1
      · exact huse (hranges hin)

/-- The supplier has changed, and nothing else. -/
theorem Sound.rests {p : Paging} (h : l.Sound rest lent)
    (hkeeps : l.paging.Keeps (l.table.storageBytes ∪ (extent l.table.get? ∪ rest)) p)
    (hpaging : p.Sound (l.table.storageBytes ∪ (extent l.table.get? ∪ rest))
      (l.table.total + lent)) :
    l.Rests rest lent { l with paging := p } :=
  ⟨h.repage h.out_apart hpaging, hkeeps, rfl⟩

theorem Sound.rests_self (h : l.Sound rest lent) : l.Rests rest lent l :=
  h.rests (Paging.Keeps.refl _ _) h.paging

theorem Rests.trans {rest' : Set Nat} {lent' : Nat} {l'' : LargeHeap}
    (h : l.Rests rest' lent' l') (h' : l'.Rests rest lent l'') (hsub : rest ⊆ rest') :
    l.Rests rest lent l'' := by
  have hspares' := h'.spares
  rw [h.table_eq] at hspares'
  have hspares := h.spares.mono (Set.union_subset_union_right l.table.storageBytes
    (Set.union_subset_union_right (extent l.table.get?) hsub))
  exact ⟨h'.sound, hspares.trans hspares', h'.table_eq.trans h.table_eq⟩

/-! ## The supplier at work -/

/-- What a request to the supplier may come to. -/
def Gets (l : LargeHeap) (rest : Set Nat) (lent len : Nat) : Option Nat → LargeHeap → Prop
  | none, l' => l.Rests rest lent l'
  | some address, l' =>
      l'.Sound (rest ∪ bytesAt address len) (lent + len) ∧
        l.paging.Keeps (l.table.storageBytes ∪ (extent l.table.get? ∪ rest)) l'.paging ∧
        l'.table = l.table ∧
        Disjoint (extent l.table.get? ∪ rest) (bytesAt address len) ∧ address % pageSize = 0 ∧
        ∀ x ∈ bytesAt address len, l'.paging.byteAt x = 0

theorem gets_none {len : Nat} : l.Gets rest lent len none l' ↔ l.Rests rest lent l' := Iff.rfl

theorem Sound.gets_of_supplies {p : Paging} {address len : Nat} (h : l.Sound rest lent)
    (hkeeps : l.paging.Keeps (l.table.storageBytes ∪ (extent l.table.get? ∪ rest)) p)
    (hsupplies : p.Supplies (l.table.storageBytes ∪ (extent l.table.get? ∪ rest))
      (l.table.total + (lent + len)) address len) :
    l.Gets rest lent len (some address) { l with paging := p } := by
  have hapart := hsupplies.apart
  rw [Set.disjoint_union_left] at hapart
  have hclient := Set.disjoint_union_left.1 hapart.2
  refine ⟨h.repage ?_ ?_, hkeeps, rfl, hapart.2, hsupplies.aligned, hsupplies.zero⟩
  · rw [Set.disjoint_union_right]
    exact ⟨h.out_apart, Set.disjoint_union_left.2 ⟨hapart.1, hclient.1⟩⟩
  · have hsound := hsupplies.sound
    rwa [Set.union_assoc, Set.union_assoc] at hsound

theorem Sound.ensures_obtainPages (h : l.Sound rest lent) {len : Nat} (hpos : 0 < len)
    (hlen : len % pageSize = 0) :
    Action.Ensures (onPages (Paging.allocate len)) l (l.Gets rest lent len) Action.never := by
  rw [ensures_onPages]
  apply (h.paging.ensures_allocate hpos hlen).weaken
  intro address? p hobtains
  cases address? with
  | none => exact h.rests hobtains.1 hobtains.2
  | some address =>
      obtain ⟨hkeeps, hsupplies⟩ := hobtains
      rw [Nat.add_assoc] at hsupplies
      exact h.gets_of_supplies hkeeps hsupplies

/-- Bytes of the rest are out of the supplier's hands, and all else that is out is apart from them. -/
theorem Sound.divides_rest {address len : Nat} (h : l.Sound (rest ∪ bytesAt address len) lent)
    (hapart : Disjoint rest (bytesAt address len)) :
    l.paging.Sound (l.table.storageBytes ∪ (extent l.table.get? ∪ rest) ∪ bytesAt address len)
        (l.table.total + lent) ∧
      Disjoint (l.table.storageBytes ∪ (extent l.table.get? ∪ rest)) (bytesAt address len) := by
  have hout := h.out_apart
  rw [Set.disjoint_union_right, Set.disjoint_union_left, Set.disjoint_union_left] at hout
  have hpaging := h.paging
  rw [← Set.union_assoc (extent l.table.get?), ← Set.union_assoc] at hpaging
  refine ⟨hpaging, ?_⟩
  rw [Set.disjoint_union_left, Set.disjoint_union_left]
  exact ⟨hout.2.1, hout.2.2, hapart⟩

/-- Bytes of the rest go back to the supplier. -/
theorem Sound.ensures_returnPages {address len : Nat} {opts : ReclaimOptions}
    (h : l.Sound (rest ∪ bytesAt address len) lent)
    (hapart : Disjoint rest (bytesAt address len)) (hpos : 0 < len)
    (haddress : address % pageSize = 0) (hlen : len % pageSize = 0) (hlent : len ≤ lent)
    (hclean : opts.clean = true → ∀ x ∈ bytesAt address len, l.paging.byteAt x = 0)
    (hmerges : ¬Paging.Parts opts (extent l.table.get? ∪ rest) address len) :
    Action.Ensures (onPages (Paging.reclaim address len opts)) l
      (fun _ l' => l.Rests rest (lent - len) l') Action.never := by
  obtain ⟨hpaging, hall⟩ := h.divides_rest hapart
  rw [ensures_onPages]
  apply (hpaging.ensures_reclaim hall hpos haddress hlen hclean (by omega)).weaken
  rintro _ p ⟨hkeeps, hsound⟩
  refine ⟨h.repage ?_ ?_, hkeeps.weaken fun hparts => hmerges (hparts.mono ?_), rfl⟩
  · exact h.out_apart.mono_right Set.subset_union_left
  · rwa [Nat.add_sub_assoc hlent] at hsound
  · exact Set.subset_union_right

/-- Bytes of the rest go back to the supplier, if there are any, and it has them again. -/
theorem Sound.ensures_returnPart {address len : Nat} {opts : ReclaimOptions}
    (h : l.Sound (rest ∪ bytesAt address len) (lent + len))
    (hapart : Disjoint rest (bytesAt address len)) (haddress : address % pageSize = 0)
    (hlen : len % pageSize = 0) (hzero : ∀ x ∈ bytesAt address len, l.paging.byteAt x = 0)
    (hmerges : ¬Paging.Parts opts (extent l.table.get? ∪ rest) address len) :
    Action.Ensures
      (Action.onlyIf (decide (0 < len)) (onPages (Paging.reclaim address len opts))) l
      (fun _ l' => l.Rests rest lent l' ∧ l.paging.Regains (bytesAt address len) l'.paging)
      Action.never := by
  rw [Action.ensures_onlyIf]
  split
  · have hpos : 0 < len := by simpa using ‹decide (0 < len) = true›
    obtain ⟨hpaging, hall⟩ := h.divides_rest hapart
    have hregains : Action.Ensures (onPages (Paging.reclaim address len opts)) l
        (fun _ l' => l.paging.Regains (bytesAt address len) l'.paging) Action.never := by
      rw [ensures_onPages]
      exact hpaging.ensures_regains hall hpos haddress hlen (fun _ => hzero) (by omega)
    apply ((h.ensures_returnPages hapart hpos haddress hlen (Nat.le_add_left len lent)
      (fun _ => hzero) hmerges).and hregains).mono _ fun _ _ hends => hends.1
    rintro _ l' ⟨hrests, hback⟩
    rw [Nat.add_sub_cancel] at hrests
    exact ⟨hrests, hback⟩
  · obtain rfl : len = 0 := by simpa using ‹¬decide (0 < len) = true›
    rw [bytesAt_zero] at h ⊢
    rw [Set.union_empty] at h
    exact ⟨h.rests_self, Paging.regains_refl l.paging⟩

/-! ## The table's storage -/

theorem Sound.total_le (h : l.Sound rest lent) : l.table.total ≤ Word.signedLimit :=
  h.table.total_le h.spread fun _ hx => h.paging.lt_signedLimit (.inr (.inl hx))

/-- The next table is small enough for its size to be a word. -/
theorem Sound.exists_nextBytes (h : l.Sound rest lent) (hroom : l.table.needsRoom = true) :
    Word.mul? l.table.nextCapacity slotWidth = some (l.table.nextCapacity * slotWidth) := by
  have htotal := h.total_le
  have hpages := h.table.len_mul_pageSize_le h.spread
  have hsmall : l.table.capacity < (l.table.len + 1) * 2 := by
    simpa [needsRoom] using hroom
  rw [Word.mul?_eq_some_iff]
  refine ⟨rfl, ?_⟩
  unfold nextCapacity
  simp only [minCapacity, slotWidth, pageSize, Word.signedLimit, Word.limit] at *
  split <;> omega

theorem mul_slotWidth_mod {capacity : Nat} (hpower : ∃ k, capacity = 2 ^ k)
    (hmin : minCapacity ≤ capacity) : capacity * slotWidth % pageSize = 0 := by
  obtain ⟨k, rfl⟩ := hpower
  have hk : 8 ≤ k := by
    by_contra hlt
    have hle := Nat.pow_le_pow_right (show 0 < 2 by decide) (show k ≤ 7 by omega)
    simp only [minCapacity, pageSize, slotWidth] at hmin
    omega
  obtain ⟨j, rfl⟩ : ∃ j, k = 8 + j := ⟨k - 8, by omega⟩
  rw [Nat.pow_add]
  simp only [pageSize, slotWidth]
  omega

theorem Sound.storage_len_mod (h : l.Sound rest lent) :
    l.table.capacity * slotWidth % pageSize = 0 := by
  rcases h.table.capacity_eq with hzero | ⟨hpower, hmin⟩
  · rw [hzero, Nat.zero_mul, Nat.zero_mod]
  · exact mul_slotWidth_mod hpower hmin

/-- How making room changes the table, and whether there is room. -/
def MakesRoom (t : SizeTable) : Bool → SizeTable → Prop
  | false, t' => t.needsRoom = true ∧ t' = t
  | true, t' => t.needsRoom = false ∧ t' = t ∨
      t.needsRoom = true ∧ ∃ storage, t' = t.rehash t.nextCapacity storage

theorem MakesRoom.valid {t t' : SizeTable} {room : Bool} (h : MakesRoom t room t')
    (hvalid : t.Valid) :
    t'.Valid ∧ t'.get? = t.get? ∧ (room = true → t'.needsRoom = false) := by
  cases room with
  | false =>
      obtain ⟨-, rfl⟩ := h
      exact ⟨hvalid, rfl, fun hroom => absurd hroom (by simp)⟩
  | true =>
      rcases h with ⟨hroom, rfl⟩ | ⟨-, storage, rfl⟩
      · exact ⟨hvalid, rfl, fun _ => hroom⟩
      · obtain ⟨hpower, hmin, hfits⟩ := hvalid.nextCapacity
        obtain ⟨hvalid', hcap, hget⟩ := hvalid.rehash hpower hmin (by omega) storage
        refine ⟨hvalid', funext hget, fun _ => ?_⟩
        rw [needsRoom, decide_eq_false_iff_not, hcap]
        show ¬t.nextCapacity < (t.len + 1) * 2
        omega

/-- Making room and adding an entry is an insertion. -/
theorem MakesRoom.insert_eq {t t' : SizeTable} {room : Bool} (h : MakesRoom t room t')
    (page size : Nat) : ∃ storage?, t.insert page size storage? =
      (room, if room = true then t'.add page size else t') := by
  cases room with
  | false =>
      obtain ⟨hroom, rfl⟩ := h
      refine ⟨none, ?_⟩
      simp [SizeTable.insert, hroom]
  | true =>
      rcases h with ⟨hroom, rfl⟩ | ⟨hroom, storage, rfl⟩
      · refine ⟨none, ?_⟩
        simp [SizeTable.insert, hroom]
      · refine ⟨some storage, ?_⟩
        simp [SizeTable.insert, hroom]

end LargeHeap
end PagedHeap
