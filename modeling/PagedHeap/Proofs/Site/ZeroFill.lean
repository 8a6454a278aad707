import PagedHeap.Proofs.Site.Order

/-!
# Fresh memory is zero

A cached range that is marked clean holds nothing but zeros, whatever it was cut out of or joined
from.  A range that is not marked is cleared when it is handed out, and the kernel clears what it
maps.  So a client that gets pages, or a large allocation on them, finds zeros there.
-/

namespace PagedHeap
namespace Site

/-- An owner in a state where clean ranges are zero, and so is all that it would hand out. -/
structure ZeroFilled (p : Site) (o : Owner) : Prop where
  clean : ∀ r ∈ (p.paging o).cached, r.clean = true → ∀ y ∈ r.bytes, (p.paging o).byteAt y = 0
  allocate : ∀ size, 0 < size → size % pageSize = 0 →
    Action.Ensures (Paging.allocate size) (p.paging o)
      (fun x? q => ∀ x, x? = some x → ∀ y ∈ bytesAt x size, q.byteAt y = 0) Action.never
  extend : ∀ address old new, 0 < old → old % pageSize = 0 → new % pageSize = 0 →
    address % pageSize = 0 → bytesAt address old ⊆ p.lentOut o →
    Action.Ensures (Paging.extendInPlace address old new) (p.paging o)
      (fun grown q => grown = true → ∀ y ∈ bytesAt (address + old) (new - old), q.byteAt y = 0)
      Action.never
  large : ∀ size align, 0 < size → Word.isPowerOfTwo align = true →
    Action.Ensures (LargeHeap.allocate size align) (p.largeHeap o)
      (fun x? l => ∀ x, x? = some x → x % align = 0 ∧ ∃ len, size ≤ len ∧
        l.table.get? x = some len ∧ ∀ y ∈ bytesAt x len, l.paging.byteAt y = 0) Action.never

variable {p p' : Site} {o : Owner} {foreign : Set Nat} {size align address old new : Nat}

/-- What a supplier grants reads as zero. -/
theorem zero_of_grants {q q' : Paging} {out : Set Nat} {lent granted : Nat} {x? : Option Nat}
    (hgrants : q.Grants out lent granted size x? q') :
    ∀ x, x? = some x → ∀ y ∈ bytesAt x size, q'.byteAt y = 0 := by
  intro x hx
  rw [hx] at hgrants
  exact hgrants.2.zero

theorem Parts.ensures_extend_zero (h : p.Parts o foreign) (hpos : 0 < old)
    (hold : old % pageSize = 0) (hnew : new % pageSize = 0) (haddress : address % pageSize = 0)
    (hsub : bytesAt address old ⊆ p.lentOut o) :
    Action.Ensures (Paging.extendInPlace address old new) (p.paging o)
      (fun grown q => grown = true → ∀ y ∈ bytesAt (address + old) (new - old), q.byteAt y = 0)
      Action.never := by
  by_cases hgrows : old < new
  · have hout : bytesAt address old ⊆ p.storage o ∪ (p.lentOut o ∪ foreign) :=
      fun y hy => .inr (.inl (hsub hy))
    apply (h.paging.ensures_extendInPlace hout hpos hgrows haddress hold hnew).weaken
    intro grown q hgrants htrue
    exact zero_of_grants hgrants _ (if_pos htrue)
  · -- Nothing is added to a range that is long enough.
    rw [Paging.extendInPlace, if_pos (Nat.le_of_not_lt hgrows)]
    refine .answer fun _ y hy => ?_
    rw [Nat.sub_eq_zero_of_le (Nat.le_of_not_lt hgrows)] at hy
    exact absurd hy (by rw [bytesAt_zero]; exact Set.notMem_empty y)

theorem SoundFor.ensures_large_zero (h : p.SoundFor foreign o) (hpos : 0 < size)
    (halign : Word.isPowerOfTwo align = true) :
    Action.Ensures (LargeHeap.allocate size align) (p.largeHeap o)
      (fun x? l => ∀ x, x? = some x → x % align = 0 ∧ ∃ len, size ≤ len ∧
        l.table.get? x = some len ∧ ∀ y ∈ bytesAt x len, l.paging.byteAt y = 0) Action.never := by
  obtain ⟨hlarge, -⟩ := h.large
  apply (hlarge.ensures_allocate hpos halign).weaken
  intro x? l hallocates x hx
  rw [hx] at hallocates
  obtain ⟨len, hceil, hplaces, hmod, hzero⟩ := hallocates
  obtain ⟨-, -, hle, -⟩ := pageCeil?_eq_some_iff.1 hceil
  exact ⟨hmod, len, hle, hplaces.get?_eq, hzero⟩

theorem SoundFor.zeroFilled (h : p.SoundFor foreign o) : p.ZeroFilled o := by
  have hparts := h.parts
  have hpaging := hparts.paging
  refine ⟨hpaging.honest.clean, fun size hpos hsize => ?_,
    fun address old new hpos hold hnew haddress hsub =>
      hparts.ensures_extend_zero hpos hold hnew haddress hsub,
    fun size align hpos halign => h.ensures_large_zero hpos halign⟩
  exact (hpaging.ensures_allocate hpos hsize).weaken fun _ _ hgrants => zero_of_grants hgrants

/-- Whatever has happened on a machine, every owner hands out zeros. -/
theorem Reachable.hands_out_zero (hreach : p.Reachable) (o : Owner) : p.ZeroFilled o :=
  (hreach.orderly.sound o).zeroFilled

theorem zeroFilled_stored_page : ∃ p : Site, p.Reachable ∧
    (p.paging (.supplier 0)).cached = [⟨0x200000007000, 4096, false, false⟩] ∧
      (p.paging (.supplier 0)).byteAt 0x200000007000 = 255 ∧ p.ZeroFilled (.supplier 0) := by
  have hgot : small.answer? 0 (.allocate 4096) = some (.pointer (some 0x200000007000)) := by
    decide +kernel
  have hgranted : bytesAt 0x200000007000 4096 ⊆ (small.servePages 0 (.allocate 4096)).pages 0 :=
    granted_subset_pages hgot
  have hreach := reachable_small.servePages (s := 0) (r := .allocate 4096) ⟨by decide, by decide⟩
  -- A client stores something in its page, and hands it back.
  have hstore := step_fillBytes (o := .supplier 0) 255 (hgranted.trans Set.subset_union_left)
  have hreach' := (hreach.step hstore).servePages (s := 0) (r := .reclaim 0x200000007000 4096 {})
    ⟨by decide, hgranted, fun hclean => absurd hclean (by decide)⟩
  exact ⟨_, hreach', by decide +kernel, by decide +kernel, hreach'.hands_out_zero _⟩

end Site
end PagedHeap
