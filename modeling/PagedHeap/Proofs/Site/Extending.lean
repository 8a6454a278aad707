import PagedHeap.Proofs.Page.Extending
import PagedHeap.Proofs.Site.Books

/-!
# Growing what is lent out

A client may ask for a range to be grown where it is.  The bytes that are added were nobody's: no
client had them, of this owner or another, and no cached range but one that starts right behind.
If they cannot be had, all is as if nothing had been asked for.
-/

namespace PagedHeap
namespace Site

/-- The `delta` bytes at `tail`, which nobody had, were added to what an owner has lent out. -/
structure Adds (p : Site) (o : Owner) (tail delta : Nat) (q : Paging) : Prop where
  adds : (p.paging o).AddsTail tail delta q
  live_eq : q.kernel.inUse \ Ranges.bytes q.cached =
    p.kernel.inUse \ p.cached o ∪ bytesAt tail delta
  liveBytes_eq : q.supplier.liveBytes.toNat = (p.paging o).supplier.liveBytes.toNat + delta
  apart : Disjoint (bytesAt tail delta) (p.storage o ∪ (p.lentOut o ∪ p.foreign o))
  content : ∀ x ∈ p.lentOut o, q.byteAt x = (p.paging o).byteAt x
  uncached : ∀ r ∈ (p.paging o).cached, r.address ≠ tail → Disjoint (bytesAt tail delta) r.bytes

/-- The `delta` bytes at `tail` were added, or nothing was changed. -/
def AddsOrNot (p : Site) (o : Owner) (tail delta : Nat) : Bool → Paging → Prop
  | true, q => p.Adds o tail delta q
  | false, q => (p.paging o).Untouched q

variable {p : Site} {o : Owner} {address old new tail delta : Nat} {q : Paging}

/-- With the bytes that were added, more is lent by as much. -/
theorem Parts.liveBytes_added {foreign : Set Nat} (h : p.Parts o foreign)
    (hsupplies : q.Supplies (p.storage o ∪ (p.lentOut o ∪ foreign))
      ((p.lentOut o).ncard + delta) tail delta) :
    q.supplier.liveBytes.toNat = (p.paging o).supplier.liveBytes.toNat + delta := by
  have hlent : p.lentOut o ⊆ p.storage o ∪ (p.lentOut o ∪ foreign) := fun x hx => .inr (.inl hx)
  have hboth : (p.lentOut o ∪ bytesAt tail delta).ncard = (p.lentOut o).ncard + delta := by
    rw [Set.ncard_union_eq (hsupplies.apart.mono_left hlent) h.balanced.finite
      (finite_bytesAt tail delta), ncard_bytesAt]
  have hle := Set.ncard_le_ncard (Set.union_subset_union_left (bytesAt tail delta) hlent)
    hsupplies.sound.finite_out
  rw [hboth] at hle
  rw [hsupplies.sound.liveBytes_eq hle, h.balanced.liveBytes_eq]

/-- What was supplied and added was nobody's. -/
theorem Parts.adds (h : p.Parts o (p.foreign o)) (hadds : (p.paging o).AddsTail tail delta q)
    (hsupplies : q.Supplies (p.storage o ∪ (p.lentOut o ∪ p.foreign o))
      ((p.lentOut o).ncard + delta) tail delta) : p.Adds o tail delta q := by
  have hlive := hadds.live_eq h.paging
  rw [paging_kernel] at hlive
  have hcontent : ∀ x ∈ p.lentOut o, q.byteAt x = (p.paging o).byteAt x := by
    intro x hx
    have hout : x ∈ p.storage o ∪ (p.lentOut o ∪ p.foreign o) := .inr (.inl hx)
    exact hadds.kept x (h.paging.used (.inl hout)) (Set.disjoint_left.1 hsupplies.apart hout)
  exact ⟨hadds, hlive, h.liveBytes_added hsupplies, hsupplies.apart.symm, hcontent,
    fun r hr hne => hadds.uncached h.paging hr hne⟩

/-- Whatever has happened on a machine, a range that is lent out grows in place by the bytes behind
it, all of them and no others, or nothing is changed. -/
theorem Reachable.grows_wholly (hreach : p.Reachable) (o : Owner) (hgrows : old < new)
    (hallowed : (PageRequest.extend address old new).Allowed (p.paging o) (p.lentOut o)) :
    Action.Ensures (Paging.extendInPlace address old new) (p.paging o)
      (p.AddsOrNot o (address + old) (new - old)) Action.never := by
  obtain ⟨⟨hpos, hold, hnew, haddress⟩, hsub⟩ := hallowed
  have hparts := (hreach.orderly.sound o).parts
  have hown : bytesAt address old ⊆ p.storage o ∪ (p.lentOut o ∪ p.foreign o) :=
    fun x hx => .inr (.inl (hsub hx))
  apply ((hparts.paging.ensures_extendInPlace hown hpos hgrows haddress hold hnew).and
    (hparts.paging.ensures_extendInPlace_wholly hown hpos hgrows hold hnew)).mono _
      fun _ _ hends => hends.1
  rintro grown q ⟨hgrants, hwholly⟩
  cases grown with
  | false => exact hwholly
  | true => exact hparts.adds hwholly hgrants.2

/-- By one page the middle one grows into the cached range behind it, and by two not at all. -/
theorem grows_wholly_twoRanges : ∃ q q' : Paging, twoRanges.Reachable ∧
    (PageRequest.extend 0x200000006000 4096 8192).Allowed (twoRanges.paging (.supplier 0))
      (twoRanges.lentOut (.supplier 0)) ∧
    twoRanges.Adds (.supplier 0) 0x200000007000 4096 q ∧
    q.cached = [⟨0x200000005000, 4096, false, false⟩] ∧
    (twoRanges.paging (.supplier 0)).Untouched q' := by
  obtain ⟨hreach, hmiddle⟩ := reachable_twoRanges
  have hsub : bytesAt 0x200000006000 4096 ⊆ twoRanges.lentOut (.supplier 0) :=
    hmiddle.trans (Set.subset_union_right.trans Set.subset_union_right)
  have hone : (PageRequest.extend 0x200000006000 4096 8192).Allowed
      (twoRanges.paging (.supplier 0)) (twoRanges.lentOut (.supplier 0)) := ⟨by decide, hsub⟩
  have htwo : (PageRequest.extend 0x200000006000 4096 12288).Allowed
      (twoRanges.paging (.supplier 0)) (twoRanges.lentOut (.supplier 0)) := ⟨by decide, hsub⟩
  have hgrown : Action.Ensures (Paging.extendInPlace 0x200000006000 4096 8192)
      (twoRanges.paging (.supplier 0))
      (fun grown q => grown = true ∧ q.cached = [⟨0x200000005000, 4096, false, false⟩])
      Action.never := by
    decide +kernel
  have hrefused : Action.Ensures (Paging.extendInPlace 0x200000006000 4096 12288)
      (twoRanges.paging (.supplier 0)) (fun grown _ => grown = false) Action.never := by
    decide +kernel
  obtain ⟨_, q, hok, rfl, hcached⟩ := hgrown.exists_ok
  obtain ⟨_, q', hok', rfl⟩ := hrefused.exists_ok
  exact ⟨q, q', hreach, hone, (hreach.grows_wholly _ (by decide) hone).of_ok hok, hcached,
    (hreach.grows_wholly _ (by decide) htwo).of_ok hok'⟩

end Site
end PagedHeap
