import Mathlib.Data.Set.Card
import Mathlib.Order.Interval.Finset.Nat
import PagedHeap.Proofs.Page.Trail

/-!
# Serving requests for pages

Who asks a supplier for pages keeps the rules if the request is for whole pages, and passes only
what was handed out.  Whatever is asked for then, the supplier has lent what it had lent before,
less what was passed and with what is granted, and that is what it counts.
-/

namespace PagedHeap

/-! ## The rules -/

/-- The pointer that an answer grants. -/
def Answer.granted? : Answer → Option Nat
  | .pointer pointer? => pointer?
  | .slice slice? => slice?.map Slice.address
  | .aligned answer => answer.stored?
  | .done | .size _ | .flag _ | .refused _ => none

/-- The bytes that are granted by an answer to a request. -/
def PageRequest.granted : PageRequest → Answer → Set Nat
  | .allocate size, a => Call.bytesGot size a.granted?
  | .extend address old new, a =>
      match a with
      | .flag true => bytesAt (address + old) (new - old)
      | _ => ∅
  | .reclaim _ _ _, _ | .trim _, _ | .look, _ => ∅

/-- The request forbids to join what it hands back with what is cached. -/
def PageRequest.Parts : PageRequest → Prop
  | .reclaim _ _ opts => opts.noMergeLeft = true ∨ opts.noMergeRight = true
  | .allocate _ | .extend _ _ _ | .trim _ | .look => False

/-- The request is for whole pages, and what it passes is with the client.  What is said to be
zero is. -/
def PageRequest.Allowed (p : Paging) (pages : Set Nat) : PageRequest → Prop
  | .allocate size => 0 < size ∧ size % pageSize = 0
  | .reclaim address size opts =>
      (0 < size ∧ size % pageSize = 0 ∧ address % pageSize = 0) ∧ bytesAt address size ⊆ pages ∧
        (opts.clean = true → ∀ x ∈ bytesAt address size, p.byteAt x = 0)
  | .extend address old new =>
      (0 < old ∧ old % pageSize = 0 ∧ new % pageSize = 0 ∧ address % pageSize = 0) ∧
        bytesAt address old ⊆ pages
  | .trim _ | .look => True

theorem PageRequest.Allowed.passed_subset {r : PageRequest} {p : Paging} {pages : Set Nat}
    (h : r.Allowed p pages) : r.passed ⊆ pages := by
  cases r with
  | reclaim address size opts => exact h.2.1
  | allocate size => exact Set.empty_subset pages
  | extend address old new => exact Set.empty_subset pages
  | trim pad => exact Set.empty_subset pages
  | look => exact Set.empty_subset pages

theorem finite_bytesAt (address len : Nat) : (bytesAt address len).Finite := Set.finite_Ico _ _

theorem ncard_bytesAt (address len : Nat) : (bytesAt address len).ncard = len := by
  rw [bytesAt, ← Finset.coe_Ico, Set.ncard_coe_finset, Nat.card_Ico, Nat.add_sub_cancel_left]

namespace Paging

variable {p p' : Paging} {out rest pages part : Set Nat} {lent other : Nat} {pending : List Range}

/-! ## Books -/

/-- The books of a supplier are right: its cache holds whole pages, in ranges that share no byte,
and counts them, and what it counts as lent are the bytes of `out`. -/
structure Balanced (p : Paging) (out : Set Nat) : Prop where
  cache : p.supplier.cache.Valid
  cachedBytes_le : p.supplier.cache.cachedBytes ≤ cacheLimit
  finite : out.Finite
  liveBytes_eq : p.supplier.liveBytes.toNat = out.ncard

theorem Holding.finite_out (h : Holding p out lent pending) : out.Finite :=
  (Set.finite_Iio Word.signedLimit).subset fun _ hx => h.kernel.lt_signedLimit (h.out_used hx)

/-- What is out has an address each. -/
theorem Holding.ncard_le (h : Holding p out lent pending) : out.ncard ≤ Word.signedLimit := by
  have hinside : out ⊆ Set.Iio Word.signedLimit :=
    fun _ hx => h.kernel.lt_signedLimit (h.out_used hx)
  calc out.ncard ≤ (Set.Iio Word.signedLimit).ncard := Set.ncard_le_ncard hinside (Set.finite_Iio _)
    _ = Word.signedLimit := by
        rw [Set.ncard_eq_toFinset_card', Set.toFinset_Iio, Nat.card_Iio]

/-- A count of bytes that are out does not wrap around. -/
theorem Holding.liveBytes_eq (h : Holding p out lent pending) (hle : lent ≤ out.ncard) :
    p.supplier.liveBytes.toNat = lent := by
  have hlimit : Word.signedLimit < 2 ^ 64 := by decide
  rw [h.counted, UInt64.toNat_ofNat']
  exact Nat.mod_eq_of_lt (Nat.lt_of_le_of_lt (Nat.le_trans hle h.ncard_le) hlimit)

theorem Sound.balanced (h : Sound p (rest ∪ pages) pages.ncard) : p.Balanced pages where
  cache := h.cache
  cachedBytes_le := h.cache_le
  finite := h.finite_out.subset Set.subset_union_right
  liveBytes_eq := Holding.liveBytes_eq h (Set.ncard_le_ncard Set.subset_union_right h.finite_out)

/-! ## Serving -/

/-- Clients passed some of their pages and were granted others, and the `rest` was left alone.  The
supplier has lent `other` bytes besides the pages. -/
structure Serves (p : Paging) (rest pages : Set Nat) (other : Nat) (passed granted : Set Nat)
    (p' : Paging) (parted : Prop := False) : Prop where
  sound : Sound p' (rest ∪ (pages \ passed ∪ granted)) (other + (pages \ passed ∪ granted).ncard)
  apart : Disjoint rest (pages \ passed ∪ granted)
  keeps : Keeps p (rest ∪ pages \ passed) p' parted
  zero : ∀ y ∈ granted, p'.byteAt y = 0

/-- Nothing was passed, and nothing granted. -/
theorem Sound.serves_nothing (h : Sound p' (rest ∪ pages) (other + pages.ncard))
    (hapart : Disjoint rest pages) (hkeeps : Keeps p (rest ∪ pages) p') :
    p.Serves rest pages other ∅ ∅ p' := by
  have hpages : pages \ ∅ ∪ ∅ = pages := by
    rw [Set.union_empty, Set.sdiff_empty]
  refine ⟨?_, ?_, ?_, fun y hy => absurd hy (Set.notMem_empty y)⟩
  · rwa [hpages]
  · rwa [hpages]
  · rwa [Set.sdiff_empty]

/-- The supplier was asked for pages. -/
theorem Sound.serves_grants {len : Nat} {got? : Option Nat}
    (h : Sound p (rest ∪ pages) (other + pages.ncard)) (hapart : Disjoint rest pages)
    (hgrants : Grants p (rest ∪ pages) (other + pages.ncard) (other + pages.ncard + len) len
      got? p') :
    p.Serves rest pages other ∅ (Call.bytesGot len got?) p' := by
  cases got? with
  | none =>
      obtain ⟨hkeeps, hsound⟩ := hgrants
      exact hsound.serves_nothing hapart hkeeps
  | some address =>
      obtain ⟨hkeeps, hsupplies⟩ := hgrants
      obtain ⟨hrest, hpages⟩ := Set.disjoint_union_left.1 hsupplies.apart
      have hcount : (pages ∪ bytesAt address len).ncard = pages.ncard + len := by
        rw [Set.ncard_union_eq hpages (h.finite_out.subset Set.subset_union_right)
          (finite_bytesAt address len), ncard_bytesAt]
      have hsound := hsupplies.sound
      rw [Set.union_assoc, Nat.add_assoc, ← hcount] at hsound
      rw [Call.bytesGot]
      refine ⟨?_, ?_, ?_, hsupplies.zero⟩
      · rwa [Set.sdiff_empty]
      · rw [Set.sdiff_empty]
        exact Set.disjoint_union_right.2 ⟨hapart, hrest⟩
      · rwa [Set.sdiff_empty]

/-- What is handed back may be part of what was handed out as one range, or as several. -/
theorem Sound.divides_passed {address size : Nat}
    (h : Sound p (rest ∪ pages) (other + pages.ncard)) (hapart : Disjoint rest pages)
    (hsub : bytesAt address size ⊆ pages) :
    Sound p (rest ∪ pages \ bytesAt address size ∪ bytesAt address size)
        (other + (pages \ bytesAt address size).ncard + size) ∧
      Disjoint (rest ∪ pages \ bytesAt address size) (bytesAt address size) := by
  have hcount : (pages \ bytesAt address size).ncard + size = pages.ncard := by
    have hfinite := h.finite_out.subset (Set.subset_union_right (s := rest) (t := pages))
    rw [← Set.ncard_sdiff_add_ncard_of_subset hsub hfinite, ncard_bytesAt]
  constructor
  · rwa [Set.union_assoc, Set.sdiff_union_of_subset hsub, Nat.add_assoc, hcount]
  · exact Set.disjoint_union_left.2 ⟨hapart.mono_right hsub, Set.disjoint_sdiff_left⟩

theorem Sound.ensures_serveReclaim {address size : Nat} {opts : ReclaimOptions}
    (h : Sound p (rest ∪ pages) (other + pages.ncard)) (hapart : Disjoint rest pages)
    (hallowed : (PageRequest.reclaim address size opts).Allowed p pages) :
    Action.Ensures (reclaim address size opts) p
      (fun _ p' => p.Serves rest pages other (bytesAt address size) ∅ p'
        (PageRequest.reclaim address size opts).Parts) Action.never := by
  obtain ⟨⟨hpos, hsize, haddress⟩, hsub, hclean⟩ := hallowed
  obtain ⟨hsound, hgone⟩ := h.divides_passed hapart hsub
  apply (hsound.ensures_reclaim hgone hpos haddress hsize hclean (Nat.le_add_left _ _)).weaken
  rintro _ p' ⟨hkeeps, hsound'⟩
  rw [Nat.add_sub_cancel] at hsound'
  refine ⟨?_, ?_, hkeeps.weaken ?_, fun y hy => absurd hy (Set.notMem_empty y)⟩
  · rwa [Set.union_empty]
  · rw [Set.union_empty]
    exact hapart.mono_right Set.sdiff_subset
  · exact fun hparts => hparts.imp And.left And.left

theorem Sound.ensures_serveExtend {address old new : Nat}
    (h : Sound p (rest ∪ pages) (other + pages.ncard)) (hapart : Disjoint rest pages)
    (hallowed : (PageRequest.extend address old new).Allowed p pages) :
    Action.Ensures (extendInPlace address old new) p
      (fun grown p' => p.Serves rest pages other ∅
        ((PageRequest.extend address old new).granted (.flag grown)) p') Action.never := by
  obtain ⟨⟨hpos, hold, hnew, haddress⟩, hsub⟩ := hallowed
  by_cases hgrows : old < new
  · apply (h.ensures_extendInPlace (hsub.trans Set.subset_union_right) hpos hgrows haddress hold
      hnew).weaken
    intro grown p' hgrants
    have hserves := h.serves_grants hapart hgrants
    cases grown with
    | true => exact hserves
    | false => exact hserves
  · -- The range is as long as it is to be, so nothing is added.
    have hnothing : (PageRequest.extend address old new).granted (.flag true) = ∅ := by
      rw [PageRequest.granted, Nat.sub_eq_zero_of_le (Nat.le_of_not_lt hgrows), bytesAt_zero]
    rw [extendInPlace, if_pos (Nat.le_of_not_lt hgrows)]
    refine .answer ?_
    rw [hnothing]
    exact h.serves_nothing hapart (Keeps.refl p _)

/-- A request that keeps the rules is answered, and the supplier has lent what is with the clients
then. -/
theorem Sound.ensures_serve {r : PageRequest} (h : Sound p (rest ∪ pages) (other + pages.ncard))
    (hapart : Disjoint rest pages) (hallowed : r.Allowed p pages) :
    Action.Ensures (serve r) p
      (fun a p' => p.Serves rest pages other r.passed (r.granted a) p' r.Parts) Action.never := by
  cases r with
  | allocate size =>
      rw [serve, Action.ensures_map]
      apply (h.ensures_allocate hallowed.1 hallowed.2).weaken
      exact fun _ _ hgrants => h.serves_grants hapart hgrants
  | reclaim address size opts =>
      rw [serve, Action.ensures_map]
      exact h.ensures_serveReclaim hapart hallowed
  | extend address old new =>
      rw [serve, Action.ensures_map]
      exact h.ensures_serveExtend hapart hallowed
  | trim pad =>
      rw [serve, Action.ensures_map]
      apply (h.ensures_trim pad).weaken
      exact fun _ _ hpost => hpost.2.serves_nothing hapart hpost.1
  | look =>
      rw [serve]
      exact .answer (h.serves_nothing hapart (Keeps.refl p _))

/-- A request that keeps the rules is handled, and what was done for it left the rest alone, and
the pages that were not passed. -/
theorem Sound.ensures_handles {r : PageRequest} (h : Sound p (rest ∪ pages) (other + pages.ncard))
    (hapart : Disjoint rest pages) (hallowed : r.Allowed p pages) :
    Action.Ensures (serve r) p
      (fun _ p' => ∃ made, p.Handles (rest ∪ pages \ r.passed) r made p') Action.never := by
  cases r with
  | allocate size =>
      rw [serve, Action.ensures_map, PageRequest.passed, Set.sdiff_empty]
      exact (h.handles_allocate hallowed.1 hallowed.2).weaken fun _ _ hpost => hpost.2
  | reclaim address size opts =>
      obtain ⟨⟨hpos, hsize, haddress⟩, hsub, hclean⟩ := hallowed
      obtain ⟨hsound, hgone⟩ := h.divides_passed hapart hsub
      rw [serve, Action.ensures_map]
      exact (hsound.handles_reclaim hgone hpos haddress hsize hclean
        (Nat.le_add_left _ _)).weaken fun _ _ hpost => hpost.2
  | extend address old new =>
      obtain ⟨⟨hpos, hold, hnew, haddress⟩, hsub⟩ := hallowed
      rw [serve, Action.ensures_map, PageRequest.passed, Set.sdiff_empty]
      by_cases hgrows : old < new
      · exact (h.handles_extendInPlace (hsub.trans Set.subset_union_right) hpos hgrows haddress hold
          hnew).weaken fun _ _ hpost => hpost.2
      · have hrun : extendInPlace address old new p = .ok true p := by
          rw [extendInPlace, if_pos (Nat.le_of_not_lt hgrows)]
          rfl
        rw [Action.ensures_iff, hrun]
        exact handles_nothing _ (Action.map_of_ok hrun) rfl rfl
  | trim pad =>
      rw [serve, Action.ensures_map, PageRequest.passed, Set.sdiff_empty]
      exact (h.handles_trim pad).weaken fun _ _ hpost => hpost.2
  | look =>
      rw [serve, PageRequest.passed, Set.sdiff_empty]
      exact .answer (handles_nothing _ rfl rfl rfl)

/-- A request that has ranges evicted gives them back to the kernel. -/
theorem Sound.ensures_givesBack {r : PageRequest} {evict : Action RangeCache (List Range)}
    (h : Sound p (rest ∪ pages) (other + pages.ncard)) (hapart : Disjoint rest pages)
    (hallowed : r.Allowed p pages) (hevict : r.eviction? p = some evict) :
    Action.Ensures (serve r) p (fun _ q => p.GivesBack evict q) Action.never := by
  apply (h.ensures_handles hapart hallowed).weaken
  rintro _ q ⟨made, hhandles⟩
  obtain ⟨evicted, sunk, surrendered, hevicts, hreturned⟩ := hhandles.evicts evict hevict
  exact ⟨evicted, _, sunk, surrendered, made, hevicts.run, hreturned⟩

end Paging
end PagedHeap
