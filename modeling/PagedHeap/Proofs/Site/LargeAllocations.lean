import PagedHeap.Proofs.Large.Returning
import PagedHeap.Proofs.Site.Books

/-!
# Large allocations on a machine

Whatever has happened on a machine, a large allocation can be asked for at any alignment and be
resized to any length, with the same result whichever way the memory is got.  It is recorded with its
length in whole pages, and counted with it; bytes that it did not have before are zero.

What an aligned allocation does not need of the range that it was cut out of is in the supplier's
hands again.  One that shrinks stays where it is, and the kernel is asked for nothing.
-/

namespace PagedHeap
namespace LargeHeap

open SizeTable

variable {l l' : LargeHeap} {mine foreign : Set Nat} {sizes : Nat → Option Nat}
  {address moved old len : Nat}

/-! ## What is counted -/

/-- Besides ranges of the given `sizes` there is one more, and what is not large. -/
theorem Places.liveBytes_eq (h : l.Places (mine ∪ foreign) mine.ncard sizes address len l') :
    l'.paging.supplier.liveBytes.toNat = (extent sizes).ncard + len + mine.ncard := by
  have hapart := (Set.disjoint_union_left.1 h.apart).1
  obtain ⟨hfinite, htotal⟩ := h.sound.table.ncard_extent h.sound.spread
  rw [h.extent_eq] at hfinite htotal
  rw [h.sound.liveBytes_eq, ← htotal,
    Set.ncard_union_eq hapart (hfinite.subset Set.subset_union_left) (finite_bytesAt address len),
    ncard_bytesAt]

/-- One range more is counted. -/
theorem Places.liveBytes_added
    (hplaces : l.Places (mine ∪ foreign) mine.ncard l.table.get? address len l')
    (h : l.Sound (mine ∪ foreign) mine.ncard) :
    l'.paging.supplier.liveBytes.toNat = l.paging.supplier.liveBytes.toNat + len := by
  rw [hplaces.liveBytes_eq, h.liveBytes_eq, (h.table.ncard_extent h.spread).2]
  omega

/-- One range is counted instead of another. -/
theorem Places.liveBytes_replaced
    (hplaces : l.Places (mine ∪ foreign) mine.ncard (Function.update l.table.get? address none)
      moved len l')
    (h : l.Sound (mine ∪ foreign) mine.ncard) (hold : l.table.get? address = some old) :
    l'.paging.supplier.liveBytes.toNat + old = l.paging.supplier.liveBytes.toNat + len := by
  -- The allocation before was one more, too.
  have hbefore : l.Places (mine ∪ foreign) mine.ncard (Function.update l.table.get? address none)
      address old l := by
    refine ⟨h, Paging.Keeps.refl _ _, Function.update_self .., ?_⟩
    rw [Function.update_idem, ← hold, Function.update_eq_self]
  rw [hplaces.liveBytes_eq, hbefore.liveBytes_eq]
  omega

end LargeHeap

namespace Site

open SizeTable LargeHeap

/-- An allocation of `old` bytes at `address` became one of `len` bytes at `moved`. -/
structure Resized (p : Site) (o : Owner) (address old len align moved : Nat) (l : LargeHeap) :
    Prop where
  fresh : Function.update (p.table o).get? address none moved = none
  sizes_eq : l.table.get? =
    Function.update (Function.update (p.table o).get? address none) moved (some len)
  aligned : moved % align = 0
  front : ∀ i < min old len, l.paging.byteAt (moved + i) = (p.paging o).byteAt (address + i)
  zero : ∀ i, old ≤ i → i < len → l.paging.byteAt (moved + i) = 0
  others : ∀ x ∈ p.lentOut o, x ∉ bytesAt address old → l.paging.byteAt x = (p.paging o).byteAt x
  liveBytes_eq : l.paging.supplier.liveBytes.toNat + old =
    (p.paging o).supplier.liveBytes.toNat + len

/-- The table and the count are as they were, and so is what is lent out. -/
structure Unplaced (p : Site) (o : Owner) (l : LargeHeap) : Prop where
  table_eq : l.table = p.table o
  liveBytes_eq : l.paging.supplier.liveBytes = (p.paging o).supplier.liveBytes
  content : ∀ x ∈ p.lentOut o, l.paging.byteAt x = (p.paging o).byteAt x

/-- What comes of resizing an allocation of `old` bytes to `len`. -/
structure ResizesTo (p : Site) (o : Owner) (address old len align : Nat) (answer? : Option Nat)
    (l : LargeHeap) : Prop where
  resized : ∀ moved, answer? = some moved → p.Resized o address old len align moved l
  refused : answer? = none → p.Unplaced o l
  within : len ≤ old → answer? = some address ∧
    (p.paging o).Asks (fun call => call.maps = false) l.paging

/-- An allocation of `len` bytes at `address` was cut out of a longer range, for its alignment. -/
structure PlacedAligned (p : Site) (o : Owner) (len align address : Nat) (l : LargeHeap) :
    Prop where
  aligned : address % align = 0
  fresh : (p.table o).get? address = none
  sizes_eq : l.table.get? = Function.update (p.table o).get? address (some len)
  liveBytes_eq : l.paging.supplier.liveBytes.toNat =
    (p.paging o).supplier.liveBytes.toNat + len
  zero : ∀ x ∈ bytesAt address len, l.paging.byteAt x = 0
  cutsOut : (p.paging o).CutsOut len (align - pageSize) address l.paging

/-- What comes of a request for `len` bytes with an alignment above a page. -/
def PlacesAligned (p : Site) (o : Owner) (len align : Nat) : Option Nat → LargeHeap → Prop
  | some address, l => p.PlacedAligned o len align address l
  | none, l => p.Unplaced o l

variable {p : Site} {o : Owner} {l : LargeHeap} {address old size align : Nat} {foreign : Set Nat}

theorem unplaced_of_rests (hsound : (p.largeHeap o).Sound (p.pagesOut o ∪ foreign)
      (p.pagesOut o).ncard)
    (h : (p.largeHeap o).Rests (p.pagesOut o ∪ foreign) (p.pagesOut o).ncard l) :
    p.Unplaced o l := by
  refine ⟨h.table_eq, ?_, fun x hx => h.keeps.byteAt x ?_⟩
  · apply UInt64.toNat_inj.1
    rw [h.sound.liveBytes_eq, h.table_eq]
    exact hsound.liveBytes_eq.symm
  · exact hx.imp id .inl

/-! ## Resizing -/

/-- What was resized is counted with its new length, and the other clients have what they had. -/
theorem resized_of_resizes {moved : Nat}
    (hlarge : (p.largeHeap o).Sound (p.pagesOut o ∪ foreign) (p.pagesOut o).ncard)
    (hold : (p.table o).get? address = some old) (hplace : address % align = 0)
    (h : (p.largeHeap o).Resizes (p.pagesOut o ∪ foreign) (p.pagesOut o).ncard address old size
      align (some moved) l) : p.Resized o address old (wholePages size) align moved l := by
  obtain ⟨len, hceil, hplaces, hmod, hfront, hzero⟩ := h
  obtain ⟨-, rfl⟩ := pageCeil?_eq_some_iff_wholePages.1 hceil
  have haligned : moved % align = 0 := by
    rcases hmod with rfl | hmod
    · exact hplace
    · exact hmod
  refine ⟨hplaces.fresh, hplaces.sizes_eq, haligned, hfront, hzero, fun x hx hnot => ?_,
    hplaces.liveBytes_replaced hlarge hold⟩
  -- Other bytes are those of other allocations, or are lent out for something else.
  apply hplaces.keeps.byteAt
  rcases hx with hin | hin
  · rw [extent_eq_union hold] at hin
    exact .inl (hin.resolve_right hnot)
  · exact .inr (.inl hin)

/-- Whatever has happened on a machine, a large allocation is resized as if a new one were made, the
content copied and the old one freed, and that succeeds without a mapping if it is not to grow. -/
theorem Reachable.resizes_large (hreach : p.Reachable) (o : Owner)
    (hold : (p.table o).get? address = some old) (hpos : 0 < size)
    (halign : Word.isPowerOfTwo align = true) (hplace : address % align = 0) :
    Action.Ensures (resize address size align) (p.largeHeap o)
      (p.ResizesTo o address old (wholePages size) align) Action.never := by
  obtain ⟨hlarge, -⟩ := (hreach.orderly.sound o).large
  apply ((hlarge.ensures_resize hold hpos halign).and (hlarge.ensures_resize_within hold)).mono _
    fun _ _ hends => hends.1
  rintro answer? l ⟨hresizes, hwithin⟩
  cases answer? with
  | none =>
      have hrefused := unplaced_of_rests hlarge hresizes
      exact ⟨fun _ hmoved => (nomatch hmoved), fun _ => hrefused, hwithin⟩
  | some moved =>
      have hresized := resized_of_resizes hlarge hold hplace hresizes
      refine ⟨fun other hmoved => ?_, fun hnone => (nomatch hnone), hwithin⟩
      rwa [← Option.some.inj hmoved]

/-- The clients of a private supplier have its large allocations. -/
theorem extent_subset_held (p : Site) (s : Nat) :
    extent (p.table (.supplier s)).get? ⊆ p.held (.supplier s) :=
  Set.subset_union_left.trans Set.subset_union_right

/-- A machine on which a client filled two pages, and gave up the second of them. -/
def shrunkLarge : Site :=
  ((small.serveLarge 0 (.allocate 8192 16)).fillBytes 0x200000006000 8192 255).serveLarge 0
    (.resize 0x200000006000 4096 16)

theorem reachable_shrunkLarge : shrunkLarge.Reachable := by
  have hallocate : (LargeRequest.allocate 8192 16).Allowed (small.party 0).table := by
    refine ⟨fun x hx => (nomatch hx), fun len align hwants => ?_⟩
    cases hwants
    decide
  have hentry : ((small.serveLarge 0 (.allocate 8192 16)).table (.supplier 0)).get?
      0x200000006000 = some 8192 := by
    decide +kernel
  have hheld : bytesAt 0x200000006000 8192 ⊆
      (small.serveLarge 0 (.allocate 8192 16)).held (.supplier 0) :=
    (bytesAt_subset_extent hentry).trans (extent_subset_held _ 0)
  have hkept : (((small.serveLarge 0 (.allocate 8192 16)).fillBytes 0x200000006000 8192 255).party
      0).table.get? 0x200000006000 = some 8192 := by
    decide +kernel
  have hresize : (LargeRequest.resize 0x200000006000 4096 16).Allowed
      (((small.serveLarge 0 (.allocate 8192 16)).fillBytes 0x200000006000 8192 255).party
        0).table := by
    refine ⟨fun x hx => ?_, fun len align hwants => ?_⟩
    · cases hx
      exact ⟨8192, hkept⟩
    · cases hwants
      decide
  exact ((reachable_small.serveLarge hallocate).step (step_fillBytes 255 hheld)).serveLarge hresize

/-- What the client gave up waits in the cache as it was written.  When the client asks for it again
it is zero. -/
theorem resizes_large_regrown : ∃ l : LargeHeap, shrunkLarge.Reachable ∧
    (shrunkLarge.table (.supplier 0)).get? 0x200000006000 = some 4096 ∧
    (shrunkLarge.paging (.supplier 0)).cached = [⟨0x200000007000, 4096, false, false⟩] ∧
    (shrunkLarge.paging (.supplier 0)).byteAt 0x200000007000 = 255 ∧
    shrunkLarge.ResizesTo (.supplier 0) 0x200000006000 4096 (wholePages 5000) 16
      (some 0x200000006000) l ∧
    l.paging.byteAt 0x200000007000 = 0 := by
  have hold : (shrunkLarge.table (.supplier 0)).get? 0x200000006000 = some 4096 := by
    decide +kernel
  have hgrown : Action.Ensures (resize 0x200000006000 5000 16) (shrunkLarge.largeHeap (.supplier 0))
      (fun answer? _ => answer? = some 0x200000006000) Action.never := by
    decide +kernel
  obtain ⟨_, l, hok, rfl⟩ := hgrown.exists_ok
  have hresizes := (reachable_shrunkLarge.resizes_large (.supplier 0) hold (by decide) (by decide)
    (by decide)).of_ok hok
  exact ⟨l, reachable_shrunkLarge, hold, by decide +kernel, by decide +kernel, hresizes,
    (hresizes.resized _ rfl).zero 4096 (by decide) (by decide)⟩

/-! ## Above a page -/

/-- Whatever has happened on a machine, an allocation with an alignment above a page is exactly as
long as was asked for, in whole pages, and the supplier has the rest of what it took. -/
theorem Reachable.places_over_aligned (hreach : p.Reachable) (o : Owner) (hpos : 0 < size)
    (halign : Word.isPowerOfTwo align = true) (hover : pageSize < align) :
    Action.Ensures (allocate size align) (p.largeHeap o)
      (p.PlacesAligned o (wholePages size) align) Action.never := by
  obtain ⟨hlarge, -⟩ := (hreach.orderly.sound o).large
  apply ((hlarge.ensures_allocate hpos halign).and
    (hlarge.ensures_allocate_cutsOut hpos halign hover)).mono _ fun _ _ hends => hends.1
  rintro address? l ⟨hallocates, hcuts⟩
  cases address? with
  | none => exact unplaced_of_rests hlarge hallocates
  | some address =>
      obtain ⟨len, hceil, hplaces, hmod, hzero⟩ := hallocates
      obtain ⟨len', hceil', hcut⟩ := hcuts address rfl
      obtain ⟨-, rfl⟩ := pageCeil?_eq_some_iff_wholePages.1 hceil
      obtain ⟨-, rfl⟩ := pageCeil?_eq_some_iff_wholePages.1 hceil'
      exact ⟨hmod, hplaces.fresh, hplaces.sizes_eq, hplaces.liveBytes_added hlarge, hzero, hcut⟩

/-- A machine with a page in a cache that a client has written to. -/
def writtenPage : Site :=
  ((small.servePages 0 (.allocate 4096)).fillBytes 0x200000007000 4096 255).servePages 0
    (.reclaim 0x200000007000 4096 {})

theorem reachable_writtenPage : writtenPage.Reachable := by
  have hgot : small.answer? 0 (.allocate 4096) = some (.pointer (some 0x200000007000)) := by
    decide +kernel
  have hgranted : bytesAt 0x200000007000 4096 ⊆ (small.servePages 0 (.allocate 4096)).pages 0 :=
    granted_subset_pages hgot
  have hreach := reachable_small.servePages (s := 0) (r := .allocate 4096) ⟨by decide, by decide⟩
  have hstore := step_fillBytes (o := .supplier 0) 255 (hgranted.trans Set.subset_union_left)
  exact (hreach.step hstore).servePages
    ⟨by decide, hgranted, fun hclean => absurd hclean (by decide)⟩

/-- Two pages are cut out of five.  The two in front of them are cached, and the one behind them
joins the cached page there. -/
theorem places_over_aligned_written : ∃ l : LargeHeap, writtenPage.Reachable ∧
    (writtenPage.paging (.supplier 0)).cached = [⟨0x200000007000, 4096, false, false⟩] ∧
    Word.isPowerOfTwo 16384 = true ∧ pageSize < 16384 ∧
    writtenPage.PlacesAligned (.supplier 0) (wholePages 8191) 16384 (some 0x200000004000) l ∧
    l.paging.cached =
      [⟨0x200000006000, 8192, false, false⟩, ⟨0x200000002000, 8192, true, false⟩] := by
  have hplaced : Action.Ensures (allocate 8191 16384) (writtenPage.largeHeap (.supplier 0))
      (fun address? l => address? = some 0x200000004000 ∧ l.paging.cached =
        [⟨0x200000006000, 8192, false, false⟩, ⟨0x200000002000, 8192, true, false⟩])
      Action.never := by
    decide +kernel
  obtain ⟨_, l, hok, rfl, hcached⟩ := hplaced.exists_ok
  exact ⟨l, reachable_writtenPage, by decide +kernel, by decide, by decide,
    (reachable_writtenPage.places_over_aligned (.supplier 0) (by decide) (by decide)
      (by decide)).of_ok hok, hcached⟩

end Site
end PagedHeap
