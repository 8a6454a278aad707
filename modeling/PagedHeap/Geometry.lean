import PagedHeap.Word

/-!
# Pages and addresses

The units in which memory is handed out, and how an address is classified by its
offset in its page alone.  Blocks never start on a page boundary and page ranges
always do, so the offset decides which allocator owns a pointer.
-/

namespace PagedHeap

/-- Granularity of page ranges. -/
def pageSize : Nat := 4096

/-- Size and alignment of a transparent huge page. -/
def hugePageSize : Nat := 2097152

/-- The smallest block, and the alignment that every allocation has. -/
def minSize : Nat := 16

/-- Requests above this many bytes are served by whole pages. -/
def smallLimit : Nat := 1024

/-- Free blocks that a list may hold before it is flushed. -/
def cacheCeiling : Nat := 256

/-- The start of the page that `address` lies in. -/
def pageOf (address : Nat) : Nat :=
  address - address % pageSize

/-- The distance of `address` from the start of its page. -/
def pageOffset (address : Nat) : Nat :=
  address % pageSize

/-- Whether `n` is a whole number of pages. -/
def isPageMultiple (n : Nat) : Bool :=
  n % pageSize == 0

/-- `size` rounded up to whole pages; there is no answer if the sum on the way is not a word. -/
def pageCeil? (size : Nat) : Option Nat :=
  (Word.add? size (pageSize - 1)).map pageOf

/-- What an address inside a page of blocks can be. -/
inductive PageSlot where
  | run (address : Nat)
  | block (address : Nat)
  deriving DecidableEq, Repr

/-- The header of a run is at offset zero, every other address is inside a block. -/
def pageSlot (address : Nat) : PageSlot :=
  if pageOffset address = 0 then .run address else .block address

theorem pageSize_pos : 0 < pageSize := by decide

theorem pageOf_le (address : Nat) : pageOf address ≤ address :=
  Nat.sub_le _ _

theorem pageOf_add_pageOffset (address : Nat) : pageOf address + pageOffset address = address :=
  Nat.sub_add_cancel (Nat.mod_le _ _)

theorem pageOffset_lt (address : Nat) : pageOffset address < pageSize :=
  Nat.mod_lt _ pageSize_pos

theorem pageOf_mod (address : Nat) : pageOf address % pageSize = 0 :=
  Nat.sub_mod_eq_zero_of_mod_eq (Nat.mod_mod _ _).symm

/-- A rounded size is the least number of whole pages that holds `size` bytes. -/
theorem pageCeil?_eq_some_iff {size len : Nat} :
    pageCeil? size = some len ↔
      size + (pageSize - 1) < Word.limit ∧ len % pageSize = 0 ∧
        size ≤ len ∧ len < size + pageSize := by
  unfold pageCeil? Word.add? pageOf
  split
  · simp only [Option.map_some, Option.some.injEq]
    simp only [pageSize] at *
    omega
  · simp only [Option.map_none]
    simp only [pageSize] at *
    simp
    omega

theorem pageSlot_eq_run_iff {address : Nat} :
    pageSlot address = .run address ↔ pageOffset address = 0 := by
  unfold pageSlot
  split <;> simp_all

end PagedHeap
