import Std.Data.TreeMap
import PagedHeap.Geometry
import PagedHeap.Memory.ByteRuns

/-!
# Byte-addressed memory

Memory maps every address to a byte.  Only pages that were written to are kept; all
other bytes are zero.  The view is `byteAt`, and two laws say all there is to know:
`toList_read` gives what is read, byte by byte, and `byteAt_write` what a write does
to every address, inside and outside the range written.

Filling, clearing, copying and the storing of numbers are writes of a particular
content, so they need no laws of their own.
-/

namespace PagedHeap

/-- The content of one page. -/
structure PageImage where
  runs : ByteRuns
  size_eq : runs.size = pageSize

namespace PageImage

/-- A page of zeros. -/
def zero : PageImage := ⟨[(pageSize, 0)], rfl⟩

/-- Put `content` at `offset`; it has to end inside the page. -/
def splice (page : PageImage) (offset : Nat) (content : ByteRuns)
    (inside : offset + content.size ≤ pageSize) : PageImage where
  runs := page.runs.takeBytes offset ++ content ++ page.runs.dropBytes (offset + content.size)
  size_eq := by
    simp only [ByteRuns.size_append, ByteRuns.size_takeBytes, ByteRuns.size_dropBytes,
      page.size_eq]
    omega

/-- The byte at an offset below `pageSize`. -/
def byteAt (page : PageImage) (offset : Nat) : UInt8 :=
  (page.runs.toList[offset]?).getD 0

theorem byteAt_zero (offset : Nat) : zero.byteAt offset = 0 := by
  simp only [byteAt, zero, ByteRuns.toList_cons, ByteRuns.toList_nil, List.append_nil,
    List.getElem?_replicate]
  split <;> rfl

theorem byteAt_splice (page : PageImage) (offset : Nat) (content : ByteRuns)
    (inside : offset + content.size ≤ pageSize) (i : Nat) :
    (page.splice offset content inside).byteAt i =
      if offset ≤ i ∧ i < offset + content.size then (content.toList[i - offset]?).getD 0
      else page.byteAt i := by
  have hsize := page.size_eq
  have hlen : page.runs.toList.length = pageSize := by rw [ByteRuns.length_toList, hsize]
  simp only [byteAt, splice, ByteRuns.toList_append, ByteRuns.toList_takeBytes,
    ByteRuns.toList_dropBytes]
  rw [List.append_assoc, List.getElem?_append, List.length_take, hlen,
    Nat.min_eq_left (by omega)]
  by_cases h1 : i < offset
  · rw [if_pos h1, if_neg (by omega), List.getElem?_take_of_lt h1]
  · -- Behind the offset comes the content, and behind the content what was there before.
    rw [if_neg h1, List.getElem?_append, ByteRuns.length_toList]
    by_cases h2 : i - offset < content.size
    · rw [if_pos h2, if_pos (by omega)]
    · rw [if_neg h2, if_neg (by omega), List.getElem?_drop]
      congr 2
      omega

end PageImage

/-- Memory: the pages that were written to, by page number. -/
structure Memory where
  pages : Std.TreeMap Nat PageImage

namespace Memory

/-- Memory that is all zero. -/
def blank : Memory := ⟨∅⟩

/-- The content of a page. -/
def page (m : Memory) (number : Nat) : PageImage :=
  (m.pages[number]?).getD PageImage.zero

/-- Replace the content of a page; a page of zeros is not kept. -/
def setPage (m : Memory) (number : Nat) (image : PageImage) : Memory :=
  if image.runs = [(pageSize, 0)] then ⟨m.pages.erase number⟩
  else ⟨m.pages.insert number image⟩

/-- The byte at an address. -/
def byteAt (m : Memory) (address : Nat) : UInt8 :=
  (m.page (address / pageSize)).byteAt (address % pageSize)

/-- Read page by page; `fuel` bounds the number of pages touched. -/
def readPages (m : Memory) : Nat → Nat → Nat → ByteRuns
  | 0, _, _ => []
  | fuel + 1, address, len =>
      if len = 0 then []
      else
        let offset := address % pageSize
        let here := min len (pageSize - offset)
        ((m.page (address / pageSize)).runs.dropBytes offset).takeBytes here ++
          readPages m fuel (address + here) (len - here)

/-- The `len` bytes from `address` on. -/
def read (m : Memory) (address len : Nat) : ByteRuns :=
  m.readPages (len / pageSize + 2) address len

/-- The first part of a write ends with its page. -/
theorem splice_fits (address : Nat) (content : ByteRuns) :
    address % pageSize + (content.takeBytes (pageSize - address % pageSize)).size
      ≤ pageSize := by
  have := Nat.mod_lt address pageSize_pos
  rw [ByteRuns.size_takeBytes]
  omega

/-- Write page by page; `fuel` bounds the number of pages touched. -/
def writePages : Nat → Memory → Nat → ByteRuns → Memory
  | 0, m, _, _ => m
  | fuel + 1, m, address, content =>
      if content.size = 0 then m
      else
        let number := address / pageSize
        let image := (m.page number).splice (address % pageSize)
          (content.takeBytes (pageSize - address % pageSize)) (splice_fits address content)
        writePages fuel (m.setPage number image)
          (address + (pageSize - address % pageSize))
          (content.dropBytes (pageSize - address % pageSize))

/-- Put `content` at `address`. -/
def write (m : Memory) (address : Nat) (content : ByteRuns) : Memory :=
  writePages (content.size / pageSize + 2) m address content

/-- Store `byte` in `len` places. -/
def fill (m : Memory) (address len : Nat) (byte : UInt8) : Memory :=
  m.write address [(len, byte)]

/-- Make `len` bytes zero. -/
def clear (m : Memory) (address len : Nat) : Memory :=
  m.fill address len 0

/-- Copy `len` bytes between ranges that do not overlap. -/
def copy (m : Memory) (source target len : Nat) : Memory :=
  m.write target (m.read source len)

/-- The number kept in the `width` bytes at `address`. -/
def load (m : Memory) (width address : Nat) : Nat :=
  LittleEndian.decode (m.read address width).toList

/-- Keep a number in the `width` bytes at `address`. -/
def store (m : Memory) (width address value : Nat) : Memory :=
  m.write address (ByteRuns.ofBytes (LittleEndian.encode width value))

@[simp] theorem byteAt_blank (address : Nat) : blank.byteAt address = 0 := by
  simp [byteAt, page, blank, PageImage.byteAt_zero]

theorem page_setPage (m : Memory) (number other : Nat) (image : PageImage) :
    (m.setPage number image).page other = if other = number then image else m.page other := by
  unfold page setPage
  by_cases hzero : image.runs = [(pageSize, 0)]
  · have himage : image = PageImage.zero := by
      cases image
      simp only at hzero
      subst hzero
      rfl
    rw [if_pos hzero, Std.TreeMap.getElem?_erase]
    by_cases h : other = number
    · subst h
      simp [himage]
    · have : compare number other ≠ .eq := by
        simpa using fun h' : number = other => h h'.symm
      simp [h, this]
  · rw [if_neg hzero, Std.TreeMap.getElem?_insert]
    by_cases h : other = number
    · subst h
      simp
    · have : compare number other ≠ .eq := by
        simpa using fun h' : number = other => h h'.symm
      simp [h, this]

theorem byteAt_eq (m : Memory) (number offset : Nat) (h : offset < pageSize) :
    m.byteAt (number * pageSize + offset) = (m.page number).byteAt offset := by
  unfold byteAt
  rw [Nat.mul_comm, Nat.mul_add_div pageSize_pos, Nat.mul_add_mod, Nat.div_eq_of_lt h,
    Nat.mod_eq_of_lt h, Nat.add_zero]

/-- A read of a page's tail gives the bytes of memory there. -/
theorem toList_page_tail (m : Memory) (address here : Nat)
    (h : here ≤ pageSize - address % pageSize) :
    (((m.page (address / pageSize)).runs.dropBytes (address % pageSize)).takeBytes here).toList =
      (List.range here).map fun i => m.byteAt (address + i) := by
  have hlt := Nat.mod_lt address pageSize_pos
  have hlen : (m.page (address / pageSize)).runs.toList.length = pageSize := by
    rw [ByteRuns.length_toList, (m.page (address / pageSize)).size_eq]
  rw [ByteRuns.toList_takeBytes, ByteRuns.toList_dropBytes]
  apply List.ext_getElem
  · simp only [List.length_take, List.length_drop, hlen, List.length_map, List.length_range]
    omega
  · intro i h1 h2
    simp only [List.length_map, List.length_range] at h2
    simp only [List.getElem_take, List.getElem_drop, List.getElem_map, List.getElem_range]
    have hsplit : address + i = address / pageSize * pageSize + (address % pageSize + i) := by
      have := Nat.div_add_mod address pageSize
      rw [Nat.mul_comm] at this
      omega
    rw [hsplit, byteAt_eq m _ _ (by omega), PageImage.byteAt, List.getElem?_eq_getElem (by omega)]
    rfl

/-- The start of the next page is a multiple of the page size. -/
theorem next_page_mod (address : Nat) :
    (address + (pageSize - address % pageSize)) % pageSize = 0 := by
  have hmod := Nat.mod_lt address pageSize_pos
  have hsplit := Nat.div_add_mod address pageSize
  have : address + (pageSize - address % pageSize) = pageSize * (address / pageSize + 1) := by
    rw [Nat.mul_add]
    omega
  rw [this, Nat.mul_mod_right]

@[simp] theorem readPages_zero (m : Memory) (fuel address : Nat) :
    m.readPages fuel address 0 = [] := by
  cases fuel <;> simp [readPages]

theorem toList_readPages (m : Memory) (fuel address len : Nat)
    (enough : address % pageSize + len ≤ fuel * pageSize) :
    (m.readPages fuel address len).toList =
      (List.range len).map fun i => m.byteAt (address + i) := by
  induction fuel generalizing address len with
  | zero =>
    have : len = 0 := by omega
    subst this
    simp
  | succ fuel ih =>
    simp only [readPages]
    split
    · rename_i h
      subst h
      simp
    have hmod := Nat.mod_lt address pageSize_pos
    rw [Nat.succ_mul] at enough
    -- Either the rest of the page is enough, or the read goes on with the next page.
    by_cases hcase : len ≤ pageSize - address % pageSize
    · rw [Nat.min_eq_left hcase, Nat.sub_self, readPages_zero, List.append_nil,
        toList_page_tail m address len hcase]
    · rw [Nat.min_eq_right (by omega), ByteRuns.toList_append,
        toList_page_tail m address _ (Nat.le_refl _), ih]
      · generalize hhere : pageSize - address % pageSize = here
        have hsum : len = here + (len - here) := by omega
        conv => rhs; rw [hsum, List.range_add]
        simp [List.map_append, List.map_map, Function.comp_def, Nat.add_assoc]
      · rw [next_page_mod]
        omega

/-- What is read is the bytes of memory, one after the other. -/
theorem toList_read (m : Memory) (address len : Nat) :
    (m.read address len).toList = (List.range len).map fun i => m.byteAt (address + i) := by
  apply toList_readPages
  have hmod := Nat.mod_lt address pageSize_pos
  have hsplit := Nat.div_add_mod len pageSize
  have hrest := Nat.mod_lt len pageSize_pos
  rw [Nat.add_mul, Nat.mul_comm]
  omega

@[simp] theorem size_read (m : Memory) (address len : Nat) : (m.read address len).size = len := by
  rw [← ByteRuns.length_toList, toList_read]
  simp

theorem byteAt_setPage_splice (m : Memory) (address : Nat) (content : ByteRuns)
    (inside : address % pageSize + content.size ≤ pageSize) (x : Nat) :
    (m.setPage (address / pageSize)
        ((m.page (address / pageSize)).splice (address % pageSize) content inside)).byteAt x =
      if address ≤ x ∧ x < address + content.size then (content.toList[x - address]?).getD 0
      else m.byteAt x := by
  have hx := Nat.div_add_mod x pageSize
  have ha := Nat.div_add_mod address pageSize
  have hxlt := Nat.mod_lt x pageSize_pos
  have halt := Nat.mod_lt address pageSize_pos
  rw [byteAt, page_setPage]
  by_cases hpage : x / pageSize = address / pageSize
  · rw [if_pos hpage, PageImage.byteAt_splice]
    rw [hpage] at hx
    by_cases hin : address ≤ x ∧ x < address + content.size
    · rw [if_pos hin, if_pos (by omega)]
      congr 2
      omega
    · rw [if_neg hin, if_neg (by omega), byteAt, hpage]
  · -- An address in the range written lies on the page written.
    rw [if_neg hpage, if_neg, byteAt]
    rintro ⟨h1, h2⟩
    apply hpage
    have hle : address / pageSize ≤ x / pageSize := Nat.div_le_div_right h1
    have hlt : x / pageSize < address / pageSize + 1 := by
      rw [Nat.div_lt_iff_lt_mul pageSize_pos, Nat.add_mul, Nat.mul_comm]
      omega
    omega

theorem byteAt_writePages (m : Memory) (fuel address : Nat) (content : ByteRuns)
    (enough : content.size = 0 ∨ address % pageSize + content.size ≤ fuel * pageSize) (x : Nat) :
    (writePages fuel m address content).byteAt x =
      if address ≤ x ∧ x < address + content.size then (content.toList[x - address]?).getD 0
      else m.byteAt x := by
  induction fuel generalizing m address content with
  | zero =>
    have : content.size = 0 := by omega
    rw [this, if_neg (by omega)]
    rfl
  | succ fuel ih =>
    simp only [writePages]
    split
    · rename_i h
      rw [h, if_neg (by omega)]
    rename_i hne
    have hmod := Nat.mod_lt address pageSize_pos
    rw [Nat.succ_mul] at enough
    rw [ih, byteAt_setPage_splice]
    · simp only [ByteRuns.size_takeBytes, ByteRuns.size_dropBytes, ByteRuns.toList_takeBytes,
        ByteRuns.toList_dropBytes]
      generalize hhere : pageSize - address % pageSize = here
      -- The address is written later, on this page, or not at all.
      by_cases hlater : address + here ≤ x ∧ x < address + here + (content.size - here)
      · rw [if_pos hlater, if_pos (by omega), List.getElem?_drop]
        congr 2
        omega
      · rw [if_neg hlater]
        by_cases hfirst : address ≤ x ∧ x < address + min here content.size
        · rw [if_pos hfirst, if_pos (by omega), List.getElem?_take_of_lt (by omega)]
        · rw [if_neg hfirst, if_neg (by omega)]
    · rw [ByteRuns.size_dropBytes, next_page_mod]
      omega

/-- A write stores its content and leaves every other byte alone. -/
theorem byteAt_write (m : Memory) (address : Nat) (content : ByteRuns) (x : Nat) :
    (m.write address content).byteAt x =
      if address ≤ x ∧ x < address + content.size then (content.toList[x - address]?).getD 0
      else m.byteAt x := by
  apply byteAt_writePages
  right
  have hmod := Nat.mod_lt address pageSize_pos
  have hsplit := Nat.div_add_mod content.size pageSize
  have hrest := Nat.mod_lt content.size pageSize_pos
  rw [Nat.add_mul, Nat.mul_comm]
  omega

theorem byteAt_fill (m : Memory) (address len : Nat) (byte : UInt8) (x : Nat) :
    (m.fill address len byte).byteAt x =
      if address ≤ x ∧ x < address + len then byte else m.byteAt x := by
  rw [fill, byteAt_write]
  simp only [ByteRuns.size, Nat.add_zero, ByteRuns.toList_cons, ByteRuns.toList_nil,
    List.append_nil, List.getElem?_replicate]
  split
  · rw [if_pos (by omega)]
    rfl
  · rfl

theorem byteAt_clear (m : Memory) (address len x : Nat) :
    (m.clear address len).byteAt x =
      if address ≤ x ∧ x < address + len then 0 else m.byteAt x :=
  byteAt_fill m address len 0 x

theorem byteAt_copy (m : Memory) (source target len x : Nat) :
    (m.copy source target len).byteAt x =
      if target ≤ x ∧ x < target + len then m.byteAt (source + (x - target))
      else m.byteAt x := by
  rw [copy, byteAt_write, size_read, toList_read]
  split
  · rw [List.getElem?_map, List.getElem?_range (by omega)]
    rfl
  · rfl

theorem load_lt (m : Memory) (width address : Nat) : m.load width address < 256 ^ width := by
  have := LittleEndian.decode_lt (m.read address width).toList
  rwa [ByteRuns.length_toList, size_read] at this

/-- What is loaded depends on the bytes at the place alone. -/
theorem load_congr {m m' : Memory} {width address : Nat}
    (same : ∀ i, i < width → m.byteAt (address + i) = m'.byteAt (address + i)) :
    m.load width address = m'.load width address := by
  unfold load
  rw [toList_read, toList_read]
  congr 1
  apply List.map_congr_left
  intro i hi
  exact same i (List.mem_range.1 hi)

theorem byteAt_store (m : Memory) (width address value x : Nat) :
    (m.store width address value).byteAt x =
      if address ≤ x ∧ x < address + width then
        ((LittleEndian.encode width value)[x - address]?).getD 0
      else m.byteAt x := by
  rw [store, byteAt_write]
  simp

/-- A number stored is the number loaded, as far as it fits. -/
theorem load_store (m : Memory) (width address value : Nat) :
    (m.store width address value).load width address = value % 256 ^ width := by
  rw [load, toList_read, ← LittleEndian.decode_encode]
  congr 1
  apply List.ext_getElem
  · simp
  · intro i h1 h2
    simp only [List.length_map, List.length_range] at h1
    simp only [List.getElem_map, List.getElem_range, byteAt_store]
    rw [if_pos (by omega), Nat.add_sub_cancel_left, List.getElem?_eq_getElem (by simpa using h1)]
    rfl

/-- A store elsewhere does not change what is loaded. -/
theorem load_store_of_disjoint (m : Memory) {width address width' address' : Nat} (value : Nat)
    (apart : address + width ≤ address' ∨ address' + width' ≤ address) :
    (m.store width' address' value).load width address = m.load width address := by
  apply load_congr
  intro i hi
  rw [byteAt_store, if_neg (by omega)]

end Memory
end PagedHeap
