import Mathlib.Data.Set.Lattice
import Mathlib.Order.CompletePartialOrder
import Mathlib.Order.Interval.Set.Basic
import PagedHeap.Kernel

/-!
# Which memory is in use

The kernel does not tell whose memory is whose.  All that can be said of it is which bytes
are in use: those of the arena on pages that are not free, and those below the program
break.  A call brings bytes into use that nobody used, or takes some out of use, and leaves
alone what the other bytes in use hold.
-/

namespace PagedHeap

/-- The addresses of `len` bytes from `address` on. -/
def bytesAt (address len : Nat) : Set Nat := Set.Ico address (address + len)

@[simp] theorem mem_bytesAt {address len x : Nat} :
    x ∈ bytesAt address len ↔ address ≤ x ∧ x < address + len := Iff.rfl

theorem mem_bytesAt_self (address : Nat) {len : Nat} (hpos : 0 < len) :
    address ∈ bytesAt address len :=
  ⟨Nat.le_refl address, Nat.lt_add_of_pos_right hpos⟩

@[simp] theorem bytesAt_zero (address : Nat) : bytesAt address 0 = ∅ := by
  ext x
  simp

theorem bytesAt_add (address first second : Nat) :
    bytesAt address (first + second) =
      bytesAt address first ∪ bytesAt (address + first) second := by
  ext x
  simp only [mem_bytesAt, Set.mem_union]
  omega

theorem bytesAt_subset {address len address' len' : Nat} (hfirst : address' ≤ address)
    (hstop : address + len ≤ address' + len') : bytesAt address len ⊆ bytesAt address' len' := by
  intro x hx
  rw [mem_bytesAt] at hx ⊢
  omega

/-- Ranges that share no byte lie one behind the other, unless one is empty. -/
theorem disjoint_bytesAt {address len address' len' : Nat} :
    Disjoint (bytesAt address len) (bytesAt address' len') ↔
      len = 0 ∨ len' = 0 ∨ address + len ≤ address' ∨ address' + len' ≤ address := by
  rw [Set.disjoint_left]
  constructor
  · intro h
    by_contra hcross
    have hboth := h (show max address address' ∈ bytesAt address len by
      rw [mem_bytesAt]
      omega)
    rw [mem_bytesAt] at hboth
    omega
  · intro h x hx hx'
    rw [mem_bytesAt] at hx hx'
    omega

section Parts

variable {raw head len tail : Nat}

/-- A range falls into a middle and two ends. -/
theorem union_bytesAt_parts (out : Set Nat) :
    out ∪ bytesAt raw (head + (len + tail)) =
      out ∪ bytesAt (raw + head) len ∪ bytesAt (raw + head + len) tail ∪ bytesAt raw head := by
  rw [bytesAt_add, bytesAt_add, Set.union_comm (bytesAt raw head), ← Set.union_assoc,
    ← Set.union_assoc]

/-- The ends share nothing with each other and the middle, nor with what is apart from the range. -/
theorem disjoint_bytesAt_parts {out : Set Nat}
    (h : Disjoint out (bytesAt raw (head + (len + tail)))) :
    Disjoint out (bytesAt (raw + head) len) ∧
      Disjoint (out ∪ bytesAt (raw + head) len) (bytesAt (raw + head + len) tail) ∧
      Disjoint (out ∪ bytesAt (raw + head) len ∪ bytesAt (raw + head + len) tail)
        (bytesAt raw head) := by
  rw [bytesAt_add, bytesAt_add, Set.disjoint_union_right, Set.disjoint_union_right] at h
  obtain ⟨hhead, hmiddle, htail⟩ := h
  have hends : Disjoint (bytesAt (raw + head) len) (bytesAt (raw + head + len) tail) :=
    disjoint_bytesAt.2 (.inr (.inr (.inl (Nat.le_refl _))))
  have hfront : Disjoint (bytesAt (raw + head) len ∪ bytesAt (raw + head + len) tail)
      (bytesAt raw head) := by
    rw [← bytesAt_add]
    exact disjoint_bytesAt.2 (.inr (.inr (.inr (Nat.le_refl _))))
  rw [Set.union_assoc, Set.disjoint_union_left, Set.disjoint_union_left]
  exact ⟨hmiddle, ⟨htail, hends⟩, hhead, hfront⟩

end Parts

namespace Memory

variable {m : Memory} {address len x : Nat}

theorem byteAt_clear_inside (hx : x ∈ bytesAt address len) :
    (m.clear address len).byteAt x = 0 := by
  rw [byteAt_clear]
  exact if_pos hx

theorem byteAt_clear_outside (hx : x ∉ bytesAt address len) :
    (m.clear address len).byteAt x = m.byteAt x := by
  rw [byteAt_clear]
  exact if_neg hx

theorem byteAt_copy_outside {source : Nat} (hx : x ∉ bytesAt address len) :
    (m.copy source address len).byteAt x = m.byteAt x := by
  rw [byteAt_copy]
  exact if_neg hx

end Memory

namespace Kernel

variable {k k' k'' : Kernel}

/-- The bytes in use. -/
def inUse (k : Kernel) : Set Nat :=
  {x | (arenaBase ≤ x ∧ x / pageSize < firstPage + k.arenaPages ∧ ¬x / pageSize ∈ k.free) ∨
    ∃ b, k.programBreak? = some b ∧ b.start ≤ x ∧ x < b.current}

/-- The arena lies in the lower half of the addresses, and the program break in front of it
with a gap between them. -/
structure Valid (k : Kernel) : Prop where
  free_inside : ∀ n, n ∈ k.free → firstPage ≤ n ∧ n < firstPage + k.arenaPages
  arena_stop : (firstPage + k.arenaPages) * pageSize ≤ Word.signedLimit
  break_inside : ∀ b, k.programBreak? = some b →
    0 < b.start ∧ b.start ≤ b.current ∧ b.current ≤ b.stop ∧ b.stop < arenaBase

/-- Only `new` came into use between `k` and `k'`. -/
structure Grows (k k' : Kernel) (new : Set Nat) : Prop where
  valid : k'.Valid
  inUse_eq : k'.inUse = k.inUse ∪ new
  fresh : Disjoint k.inUse new
  kept : ∀ x ∈ k.inUse, k'.memory.byteAt x = k.memory.byteAt x

/-- Only `old` went out of use between `k` and `k'`. -/
structure Shrinks (k k' : Kernel) (old : Set Nat) : Prop where
  valid : k'.Valid
  inUse_eq : k'.inUse = k.inUse \ old
  kept : ∀ x ∈ k'.inUse, k'.memory.byteAt x = k.memory.byteAt x

theorem inUse_congr (hpages : k'.arenaPages = k.arenaPages) (hfree : k'.free = k.free)
    (hbreak : k'.programBreak? = k.programBreak?) : k'.inUse = k.inUse := by
  unfold inUse
  rw [hpages, hfree, hbreak]

theorem valid_boot {arenaPages : Nat} {programBreak? : Option ProgramBreak}
    (hstop : (firstPage + arenaPages) * pageSize ≤ Word.signedLimit)
    (hbreak : ∀ b, programBreak? = some b →
      0 < b.start ∧ b.start ≤ b.current ∧ b.current ≤ b.stop ∧ b.stop < arenaBase) :
    (boot arenaPages programBreak?).Valid where
  free_inside n hn := by
    rcases ExtentSet.mem_insert.1 hn with hnew | hold
    · exact hnew
    · exact absurd hold (ExtentSet.not_mem_empty n)
  arena_stop := hstop
  break_inside := hbreak

theorem Valid.congr (h : k.Valid) (hpages : k'.arenaPages = k.arenaPages)
    (hfree : k'.free = k.free) (hbreak : k'.programBreak? = k.programBreak?) : k'.Valid := by
  refine ⟨?_, ?_, ?_⟩
  · rw [hpages, hfree]
    exact h.free_inside
  · rw [hpages]
    exact h.arena_stop
  · rw [hbreak]
    exact h.break_inside

/-- A call that fails leaves everything in use as it is. -/
theorem Valid.grows_nothing (h : k.Valid) (hpages : k'.arenaPages = k.arenaPages)
    (hfree : k'.free = k.free) (hbreak : k'.programBreak? = k.programBreak?)
    (hmemory : k'.memory = k.memory) : Grows k k' ∅ where
  valid := h.congr hpages hfree hbreak
  inUse_eq := by rw [Set.union_empty, inUse_congr hpages hfree hbreak]
  fresh := Set.disjoint_empty _
  kept x _ := by rw [hmemory]

theorem Grows.of_fields {new : Set Nat} (h : Grows k k'' new) (huse : k.inUse = k'.inUse)
    (hmemory : k.memory = k'.memory) : Grows k' k'' new where
  valid := h.valid
  inUse_eq := by rw [← huse, h.inUse_eq]
  fresh := huse ▸ h.fresh
  kept x hx := by rw [← hmemory, h.kept x (huse ▸ hx)]

theorem Grows.record {new : Set Nat} (h : Grows k k' new) (call : Call) :
    Grows k (k'.record call) new where
  valid := h.valid.congr rfl rfl rfl
  inUse_eq := h.inUse_eq
  fresh := h.fresh
  kept := h.kept

theorem Valid.lt_signedLimit (h : k.Valid) {x : Nat} (hx : x ∈ k.inUse) :
    x < Word.signedLimit := by
  have harena := h.arena_stop
  rcases hx with ⟨_, hpage, _⟩ | ⟨b, hb, _, hlt⟩
  · simp only [pageSize] at harena hpage
    omega
  · obtain ⟨_, _, hstop, hgap⟩ := h.break_inside b hb
    simp only [arenaBase, Word.signedLimit] at hgap ⊢
    omega

/-- Between the break and the arena there is a byte that nobody uses. -/
theorem Valid.gap (h : k.Valid) : arenaBase - 1 ∉ k.inUse := by
  rintro (⟨hle, _⟩ | ⟨b, hb, _, hlt⟩)
  · simp only [arenaBase] at hle
    omega
  · obtain ⟨_, _, hstop, hgap⟩ := h.break_inside b hb
    omega

theorem Valid.zero_notMem (h : k.Valid) : 0 ∉ k.inUse := by
  rintro (⟨hle, _⟩ | ⟨b, hb, hstart, _⟩)
  · simp only [arenaBase] at hle
    omega
  · obtain ⟨hpos, _⟩ := h.break_inside b hb
    omega

/-- A range in use lies in front of the arena or in it. -/
theorem Valid.below_or_above (h : k.Valid) {address len : Nat}
    (huse : bytesAt address len ⊆ k.inUse) :
    address + len ≤ arenaBase ∨ arenaBase ≤ address := by
  by_contra hcross
  apply h.gap
  apply huse
  rw [mem_bytesAt]
  omega

/-! ## Taking and giving up pages -/

/-- What is on a free page is not in use: the break does not reach the arena. -/
theorem Valid.notMem_inUse (h : k.Valid) {x : Nat} (hfree : x / pageSize ∈ k.free) :
    x ∉ k.inUse := by
  rintro (⟨_, _, hnot⟩ | ⟨b, hb, _, hcurrent⟩)
  · exact hnot hfree
  · obtain ⟨_, _, hstop, hgap⟩ := h.break_inside b hb
    have hbase := (h.free_inside _ hfree).1
    simp only [firstPage, arenaBase, pageSize] at hbase hgap
    omega

theorem Valid.takePages (h : k.Valid) {first count : Nat}
    (hfree : ∀ n, first ≤ n → n < first + count → n ∈ k.free) :
    Grows k (k.takePages first count) (bytesAt (first * pageSize) (count * pageSize)) := by
  have hpage : ∀ x, x ∈ bytesAt (first * pageSize) (count * pageSize) ↔
      first ≤ x / pageSize ∧ x / pageSize < first + count := by
    intro x
    simp only [mem_bytesAt, pageSize]
    omega
  refine ⟨⟨?_, h.arena_stop, h.break_inside⟩, ?_, ?_, ?_⟩
  · intro n hn
    exact h.free_inside n (ExtentSet.mem_erase.1 hn).1
  · ext x
    simp only [inUse, Kernel.takePages, Set.mem_ofPred_eq, Set.mem_union, ExtentSet.mem_erase,
      hpage]
    constructor
    · rintro (⟨hbase, hlt, hnot⟩ | hbreak)
      · by_cases hx : x / pageSize ∈ k.free
        · right
          by_contra hout
          exact hnot ⟨hx, by omega⟩
        · exact .inl (.inl ⟨hbase, hlt, hx⟩)
      · exact .inl (.inr hbreak)
    · rintro ((⟨hbase, hlt, hnot⟩ | hbreak) | ⟨hge, hlt⟩)
      · exact .inl ⟨hbase, hlt, fun hx => hnot hx.1⟩
      · exact .inr hbreak
      · obtain ⟨hfirst, hstop⟩ := h.free_inside _ (hfree _ hge hlt)
        refine .inl ⟨?_, hstop, by omega⟩
        simp only [firstPage, arenaBase, pageSize] at hfirst ⊢
        omega
  · rw [Set.disjoint_right]
    intro x hx
    obtain ⟨hge, hlt⟩ := (hpage x).1 hx
    exact h.notMem_inUse (hfree _ hge hlt)
  · intro x hx
    apply Memory.byteAt_clear_outside
    intro hin
    obtain ⟨hge, hlt⟩ := (hpage x).1 hin
    exact h.notMem_inUse (hfree _ hge hlt) hx

theorem byteAt_takePages (k : Kernel) {first count x : Nat}
    (hx : x ∈ bytesAt (first * pageSize) (count * pageSize)) :
    (k.takePages first count).memory.byteAt x = 0 :=
  Memory.byteAt_clear_inside hx

theorem pagesFor_mul {len : Nat} (h : len % pageSize = 0) : pagesFor len * pageSize = len := by
  simp only [pagesFor, pageSize] at h ⊢
  omega

theorem div_mul_pageSize {n : Nat} (h : n % pageSize = 0) : n / pageSize * pageSize = n := by
  simp only [pageSize] at h ⊢
  omega

theorem Valid.unmap (h : k.Valid) {address len : Nat} (haddress : address % pageSize = 0)
    (hlen : len % pageSize = 0) :
    Shrinks k (k.unmap address len) {x | x ∈ bytesAt address len ∧ arenaBase ≤ x} := by
  have hpages : (k.unmap address len).free =
      k.free.insert (k.inArena (address / pageSize) (pagesFor len)).first
        (k.inArena (address / pageSize) (pagesFor len)).stop := rfl
  have hinside : ∀ x, (k.inArena (address / pageSize) (pagesFor len)).first ≤ x / pageSize ∧
      x / pageSize < (k.inArena (address / pageSize) (pagesFor len)).stop ↔
      (x ∈ bytesAt address len ∧ arenaBase ≤ x) ∧ x / pageSize < firstPage + k.arenaPages := by
    intro x
    simp only [inArena, mem_bytesAt, pagesFor, firstPage, arenaBase, pageSize] at haddress hlen ⊢
    omega
  refine ⟨⟨?_, h.arena_stop, h.break_inside⟩, ?_, ?_⟩
  · intro n hn
    rw [hpages, ExtentSet.mem_insert] at hn
    rcases hn with ⟨hfirst, hstop⟩ | hn
    · exact ⟨Nat.le_trans (Nat.le_max_right _ _) hfirst,
        Nat.lt_of_lt_of_le hstop (Nat.min_le_right _ _)⟩
    · exact h.free_inside n hn
  · ext x
    simp only [inUse, Set.mem_ofPred_eq, Set.mem_sdiff, hpages, ExtentSet.mem_insert, hinside]
    constructor
    · rintro (⟨hbase, hlt, hnot⟩ | ⟨b, hb, hstart, hcurrent⟩)
      · exact ⟨.inl ⟨hbase, hlt, fun hx => hnot (.inr hx)⟩,
          fun hx => hnot (.inl ⟨hx, hlt⟩)⟩
      · refine ⟨.inr ⟨b, hb, hstart, hcurrent⟩, ?_⟩
        obtain ⟨_, _, hstop, hgap⟩ := h.break_inside b hb
        intro hx
        omega
    · rintro ⟨⟨hbase, hlt, hnot⟩ | hbreak, hout⟩
      · refine .inl ⟨hbase, hlt, ?_⟩
        rintro (hx | hx)
        · exact hout hx.1
        · exact hnot hx
      · exact .inr hbreak
  · intro x hx
    apply Memory.byteAt_clear_outside
    intro hcleared
    have hin := (hinside x).1 (by
      simp only [mem_bytesAt, pageSize] at hcleared ⊢
      omega)
    rcases hx with ⟨_, _, hnot⟩ | ⟨b, hb, _, hcurrent⟩
    · rw [hpages, ExtentSet.mem_insert, hinside] at hnot
      exact hnot (.inl hin)
    · obtain ⟨_, _, hstop, hgap⟩ := h.break_inside b hb
      omega

theorem Valid.advise (h : k.Valid) (address len : Nat) (advice : Advice) :
    (k.advise address len advice).Valid ∧ (k.advise address len advice).inUse = k.inUse :=
  ⟨h.congr rfl rfl rfl, inUse_congr rfl rfl rfl⟩

/-! ## Mapping calls -/

theorem hasRoomAt_free {address count : Nat} (hcount : 0 < count)
    (hroom : k.hasRoomAt address count = true) :
    address % pageSize = 0 ∧
      ∀ n, address / pageSize ≤ n → n < address / pageSize + count → n ∈ k.free := by
  rw [hasRoomAt, Bool.and_eq_true] at hroom
  refine ⟨by simpa [isPageMultiple] using hroom.1, ?_⟩
  exact (ExtentSet.covers_iff (by omega)).1 hroom.2

theorem anyPlace?_free {count first : Nat} (h : k.anyPlace? count = some first) (n : Nat)
    (hfirst : first ≤ n) (hstop : n < first + count) : n ∈ k.free := by
  unfold anyPlace? at h
  split at h
  · exact ExtentSet.lowestFit?_covers h n hfirst hstop
  · exact ExtentSet.highestFit?_covers h n hfirst hstop

theorem hintedPlace?_free {hint count first : Nat} (hcount : 0 < count)
    (h : k.hintedPlace? hint count = some first) (n : Nat) (hfirst : first ≤ n)
    (hstop : n < first + count) : n ∈ k.free := by
  unfold hintedPlace? at h
  split at h
  · rename_i hhint
    obtain rfl := Option.some.inj h
    exact (hasRoomAt_free hcount hhint.2.2).2 n hfirst hstop
  · exact anyPlace?_free h n hfirst hstop

theorem exactPlace?_free {address count first : Nat} (hcount : 0 < count)
    (h : k.exactPlace? address count = some first) (n : Nat) (hfirst : first ≤ n)
    (hstop : n < first + count) : n ∈ k.free := by
  unfold exactPlace? at h
  split at h
  · split at h
    · rename_i hroom
      obtain rfl := Option.some.inj h
      exact (hasRoomAt_free hcount hroom).2 n hfirst hstop
    · exact absurd h (by simp)
  · exact hintedPlace?_free hcount h n hfirst hstop

/-- What a mapping call may come to: fresh pages that are zero, or nothing. -/
def Maps (k k' : Kernel) (len : Nat) : Option Nat → Prop
  | none => Grows k k' ∅
  | some address =>
      Grows k k' (bytesAt address len) ∧ address % pageSize = 0 ∧ arenaBase ≤ address ∧
        ∀ x ∈ bytesAt address len, k'.memory.byteAt x = 0

theorem Maps.record {len : Nat} {place? : Option Nat} (h : Maps k k' len place?)
    (call : Call) : Maps k (k'.record call) len place? := by
  cases place? with
  | none => exact Grows.record h call
  | some address => exact ⟨h.1.record call, h.2⟩

theorem Maps.of_fields {len : Nat} {place? : Option Nat} (h : Maps k k'' len place?)
    (huse : k.inUse = k'.inUse) (hmemory : k.memory = k'.memory) : Maps k' k'' len place? := by
  cases place? with
  | none => exact Grows.of_fields h huse hmemory
  | some address => exact ⟨h.1.of_fields huse hmemory, h.2⟩

theorem Valid.arenaBase_le (h : k.Valid) {first count : Nat} (hcount : 0 < count)
    (hfree : ∀ n, first ≤ n → n < first + count → n ∈ k.free) :
    arenaBase ≤ first * pageSize := by
  have hfirst := (h.free_inside first (hfree first (Nat.le_refl _) (by omega))).1
  simp only [firstPage, arenaBase, pageSize] at hfirst ⊢
  omega

/-- Pages taken and put on record, as a mapping of them. -/
theorem Valid.maps_takePages (h : k.Valid) {first count : Nat} (hcount : 0 < count)
    (hfree : ∀ n, first ≤ n → n < first + count → n ∈ k.free) :
    Maps k (k.takePages first count) (count * pageSize) (some (first * pageSize)) :=
  ⟨h.takePages hfree, Nat.mul_mod_left _ _, h.arenaBase_le hcount hfree,
    fun _ hx => byteAt_takePages k hx⟩

theorem Valid.mapAt (h : k.Valid) {place? : Option Nat} {count : Nat}
    (hplace : 0 < count → ∀ first, place? = some first →
      ∀ n, first ≤ n → n < first + count → n ∈ k.free) :
    Maps k (k.mapAt place? count).2 (count * pageSize) (k.mapAt place? count).1 := by
  have hschedule : ({ k with mapFailures := k.mapFailures.next.2 } : Kernel).Valid :=
    h.congr rfl rfl rfl
  unfold Kernel.mapAt
  simp only
  split
  · exact h.grows_nothing rfl rfl rfl rfl
  · rename_i hpasses
    cases place? with
    | none => exact h.grows_nothing rfl rfl rfl rfl
    | some first =>
        have hcount : 0 < count := by omega
        exact (hschedule.maps_takePages hcount (hplace hcount first rfl)).of_fields rfl rfl

theorem Valid.mapAny (h : k.Valid) (hint : Nat) {len : Nat} (hlen : len % pageSize = 0) :
    Maps k (k.mapAny hint len).2 len (k.mapAny hint len).1 := by
  have hmap : Maps k (k.mapAt (k.hintedPlace? hint (pagesFor len)) (pagesFor len)).2
      (pagesFor len * pageSize) (k.mapAt (k.hintedPlace? hint (pagesFor len)) (pagesFor len)).1 :=
    h.mapAt fun hcount _ hplace => hintedPlace?_free hcount hplace
  rw [pagesFor_mul hlen] at hmap
  exact hmap.record _

theorem Valid.mapExact (h : k.Valid) (address : Nat) {len : Nat} (hlen : len % pageSize = 0) :
    Maps k (k.mapExact address len).2 len (k.mapExact address len).1 := by
  have hmap : Maps k (k.mapAt (k.exactPlace? address (pagesFor len)) (pagesFor len)).2
      (pagesFor len * pageSize) (k.mapAt (k.exactPlace? address (pagesFor len)) (pagesFor len)).1 :=
    h.mapAt fun hcount _ hplace => exactPlace?_free hcount hplace
  rw [pagesFor_mul hlen] at hmap
  exact hmap.record _

theorem Valid.remap (h : k.Valid) (address : Nat) {old new : Nat} (hgrows : old < new)
    (hlen : (new - old) % pageSize = 0) :
    Maps k (k.remap address old new).2 (new - old)
      (if (k.remap address old new).1 = true then some (address + old) else none) := by
  have hcount : 0 < pagesFor (new - old) := by
    simp only [pagesFor, pageSize] at hlen ⊢
    omega
  unfold Kernel.remap
  simp only
  split
  · rename_i hroom
    obtain ⟨haligned, hfree⟩ := hasRoomAt_free hcount hroom.2
    have hmaps := h.maps_takePages hcount hfree
    rw [pagesFor_mul hlen, div_mul_pageSize haligned] at hmaps
    exact hmaps.record _
  · exact h.grows_nothing rfl rfl rfl rfl

/-! ## The program break -/

theorem programBreak_of_some {b : ProgramBreak} (hb : k.programBreak? = some b) :
    k.programBreak = b.current := by
  rw [programBreak, hb]

theorem movedBreak?_eq_some {delta : Int} {b : ProgramBreak} {target : Nat}
    (h : k.movedBreak? delta = some (b, target)) :
    k.programBreak? = some b ∧ (target : Int) = b.current + delta ∧ b.start ≤ target ∧
      target ≤ b.stop := by
  obtain ⟨b', hb, htarget⟩ := Option.bind_eq_some_iff.1 h
  simp only at htarget
  split at htarget
  · rename_i hbounds
    obtain ⟨rfl, rfl⟩ := Prod.mk.inj (Option.some.inj htarget)
    exact ⟨hb, by omega, by omega, by omega⟩
  · exact absurd htarget (by simp)

/-- The break moved from where `b` has it to `target`. -/
structure MovesBreak (k k' : Kernel) (b : ProgramBreak) (target : Nat) : Prop where
  was : k.programBreak? = some b
  start_le : b.start ≤ target
  le_stop : target ≤ b.stop
  arenaPages_eq : k'.arenaPages = k.arenaPages
  free_eq : k'.free = k.free
  break_eq : k'.programBreak? = some { b with current := target }
  memory_eq : k'.memory = clearMoved b.current target k.memory

/-- A request to move the break fails, or moves it by as much as was asked. -/
theorem moveBreak_cases (h : k.Valid) {delta : Int} (hdelta : delta ≠ 0) :
    ((k.moveBreak delta).1 = none ∧ Grows k (k.moveBreak delta).2 ∅) ∨
      (k.moveBreak delta).1 = some k.programBreak ∧
        ∃ (b : ProgramBreak) (target : Nat), (target : Int) = b.current + delta ∧
          MovesBreak k (k.moveBreak delta).2 b target := by
  cases hplace : (if k.breakFailures.next.1 then none
      else ({ k with breakFailures := k.breakFailures.next.2 } : Kernel).movedBreak? delta) with
  | none =>
      have hmove : k.moveBreak delta =
          (none, ({ k with breakFailures := k.breakFailures.next.2 } : Kernel).record
            (.moveBreak delta none)) := by
        rw [Kernel.moveBreak, if_neg hdelta]
        simp only [hplace]
      rw [hmove]
      exact .inl ⟨rfl, h.grows_nothing rfl rfl rfl rfl⟩
  | some move =>
      obtain ⟨b, target⟩ := move
      have hmove : k.moveBreak delta =
          (some b.current, ({ k with
            breakFailures := k.breakFailures.next.2
            programBreak? := some { b with current := target }
            memory := clearMoved b.current target k.memory } : Kernel).record
              (.moveBreak delta (some b.current))) := by
        rw [Kernel.moveBreak, if_neg hdelta]
        simp only [hplace]
      rw [hmove]
      split at hplace
      · exact absurd hplace (by simp)
      · obtain ⟨hb, htarget, hstart, hstop⟩ := movedBreak?_eq_some hplace
        rw [programBreak_of_some (k := k) hb]
        exact .inr ⟨rfl, b, target, htarget, hb, hstart, hstop, rfl, rfl, rfl, rfl⟩

theorem mem_inUse_of_break {b : ProgramBreak} (hb : k.programBreak? = some b) {x : Nat} :
    x ∈ k.inUse ↔ (arenaBase ≤ x ∧ x / pageSize < firstPage + k.arenaPages ∧
      ¬x / pageSize ∈ k.free) ∨ (b.start ≤ x ∧ x < b.current) := by
  simp [inUse, hb]

/-- Break memory in use lies below the break. -/
theorem lt_programBreak {x : Nat} (hx : x ∈ k.inUse) (hlow : x < arenaBase) :
    x < k.programBreak := by
  rcases hx with ⟨hbase, -⟩ | ⟨b, hb, -, hlt⟩
  · exact absurd hbase (Nat.not_le.2 hlow)
  · rwa [programBreak_of_some hb]

section MovesBreak

variable {b : ProgramBreak} {target : Nat}

/-- Beside the break, only the mappings count, and they are as they were. -/
theorem MovesBreak.mem_inUse (hmoves : MovesBreak k k' b target) {x : Nat} :
    x ∈ k'.inUse ↔ (arenaBase ≤ x ∧ x / pageSize < firstPage + k.arenaPages ∧
      ¬x / pageSize ∈ k.free) ∨ (b.start ≤ x ∧ x < target) := by
  rw [mem_inUse_of_break hmoves.break_eq, hmoves.arenaPages_eq, hmoves.free_eq]

theorem MovesBreak.valid (hmoves : MovesBreak k k' b target) (h : k.Valid) : k'.Valid where
  free_inside := by
    rw [hmoves.free_eq, hmoves.arenaPages_eq]
    exact h.free_inside
  arena_stop := by
    rw [hmoves.arenaPages_eq]
    exact h.arena_stop
  break_inside := by
    obtain ⟨hpos, -, -, hgap⟩ := h.break_inside b hmoves.was
    rw [hmoves.break_eq]
    rintro _ ⟨⟩
    exact ⟨hpos, hmoves.start_le, hmoves.le_stop, hgap⟩

/-- What is in use before and after keeps its content: the pages that are cleared begin behind the
lower of the two breaks. -/
theorem MovesBreak.byteAt (hmoves : MovesBreak k k' b target) (h : k.Valid) {x : Nat}
    (hx : x ∈ k.inUse) (hx' : x ∈ k'.inUse) : k'.memory.byteAt x = k.memory.byteAt x := by
  obtain ⟨-, -, hstop, hgap⟩ := h.break_inside b hmoves.was
  have hle := hmoves.le_stop
  rw [mem_inUse_of_break hmoves.was] at hx
  rw [hmoves.mem_inUse] at hx'
  rw [hmoves.memory_eq, clearMoved]
  apply Memory.byteAt_clear_outside
  simp only [mem_bytesAt, pagesFor, arenaBase, pageSize] at hx hx' hgap ⊢
  omega

/-- Whole pages that come into use are zero. -/
theorem MovesBreak.zero (hmoves : MovesBreak k k' b target) {x : Nat} (hlt : x < target)
    (hge : pagesFor b.current * pageSize ≤ x) : k'.memory.byteAt x = 0 := by
  rw [hmoves.memory_eq, clearMoved]
  apply Memory.byteAt_clear_inside
  simp only [mem_bytesAt, pagesFor, pageSize] at hge ⊢
  omega

end MovesBreak

/-- Moving the break up brings the bytes up to the new break into use.  Whole pages of them
are zero. -/
theorem Valid.raiseBreak (h : k.Valid) {len : Nat} (hlen : 0 < len) :
    ((k.moveBreak len).1 = none ∧ Grows k (k.moveBreak len).2 ∅) ∨
      (k.moveBreak len).1 = some k.programBreak ∧
        Grows k (k.moveBreak len).2 (bytesAt k.programBreak len) ∧
        k.programBreak + len < arenaBase ∧
        ∀ x, x < k.programBreak + len → pagesFor k.programBreak * pageSize ≤ x →
          (k.moveBreak len).2.memory.byteAt x = 0 := by
  rcases moveBreak_cases h (show (len : Int) ≠ 0 by omega) with
    hfail | ⟨hanswer, b, target, htarget, hmoves⟩
  · exact .inl hfail
  obtain ⟨-, hle, -, hgap⟩ := h.break_inside b hmoves.was
  have hstop := hmoves.le_stop
  obtain rfl : target = b.current + len := by omega
  have hinUse : (k.moveBreak len).2.inUse = k.inUse ∪ bytesAt b.current len := by
    ext x
    rw [Set.mem_union, hmoves.mem_inUse, mem_inUse_of_break hmoves.was, mem_bytesAt]
    constructor
    · rintro (harena | hx)
      · exact .inl (.inl harena)
      · by_cases hlt : x < b.current
        · exact .inl (.inr ⟨hx.1, hlt⟩)
        · exact .inr ⟨by omega, hx.2⟩
    · rintro ((harena | hx) | hx)
      · exact .inl harena
      · exact .inr ⟨hx.1, by omega⟩
      · exact .inr ⟨by omega, hx.2⟩
  refine .inr ⟨hanswer, ?_⟩
  rw [programBreak_of_some hmoves.was]
  refine ⟨⟨hmoves.valid h, hinUse, ?_, fun x hx => ?_⟩, by omega, fun x => hmoves.zero⟩
  · rw [Set.disjoint_left]
    intro x hx hnew
    rw [mem_inUse_of_break hmoves.was] at hx
    rw [mem_bytesAt] at hnew
    omega
  · exact hmoves.byteAt h hx (by rw [hinUse]; exact .inl hx)

/-- Moving the break down takes the bytes from the new break on out of use. -/
theorem Valid.lowerBreak (h : k.Valid) {len : Nat} (hlen : 0 < len) :
    ((k.moveBreak (-(len : Int))).1 = none ∧ Grows k (k.moveBreak (-(len : Int))).2 ∅) ∨
      (k.moveBreak (-(len : Int))).1 = some k.programBreak ∧ len ≤ k.programBreak ∧
        Shrinks k (k.moveBreak (-(len : Int))).2 (bytesAt (k.programBreak - len) len) := by
  rcases moveBreak_cases h (show -(len : Int) ≠ 0 by omega) with
    hfail | ⟨hanswer, b, target, htarget, hmoves⟩
  · exact .inl hfail
  obtain ⟨-, hle, hstop, hgap⟩ := h.break_inside b hmoves.was
  have hstart := hmoves.start_le
  obtain rfl : target = b.current - len := by omega
  have hinUse : (k.moveBreak (-(len : Int))).2.inUse = k.inUse \ bytesAt (b.current - len) len := by
    ext x
    rw [Set.mem_sdiff, hmoves.mem_inUse, mem_inUse_of_break hmoves.was, mem_bytesAt]
    constructor
    · rintro (harena | hx)
      · exact ⟨.inl harena, by omega⟩
      · exact ⟨.inr ⟨hx.1, by omega⟩, by omega⟩
    · rintro ⟨harena | hx, hout⟩
      · exact .inl harena
      · exact .inr ⟨hx.1, by omega⟩
  refine .inr ⟨hanswer, ?_⟩
  rw [programBreak_of_some hmoves.was]
  refine ⟨by omega, hmoves.valid h, hinUse, fun x hx => ?_⟩
  exact hmoves.byteAt h (by rw [hinUse] at hx; exact hx.1) hx

end Kernel
end PagedHeap
