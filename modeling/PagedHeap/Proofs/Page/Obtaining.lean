import PagedHeap.Proofs.Page.Sound

/-!
# Getting memory from the kernel

A supplier gets fresh memory by moving the program break or by mapping, and for huge pages by
mapping more than it needs.  Whichever way it takes, the memory was in nobody's hands and
reads as zero, and everything else is left as it was.
-/

namespace PagedHeap

/-- Below the arena no sum leaves the address space. -/
theorem Word.add?_of_lt_arenaBase {a b : Nat} (h : a + b < arenaBase) :
    Word.add? a b = some (a + b) := by
  rw [Word.add?_eq_some_iff]
  refine ⟨rfl, ?_⟩
  simp only [arenaBase, Word.limit] at h ⊢
  omega

theorem Word.pos_of_isPowerOfTwo {n : Nat} (h : Word.isPowerOfTwo n = true) : 0 < n := by
  obtain ⟨k, rfl⟩ := Word.isPowerOfTwo_iff.1 h
  exact Nat.two_pow_pos k

/-- Rounding up to a power of two stays within one step of the address. -/
theorem Word.exists_alignUp {x align : Nat} (halign : Word.isPowerOfTwo align = true)
    (h : x + (align - 1) < Word.limit) :
    ∃ start, Word.alignUp? x align = some start ∧ x ≤ start ∧ start < x + align ∧
      start % align = 0 := by
  obtain ⟨k, rfl⟩ := Word.isPowerOfTwo_iff.1 halign
  have hpos := Nat.two_pow_pos k
  have hmod := Nat.mod_lt (x + (2 ^ k - 1)) hpos
  refine ⟨_, by rw [Word.alignUp?_two_pow, if_pos h], by omega, by omega, ?_⟩
  exact Nat.sub_mod_eq_zero_of_mod_eq (Nat.mod_mod _ _).symm

theorem isPowerOfTwo_dvd {m n : Nat} (hm : Word.isPowerOfTwo m = true)
    (hn : Word.isPowerOfTwo n = true) (hle : m ≤ n) : m ∣ n := by
  obtain ⟨j, rfl⟩ := Word.isPowerOfTwo_iff.1 hm
  obtain ⟨k, rfl⟩ := Word.isPowerOfTwo_iff.1 hn
  exact Nat.pow_dvd_pow 2 ((Nat.pow_le_pow_iff_right (Nat.lt_succ_self 1)).1 hle)

theorem isPowerOfTwo_pageSize : Word.isPowerOfTwo pageSize = true :=
  Word.isPowerOfTwo_iff.2 ⟨12, by simp [pageSize]⟩

theorem PageSupplier.huge_of_wants {s : PageSupplier} {size : Nat} (h : s.wantsHuge size = true) :
    s.config.hugePages = true ∧ size % hugePageSize = 0 := by
  rwa [wantsHuge, Bool.and_eq_true, beq_iff_eq] at h

theorem isPowerOfTwo_hugePageSize : Word.isPowerOfTwo hugePageSize = true :=
  Word.isPowerOfTwo_iff.2 ⟨21, by simp [hugePageSize]⟩

namespace Paging

open Ranges

variable {p p' : Paging} {out : Set Nat} {lent : Nat} {α : Type} {ends : Ending → Paging → Prop}

@[simp] theorem ensures_call {step : Kernel → α × Kernel} {post : α → Paging → Prop} :
    Action.Ensures (call step) p post ends ↔
      post (step p.kernel).1 { p with kernel := (step p.kernel).2 } :=
  Action.ensures_iff

@[simp] theorem ensures_update {f : PageSupplier → PageSupplier} {post : Unit → Paging → Prop} :
    Action.Ensures (update f) p post ends ↔ post () { p with supplier := f p.supplier } :=
  Action.ensures_iff

@[simp] theorem ensures_programBreak {post : Nat → Paging → Prop} :
    Action.Ensures programBreak p post ends ↔ post p.kernel.programBreak p :=
  Action.ensures_iff

/-- The `size` bytes at `address` are in the hands of who asked for them, and are zero. -/
structure Supplies (p : Paging) (out : Set Nat) (lent address size : Nat) : Prop where
  sound : Sound p (out ∪ bytesAt address size) lent
  apart : Disjoint out (bytesAt address size)
  aligned : address % pageSize = 0
  zero : ∀ x ∈ bytesAt address size, p.byteAt x = 0

/-- What a request for `size` bytes may come to; `granted` bytes are lent if it is met. -/
def Obtains (p : Paging) (out : Set Nat) (lent granted size : Nat) :
    Option Nat → Paging → Prop
  | none, p' => Passes p out p' ∧ Sound p' out lent
  | some address, p' => Passes p out p' ∧ Supplies p' out granted address size

theorem Obtains.of_passes {p₀ : Paging} {granted size : Nat} {address? : Option Nat}
    (hpasses : Passes p₀ out p) (h : Obtains p out lent granted size address? p') :
    Obtains p₀ out lent granted size address? p' := by
  cases address? with
  | none => exact ⟨hpasses.trans h.1, h.2⟩
  | some address => exact ⟨hpasses.trans h.1, h.2⟩

theorem Obtains.passes {granted size : Nat} {address? : Option Nat}
    (h : Obtains p out lent granted size address? p') : Passes p out p' := by
  cases address? with
  | none => exact h.1
  | some address => exact h.1

/-! ## Mapping and unmapping -/

/-- A mapping call of the kernel is an answer to a request. -/
theorem Sound.obtains_of_maps {k : Kernel} {call : Call} {size : Nat} {address? : Option Nat}
    (h : Sound p out lent) (hmaps : p.kernel.Maps k size address?)
    (hcalls : k.calls = call :: p.kernel.calls) (hgained : call.gained = Call.bytesGot size address?)
    (hstruck : call.struck = ∅) :
    Obtains p out lent lent size address? { p with kernel := k } := by
  cases address? with
  | none =>
      obtain ⟨hholding, hpasses⟩ := h.grows_nothing hmaps hcalls hgained hstruck
      exact ⟨hpasses, hholding⟩
  | some address =>
      obtain ⟨hgrows, haligned, hbase, hzero⟩ := hmaps
      obtain ⟨hholding, hapart⟩ :=
        h.grows hgrows (Set.Subset.refl _) fun x hx hnot => absurd hx hnot
      have hpasses := h.passes_grows False hgrows hcalls hgained hstruck
        fun x hx => Nat.le_trans hbase (mem_bytesAt.1 hx).1
      exact ⟨hpasses, hholding, hapart, haligned, hzero⟩

theorem Sound.ensures_map (h : Sound p out lent) (hint : Nat) {len : Nat}
    (hlen : len % pageSize = 0) :
    Action.Ensures (map hint len) p (Obtains p out lent lent len) Action.never := by
  simp only [map, ensures_call]
  exact h.obtains_of_maps (h.kernel.mapAny hint hlen) (p.kernel.calls_mapAny hint len)
    (Call.gained_mapAny hint len _) rfl

/-- A range is unmapped, whoever had it. -/
theorem Holding.unmaps {pending : List Range} {address len : Nat}
    (h : Holding p (out ∪ bytesAt address len) lent pending) (sinks : Prop)
    (hgone : Disjoint out (bytesAt address len)) (haddress : address % pageSize = 0)
    (hlen : len % pageSize = 0) :
    Holding { p with kernel := p.kernel.unmap address len } out lent pending ∧
      Passes p out { p with kernel := p.kernel.unmap address len } sinks := by
  apply h.shrinks sinks hgone (h.kernel.unmap haddress hlen) rfl rfl (Set.Subset.refl _) _ (.inl rfl)
  exact fun x hx hnot => Nat.not_le.1 fun hbase => hnot ⟨hx, hbase⟩

theorem Sound.ensures_unmap {address len : Nat} (h : Sound p (out ∪ bytesAt address len) lent)
    (hgone : Disjoint out (bytesAt address len)) (haddress : address % pageSize = 0)
    (hlen : len % pageSize = 0) :
    Action.Ensures (unmap address len) p (fun _ p' => Passes p out p' ∧ Sound p' out lent)
      Action.never := by
  simp only [unmap, ensures_call]
  exact (Holding.unmaps h False hgone haddress hlen).symm

/-- Giving back nothing changes nothing. -/
theorem Sound.ensures_unmapPart {address len : Nat}
    (h : Sound p (out ∪ bytesAt address len) lent)
    (hgone : Disjoint out (bytesAt address len)) (haddress : address % pageSize = 0)
    (hlen : len % pageSize = 0) :
    Action.Ensures (Action.onlyIf (decide (0 < len)) (unmap address len)) p
      (fun _ p' => Passes p out p' ∧ Sound p' out lent) Action.never := by
  rw [Action.ensures_onlyIf]
  split
  · exact h.ensures_unmap hgone haddress hlen
  · rename_i hzero
    obtain rfl : len = 0 := by simpa using hzero
    rw [bytesAt_zero, Set.union_empty] at h
    exact ⟨Passes.refl p out, h⟩

theorem Supplies.stop_le {address size : Nat} (h : Supplies p out lent address size) :
    size = 0 ∨ address + size ≤ Word.signedLimit := by
  rcases Nat.eq_zero_or_pos size with hzero | hpos
  · exact .inl hzero
  · have hlast : address + (size - 1) < Word.signedLimit := by
      apply h.sound.lt_signedLimit
      refine .inr ?_
      rw [mem_bytesAt]
      omega
    omega

theorem Supplies.ensures_trimEnds {raw total start size : Nat}
    (h : Supplies p out lent raw total) (htotal : total % pageSize = 0) (hstart : raw ≤ start)
    (hstop : start + size ≤ raw + total) (haligned : start % pageSize = 0)
    (hsize : size % pageSize = 0) :
    Action.Ensures (trimEnds raw total start size) p
      (fun _ p' => Passes p out p' ∧ Supplies p' out lent start size) Action.never := by
  have hraw := h.aligned
  obtain ⟨head, rfl⟩ : ∃ head, start = raw + head := ⟨start - raw, by omega⟩
  obtain ⟨tail, rfl⟩ : ∃ tail, total = head + (size + tail) := ⟨total - head - size, by omega⟩
  have hsub : Word.sub? (head + (size + tail) - head) size = some tail := by
    rw [Word.sub?_eq_some_iff]
    omega
  have hheadmod : head % pageSize = 0 := by
    simp only [pageSize] at hraw haligned ⊢
    omega
  have htailmod : tail % pageSize = 0 := by
    simp only [pageSize] at htotal hheadmod hsize ⊢
    omega
  -- When the head is given back, the other two parts are still out.
  obtain ⟨hmid, htailapart, hheadapart⟩ := disjoint_bytesAt_parts h.apart
  have hsound := h.sound
  rw [union_bytesAt_parts] at hsound
  simp only [trimEnds, Nat.add_sub_cancel_left, Action.ensures_bind]
  rw [show head + (size + tail) - head = size + tail by omega] at hsub
  rw [hsub, Action.ensures_checked_some]
  apply (hsound.ensures_unmapPart hheadapart hraw hheadmod).weaken
  rintro _ p₁ ⟨hpasses₁, hsound₁⟩
  -- When the tail is given back, the part to hand out is.
  apply (hsound₁.ensures_unmapPart htailapart (by
    simp only [pageSize] at haligned hsize ⊢
    omega) htailmod).weaken
  rintro _ p₂ ⟨hpasses₂, hsound₂⟩
  have hpasses := (hpasses₁.mono Set.subset_union_left).trans hpasses₂
  refine ⟨hpasses.mono Set.subset_union_left, hsound₂, hmid, haligned, fun x hx => ?_⟩
  rw [hpasses.byteAt x (.inr hx)]
  exact h.zero x (bytesAt_subset (by omega) (by omega) hx)

theorem Supplies.ensures_alignUp {raw size align : Nat}
    (halign : Word.isPowerOfTwo align = true) (hpage : pageSize ∣ align)
    (h : Supplies p out lent raw (size + align)) (hsize : size % pageSize = 0) :
    Action.Ensures (do
        let start ← Action.checked (Word.alignUp? raw align)
        trimEnds raw (size + align) start size
        return some start) p
      (fun address? p' => Obtains p out lent lent size address? p' ∧
        ∀ a, address? = some a → a % align = 0) Action.never := by
  have hlast := h.stop_le
  have hpos := Word.pos_of_isPowerOfTwo halign
  obtain ⟨start, hstart, hle, hlt, hmod⟩ := Word.exists_alignUp halign
    (show raw + (align - 1) < Word.limit by
      simp only [Word.signedLimit, Word.limit] at hlast ⊢
      omega)
  have haligned : start % pageSize = 0 :=
    Nat.mod_eq_zero_of_dvd (Nat.dvd_trans hpage (Nat.dvd_of_mod_eq_zero hmod))
  have htotal : (size + align) % pageSize = 0 :=
    Nat.mod_eq_zero_of_dvd (Nat.dvd_add (Nat.dvd_of_mod_eq_zero hsize) hpage)
  simp only [hstart, Action.ensures_bind, Action.ensures_checked_some, Action.ensures_pure]
  apply (h.ensures_trimEnds htotal hle (by omega) haligned hsize).weaken
  rintro _ p' ⟨hpasses, hsupplies⟩
  refine ⟨⟨hpasses, hsupplies⟩, ?_⟩
  rintro a ⟨⟩
  exact hmod

/-! ## Huge pages -/

theorem Sound.ensures_mapAligned (h : Sound p out lent) {size align : Nat}
    (halign : Word.isPowerOfTwo align = true) (hpage : pageSize ∣ align)
    (hsize : size % pageSize = 0) :
    Action.Ensures (mapAligned size align) p
      (fun address? p' => Obtains p out lent lent size address? p' ∧
        ∀ a, address? = some a → a % align = 0) Action.never := by
  unfold mapAligned
  cases htotal : Word.add? size align with
  | none => exact .answer ⟨⟨Passes.refl p out, h⟩, fun a ha => absurd ha (by simp)⟩
  | some total =>
      obtain ⟨rfl, -⟩ := Word.add?_eq_some_iff.1 htotal
      simp only [Action.ensures_bind]
      apply (h.ensures_map 0 (Nat.mod_eq_zero_of_dvd
        (Nat.dvd_add (Nat.dvd_of_mod_eq_zero hsize) hpage))).weaken
      intro raw? p₁ hraw
      cases raw? with
      | none => exact .answer ⟨hraw, fun a ha => absurd ha (by simp)⟩
      | some raw =>
          obtain ⟨hpasses, hsupplies⟩ := hraw
          apply (hsupplies.ensures_alignUp halign hpage hsize).weaken
          rintro address? p' ⟨hobtains, hmod⟩
          exact ⟨hobtains.of_passes hpasses, hmod⟩

theorem Supplies.ensures_realign {got size : Nat} (h : Supplies p out lent got size)
    (hsize : size % pageSize = 0) :
    Action.Ensures (realign got size) p
      (fun address? p' => Obtains p out lent lent size address? p' ∧
        ∀ a, address? = some a → a % hugePageSize = 0) Action.never := by
  have halign := isPowerOfTwo_hugePageSize
  have hpage : pageSize ∣ hugePageSize := by decide
  unfold realign
  rw [Action.ensures_ite]
  split
  · rename_i hmod
    refine .answer ⟨⟨Passes.refl p out, h⟩, ?_⟩
    rintro a ⟨⟩
    exact hmod
  · simp only [Action.ensures_bind]
    apply (h.sound.ensures_unmap h.apart h.aligned hsize).weaken
    rintro _ p₁ ⟨hpasses, hsound⟩
    apply (hsound.ensures_mapAligned halign hpage hsize).weaken
    rintro address? p' ⟨hobtains, hmod⟩
    exact ⟨hobtains.of_passes hpasses, hmod⟩

/-- Advice changes nothing unless it is to drop content. -/
theorem Supplies.ensures_adviseHuge {address size : Nat} (h : Supplies p out lent address size) :
    Action.Ensures (advise address size .huge) p
      (fun _ p' => Passes p out p' ∧ Supplies p' out lent address size) Action.never := by
  simp only [advise, ensures_call]
  obtain ⟨hholding, hpasses⟩ := Holding.advises h.sound False address size .huge h.apart
    (Set.empty_subset _)
  exact ⟨hpasses, hholding, h.apart, h.aligned, h.zero⟩

theorem Supplies.congr {address size : Nat} (h : Supplies p out lent address size)
    (hkernel : p'.kernel = p.kernel) (hcache : p'.supplier.cache = p.supplier.cache)
    (hregion : p'.supplier.region.stop ≤ arenaBase)
    (hcounted : p'.supplier.liveBytes = p.supplier.liveBytes) :
    Supplies p' out lent address size where
  sound := h.sound.congr hkernel hcache hregion (hcounted.trans h.sound.counted)
  apart := h.apart
  aligned := h.aligned
  zero := by
    unfold byteAt
    rw [hkernel]
    exact h.zero

theorem Supplies.ensures_recordHuge {address size : Nat} (hpos : 0 < size)
    (hsize : size % hugePageSize = 0) (haddress : address % hugePageSize = 0)
    (h : Supplies p out lent address size) :
    Action.Ensures (recordHuge address size) p
      (fun _ p' => Passes p out p' ∧ Supplies p' out lent address size) Action.never := by
  have hstop : Word.add? address size = some (address + size) := by
    have hlt := h.stop_le
    rw [Word.add?_eq_some_iff]
    refine ⟨rfl, ?_⟩
    simp only [Word.signedLimit, Word.limit] at hlt ⊢
    omega
  simp only [recordHuge, hstop, Action.ensures_bind, Action.ensures_checked_some, ensures_update,
    Action.ensures_onlyIf]
  have hnoted : Supplies { p with supplier := { p.supplier with
      hint := p.supplier.hint.record address (address + size) } } out lent address size :=
    h.congr rfl rfl h.sound.region rfl
  have haligned : (p.supplier.hint.record address (address + size)).Aligned :=
    ⟨haddress, Nat.mod_eq_zero_of_dvd
      (Nat.dvd_add (Nat.dvd_of_mod_eq_zero haddress) (Nat.dvd_of_mod_eq_zero hsize))⟩
  split
  · apply hnoted.ensures_adviseHuge.weaken
    rintro _ p' ⟨hpasses, hsupplies⟩
    exact ⟨hpasses.after rfl rfl (fun _ => id) (fun _ => haligned) rfl, hsupplies⟩
  · exact ⟨Passes.of_kernel rfl rfl (fun _ => id) (fun _ => haligned) rfl, hnoted⟩

/-- Whole huge pages are whole pages. -/
theorem mod_pageSize_of_huge {size : Nat} (hsize : size % hugePageSize = 0) :
    size % pageSize = 0 :=
  Nat.mod_eq_zero_of_dvd (Nat.dvd_trans (by decide) (Nat.dvd_of_mod_eq_zero hsize))

theorem Sound.ensures_mapHuge (h : Sound p out lent) {size : Nat} (hpos : 0 < size)
    (hsize : size % hugePageSize = 0) :
    Action.Ensures (mapHuge size) p
      (fun address? p' => Obtains p out lent lent size address? p' ∧
        ∀ a, address? = some a → a % hugePageSize = 0) Action.never := by
  have hpages := mod_pageSize_of_huge hsize
  simp only [mapHuge, Action.ensures_bind, Action.ensures_get]
  apply (h.ensures_map _ hpages).weaken
  intro got? p₁ hgot
  cases got? with
  | none => exact .answer ⟨hgot, fun a ha => absurd ha (by simp)⟩
  | some got =>
      obtain ⟨hpasses₁, hsupplies₁⟩ := hgot
      simp only [Action.ensures_bind]
      apply (hsupplies₁.ensures_realign hpages).weaken
      rintro address? p₂ ⟨hobtains, hmod⟩
      cases address? with
      | none => exact .answer ⟨hobtains.of_passes hpasses₁, hmod⟩
      | some address =>
          obtain ⟨hpasses₂, hsupplies₂⟩ := hobtains
          simp only [Action.ensures_bind, Action.ensures_pure]
          apply (hsupplies₂.ensures_recordHuge hpos hsize (hmod address rfl)).weaken
          rintro _ p' ⟨hpasses₃, hsupplies₃⟩
          exact ⟨⟨(hpasses₁.trans hpasses₂).trans hpasses₃, hsupplies₃⟩, hmod⟩

/-! ## The program break -/

/-- The break was moved up, and where it is now was put on record. -/
theorem Holding.passes_raised {pending : List Range} {len : Nat} (h : Holding p out lent pending)
    (p' : Paging) (hpos : 0 < len)
    (hsome : (p.kernel.moveBreak len).1 = some p.kernel.programBreak)
    (hgrows : p.kernel.Grows (p.kernel.moveBreak len).2 (bytesAt p.kernel.programBreak len))
    (hkernel : p'.kernel = (p.kernel.moveBreak len).2)
    (hconfig : p'.supplier.config = p.supplier.config)
    (hcache : p'.supplier.cache = p.supplier.cache) (hhint : p'.supplier.hint = p.supplier.hint)
    (hstop : p'.supplier.region.stop = p.kernel.programBreak + len)
    (hfloor : p'.supplier.region.floor ≠ 0) : Passes p out p' := by
  have hcalls := p.kernel.calls_moveBreak (show (len : Int) ≠ 0 by omega)
  rw [hsome] at hcalls
  have hmakes : p.Makes out False (.moveBreak len (some p.kernel.programBreak))
      { p with kernel := (p.kernel.moveBreak len).2 } :=
    Makes.of_grows hgrows hcalls (Call.gained_moveBreak _ _) (Call.lowered_moveBreak_up _ _)
  refine ⟨hconfig, fun x hx => ?_, .quiet (.call .start hmakes) ?_ ?_, ⟨?_, ?_⟩,
    fun _ hcoalesced => ?_, ?_⟩
  · rw [byteAt, hkernel]
    exact hgrows.kept x (h.out_used hx)
  · rw [hkernel]
  · rw [hkernel]
  · -- What was in use lay below the old break, and the new bytes end at the new one.
    intro x hx hlow _
    rw [hkernel, hgrows.inUse_eq] at hx
    rw [hstop]
    rcases hx with hold | hnew
    · exact Nat.lt_of_lt_of_le (Kernel.lt_programBreak hold hlow) (Nat.le_add_right _ _)
    · exact (mem_bytesAt.1 hnew).2
  · exact fun _ hzero => absurd hzero hfloor
  · rw [cached, hcache]
    exact hcoalesced
  · rw [hhint]
    exact id

/-- A move of the break that the kernel refused. -/
theorem Holding.passes_refused {pending : List Range} {sinks : Prop} {delta : Int}
    (h : Holding p out lent pending) (hdelta : delta ≠ 0)
    (hnone : (p.kernel.moveBreak delta).1 = none)
    (hgrows : p.kernel.Grows (p.kernel.moveBreak delta).2 ∅) :
    Holding { p with kernel := (p.kernel.moveBreak delta).2 } out lent pending ∧
      Passes p out { p with kernel := (p.kernel.moveBreak delta).2 } sinks := by
  have hcalls := p.kernel.calls_moveBreak hdelta
  rw [hnone] at hcalls
  exact h.grows_nothing hgrows hcalls rfl rfl

/-- The break is moved up over the bytes to hand out and the `pad` bytes in front of them,
which belong to nobody. -/
theorem Sound.ensures_raiseBreak (h : Sound p out lent) {pad size total : Nat} (hpos : 0 < size)
    (htotal : total = size + pad) (hbreak : p.kernel.programBreak ≠ 0)
    (haligned : (p.kernel.programBreak + pad) % pageSize = 0) (hpad : pad < pageSize) :
    Action.Ensures (raiseBreak pad size total) p (Obtains p out lent lent size)
      Action.never := by
  unfold raiseBreak
  simp only [moveBreak, Action.ensures_bind, ensures_call]
  rcases h.kernel.raiseBreak (show 0 < total by omega) with
    ⟨hnone, hgrows⟩ | ⟨hsome, hgrows, hlt, hzero⟩
  · rw [hnone]
    exact .answer (Holding.passes_refused h (by omega) hnone hgrows).symm
  · rw [hsome]
    have hstart : Word.add? p.kernel.programBreak pad = some (p.kernel.programBreak + pad) :=
      Word.add?_of_lt_arenaBase (by omega)
    have hstop : Word.add? (p.kernel.programBreak + pad) size =
        some (p.kernel.programBreak + pad + size) :=
      Word.add?_of_lt_arenaBase (by omega)
    -- The padding came into use too, but it lies below the arena.
    obtain ⟨hholding, hapart⟩ := h.grows hgrows
      (bytesAt_subset (show p.kernel.programBreak ≤ p.kernel.programBreak + pad by omega)
        (show p.kernel.programBreak + pad + size ≤ p.kernel.programBreak + total by omega))
      (by
        intro x hx _
        rw [mem_bytesAt] at hx
        omega)
    simp only [hstart, hstop, recordRaised, Action.ensures_bind, Action.ensures_checked_some,
      ensures_update, Action.ensures_pure]
    refine ⟨Holding.passes_raised h _ (by omega) hsome hgrows rfl rfl rfl rfl ?_ ?_, ?_, hapart,
      haligned,
      ?_⟩
    · show p.kernel.programBreak + pad + size = p.kernel.programBreak + total
      omega
    · -- The floor stays, or is where the new memory starts.
      show (if p.supplier.region.floor = 0 then _ else _) ≠ 0
      split
      · omega
      · assumption
    · have hregion : p.kernel.programBreak + pad + size ≤ arenaBase := by omega
      exact Holding.congr hholding rfl rfl hregion h.counted
    · intro x hx
      rw [mem_bytesAt] at hx
      apply hzero x (by omega)
      simp only [pagesFor, pageSize] at haligned hpad ⊢
      omega

theorem Sound.ensures_growBreak (h : Sound p out lent) {size : Nat} (hpos : 0 < size) :
    Action.Ensures (growBreak size) p (Obtains p out lent lent size) Action.never := by
  have hnothing : Obtains p out lent lent size none p := ⟨Passes.refl p out, h⟩
  -- The break lies below the arena, so it can be rounded up.
  have hbound : p.kernel.programBreak < arenaBase := by
    unfold Kernel.programBreak
    cases hbreak : p.kernel.programBreak? with
    | none => simp [arenaBase]
    | some b =>
        obtain ⟨_, _, hstop, hgap⟩ := h.kernel.break_inside b hbreak
        exact Nat.lt_of_le_of_lt hstop hgap
  simp only [growBreak, Action.ensures_bind, ensures_programBreak, Action.ensures_ite]
  split
  · exact .answer hnothing
  have hfits : p.kernel.programBreak + (pageSize - 1) < Word.limit := by
    simp only [arenaBase, pageSize, Word.limit] at hbound ⊢
    omega
  obtain ⟨aligned, haligned, hle, hlt, hmod⟩ :=
    @Word.exists_alignUp p.kernel.programBreak pageSize isPowerOfTwo_pageSize hfits
  simp only [haligned, Action.ensures_checked_some]
  cases htotal : Word.add? size (aligned - p.kernel.programBreak) with
  | none => exact .answer hnothing
  | some total =>
      obtain ⟨rfl, -⟩ := Word.add?_eq_some_iff.1 htotal
      simp only [Action.ensures_ite]
      split
      · exact .answer hnothing
      · apply h.ensures_raiseBreak hpos rfl ‹p.kernel.programBreak ≠ 0›
        · rw [Nat.add_sub_cancel' hle]
          exact hmod
        · omega

/-! ## Any way -/

theorem Sound.ensures_mapFresh (h : Sound p out lent) {size : Nat} (hpos : 0 < size)
    (hsize : size % pageSize = 0) :
    Action.Ensures (mapFresh size) p (Obtains p out lent lent size) Action.never := by
  simp only [mapFresh, Action.ensures_bind, Action.ensures_get, Action.ensures_ite]
  split
  · rename_i hwants
    apply (h.ensures_mapHuge hpos (PageSupplier.huge_of_wants hwants).2).weaken
    exact fun _ _ hmapped => hmapped.1
  · exact h.ensures_map 0 hsize

theorem Sound.ensures_tryBreak (h : Sound p out lent) {size : Nat} (hpos : 0 < size) :
    Action.Ensures (tryBreak size) p (Obtains p out lent lent size) Action.never := by
  simp only [tryBreak, Action.ensures_bind, Action.ensures_get, Action.ensures_ite]
  split
  · exact h.ensures_growBreak hpos
  · exact .answer ⟨Passes.refl p out, h⟩

theorem Sound.ensures_obtain (h : Sound p out lent) {size : Nat} (hpos : 0 < size)
    (hsize : size % pageSize = 0) :
    Action.Ensures (Paging.obtain size) p (Obtains p out lent lent size) Action.never := by
  simp only [Paging.obtain, Action.ensures_bind]
  apply (h.ensures_tryBreak hpos).weaken
  intro address? p₁ hobtains
  cases address? with
  | some address => exact .answer hobtains
  | none =>
      obtain ⟨hpasses, hsound⟩ := hobtains
      apply (hsound.ensures_mapFresh hpos hsize).weaken
      intro address? p' hmapped
      exact hmapped.of_passes hpasses

end Paging
end PagedHeap
