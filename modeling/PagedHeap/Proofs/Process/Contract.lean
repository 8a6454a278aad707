import PagedHeap.Proofs.Process.Separation

/-!
# What the client may rely on

An allocation is aligned as was asked for, and to the smallest block in any case.  Its usable size
follows from the size and the alignment that were asked for last, whatever has become of it before,
and is that of a block exactly where the pointer is not that of a page.
-/

namespace PagedHeap
namespace Heap

/-- The allocation at `x` is what a request of `size` bytes is to get.  One size alone will do. -/
structure Suits (h : Heap) (size : Nat) (opts : AllocOptions) (x : Nat) : Prop where
  aligned : opts.align = 0 ∨ opts.align ∣ x
  unit : minSize ∣ x
  sized : ∃ n, allocatedSize (some x) h = .ok n h ∧ (∀ m, opts.Yields size m ↔ m = n) ∧
    (pageOffset x = 0 ↔ smallLimit < n)

/-- The usable bytes of the allocation at `x` are zero. -/
def Clear (h : Heap) (x : Nat) : Prop :=
  ∀ n, allocatedSize (some x) h = .ok n h → ∀ y ∈ bytesAt x n, h.kernel.memory.byteAt y = 0

variable {h : Heap} {spans : Place → Category → List Span} {live foreign : Set Nat}
  {x n size : Nat} {opts : AllocOptions}

/-- The smallest block is a measure for all pointers. -/
theorem Occupies.minSize_dvd (hn : h.Occupies x n) : minSize ∣ x := by
  rcases hn with ⟨hoffset, -⟩ | ⟨c, hblock, -⟩
  · have hpage : minSize ∣ pageSize := by decide
    have hmod : x % pageSize = 0 := hoffset
    exact Nat.dvd_trans hpage (Nat.dvd_of_mod_eq_zero hmod)
  · exact Nat.dvd_trans c.minSize_dvd_blockSize hblock.blockSize_dvd

/-- The sizes of large allocations are above those of all blocks. -/
theorem Sound.offset_eq_zero_iff (hsound : h.Sound spans live foreign) (hn : h.Occupies x n) :
    pageOffset x = 0 ↔ smallLimit < n := by
  rcases hn with ⟨hoffset, hsize⟩ | ⟨c, hblock, rfl⟩
  · have hpos := hsound.large.spread.size_pos x n hsize
    have hmod := hsound.large.spread.size_mod x n hsize
    have hpage := Nat.le_of_dvd hpos (Nat.dvd_of_mod_eq_zero hmod)
    exact iff_of_true hoffset (Nat.lt_of_lt_of_le (by decide) hpage)
  · exact iff_of_false hblock.offset_ne (Nat.not_lt.2 c.blockSize_le_smallLimit)

theorem Sound.suits (hsound : h.Sound spans live foreign) (hn : h.Occupies x n)
    (hsized : opts.Yields size n) (hadmits : opts.Admits x) : h.Suits size opts x := by
  refine ⟨hadmits, hn.minSize_dvd, n, allocatedSize_eq hn, fun m => ⟨fun hm => ?_, fun hm => ?_⟩,
    hsound.offset_eq_zero_iff hn⟩
  · exact hm.unique hsized
  · rwa [hm]

theorem Occupies.clear (hn : h.Occupies x n)
    (hzero : ∀ y ∈ bytesAt x n, h.kernel.memory.byteAt y = 0) : h.Clear x := by
  intro m hm
  rw [(hn.eq_of_asked hm).1]
  exact hzero

theorem Sound.allocates_suitably (hsound : h.Sound spans live foreign) (t size : Nat)
    (opts : AllocOptions) :
    Action.Ensures (allocate t size opts) h
      (fun x? h' => ∀ x, x? = some x → h'.Suits size opts x ∧ (opts.zero = true → h'.Clear x))
      (fun e _ => h.Ends e) := by
  apply (hsound.ensures_allocate t size opts).imp
  intro x? h' hallocates x hx
  subst hx
  obtain ⟨n, spans', hgrants, hmeets, -⟩ := hallocates
  exact ⟨hgrants.sound.suits hgrants.occupies hmeets.sized hmeets.admits,
    fun hzero => hgrants.occupies.clear (hmeets.zero hzero)⟩

theorem Sound.reallocates_suitably (hsound : h.Sound spans live foreign) (t : Nat)
    {pointer? : Option Nat} (hpassed : ∀ x, pointer? = some x → x ∈ live) (size : Nat)
    (opts : AllocOptions) :
    Action.Ensures (reallocate t pointer? size opts) h
      (fun x? h' => ∀ x, x? = some x → h'.Suits size opts x) (fun e _ => h.Ends e) := by
  cases pointer? with
  | none =>
      exact (hsound.allocates_suitably t size opts).imp fun _ _ hpost x hx => (hpost x hx).1
  | some address =>
      have haddress := hpassed address rfl
      rcases Nat.eq_zero_or_pos size with rfl | hpos
      · apply (hsound.ensures_reallocate_zero t haddress opts).mono
        · intro x? h' hpost x hx
          rw [hpost.1] at hx
          cases hx
        · exact fun _ _ hends => .inl hends
      · obtain ⟨old, -, hold⟩ := hsound.occupies haddress
        apply (hsound.ensures_reallocate t haddress hold hpos opts).imp
        intro x? h' hresizes x hx
        subst hx
        obtain ⟨n, spans', hmoves⟩ := hresizes
        exact hmoves.sound.suits hmoves.occupies hmoves.sized hmoves.admits

end Heap

namespace Process

variable {p : Process}

/-- Whatever has happened in a process, what its client gets is what was asked for. -/
theorem Reachable.contract_kept (hreach : p.Reachable) (t size : Nat) (opts : AllocOptions) :
    Action.Ensures (Heap.allocate t size opts) p.heap
        (fun x? h => ∀ x, x? = some x → h.Suits size opts x ∧ (opts.zero = true → h.Clear x))
        (fun e _ => p.heap.Ends e) ∧
      ∀ pointer?, (∀ x, pointer? = some x → x ∈ p.live) →
        Action.Ensures (Heap.reallocate t pointer? size opts) p.heap
          (fun x? h => ∀ x, x? = some x → h.Suits size opts x) (fun e _ => p.heap.Ends e) := by
  obtain ⟨spans, foreign, horderly⟩ := hreach.orderly
  have hsound := horderly.sound
  exact ⟨hsound.allocates_suitably t size opts, fun pointer? hpassed =>
    hsound.reallocates_suitably t hpassed size opts⟩

/-- A range aligned to two pages is to become a block, and another thread asks for such a range. -/
theorem contract_kept_over_aligned : ∃ p : Process, p.Reachable ∧ 0x20000000a000 ∈ p.live ∧
    p.granted? 1 (.allocate 5000 { align := 8192, zero := true }) = some 0x200000008000 ∧
    p.granted? 0 (.reallocate (some 0x20000000a000) 100 { align := 64 }) = some 0x20000000c080 ∧
    Action.Ensures (Heap.allocate 1 5000 { align := 8192, zero := true }) p.heap
      (fun x? h => ∀ x, x? = some x →
        h.Suits 5000 { align := 8192, zero := true } x ∧ h.Clear x) (fun e _ => p.heap.Ends e) ∧
    Action.Ensures (Heap.reallocate 0 (some 0x20000000a000) 100 { align := 64 }) p.heap
      (fun x? h => ∀ x, x? = some x → h.Suits 100 { align := 64 } x)
      (fun e _ => p.heap.Ends e) := by
  have hboot : (new .standard (.boot 16 none)).Reachable := reachable_boot .standard (by decide)
  obtain ⟨p, hp⟩ : ∃ p, p = (new .standard (.boot 16 none)).serve 0 (.malloc 5000) := ⟨_, rfl⟩
  have hreach : p.Reachable := by
    rw [hp]
    exact hboot.serve (passed_malloc _ 5000)
  have hgranted : p.granted? 0 (.allocate 5000 { align := 8192, zero := true }) =
      some 0x20000000a000 := by
    rw [hp]
    decide +kernel
  have hreach' := hreach.serve (t := 0) (r := .allocate 5000 { align := 8192, zero := true })
    fun _ hsome => absurd hsome (by simp [HeapRequest.passed?])
  have hlive := mem_live_serve hgranted
  refine ⟨_, hreach', hlive, ?_, ?_, ?_,
    (hreach'.contract_kept 0 100 _).2 _ fun x hx => Option.some.inj hx ▸ hlive⟩
  · rw [hp]
    decide +kernel
  · rw [hp]
    decide +kernel
  · exact (hreach'.contract_kept 1 5000 { align := 8192, zero := true }).1.imp
      fun _ _ hpost x hx => ⟨(hpost x hx).1, (hpost x hx).2 rfl⟩

end Process
end PagedHeap
