import PagedHeap.Proofs.Heap.Checks
import PagedHeap.Proofs.Heap.Policy
import PagedHeap.Proofs.Process.Reallocation

/-!
# Zeros that are promised

Blocks come back from the client as they were left, and so do the ranges of large allocations.
Still, who asks for zeros gets zeros, as many as were asked for.  A slice that grows keeps its bytes
up to its old length, and all behind that are zero: those of the old allocation that were not part
of the slice go with it when it moves, and are cleared where they come to lie.

Only a lack of memory is in the way of that, and it changes nothing.
-/

namespace PagedHeap

open PagedHeap.Action

namespace Heap

/-- The client has at `x` an allocation of `n` bytes or more. -/
structure HasRoom (h : Heap) (x n : Nat) : Prop where
  held : ¬h.Free x
  sized : ∃ size, n ≤ size ∧ allocatedSize (some x) h = .ok size h

/-- The allocations of the client are as they were. -/
def LeavesAll (h : Heap) (live : Set Nat) (h' : Heap) : Prop :=
  ∀ x ∈ live, ∀ n, allocatedSize (some x) h = .ok n h → h.Leaves x n h'

/-- What comes of a request for `n` bytes of zeros: a new allocation, or the attempt found no
memory. -/
inductive Clears (h : Heap) (t : Nat) (live : Set Nat) (n : Nat) (opts : AllocOptions) :
    Option Nat → Heap → Prop where
  | cleared {x : Nat} {h' : Heap} (hfresh : x ∉ live) (hroom : h'.HasRoom x n)
      (hzero : ∀ y ∈ bytesAt x n, h'.kernel.memory.byteAt y = 0) :
      Clears h t live n opts (some x) h'
  | lacking {h₁ h' : Heap}
      (hattempt : tryAllocate t (servedSize n) opts h =
        .ok (.error (.outOfMemory (servedSize n))) h₁)
      (hleaves : h.LeavesAll live h') : Clears h t live n opts none h'

/-- What comes of growing a slice at `x`. -/
inductive Grows (h : Heap) (live : Set Nat) (x : Nat) (old new : Layout) :
    Option Slice → Heap → Prop where
  | grown {slice : Slice} {h' : Heap} (hlen : slice.len = new.size)
      (hroom : h'.HasRoom slice.address new.size)
      (hfront : ∀ i < old.size, h'.kernel.memory.byteAt (slice.address + i) =
        h.kernel.memory.byteAt (x + i))
      (hzero : ∀ i, old.size ≤ i → i < new.size →
        h'.kernel.memory.byteAt (slice.address + i) = 0) :
      Grows h live x old new (some slice) h'
  | lacking {h' : Heap} (htold : h.Heeds none h') (hleaves : h.LeavesAll live h') :
      Grows h live x old new none h'

variable {h h' h₁ : Heap} {spans spans' : Place → Category → List Span} {live foreign : Set Nat}
  {t x n size moved : Nat} {opts : AllocOptions} {old new : Layout}

theorem Sound.hasRoom (hsound : h.Sound spans live foreign) (hx : x ∈ live) (hn : h.Occupies x size)
    (hle : n ≤ size) : h.HasRoom x n :=
  ⟨hsound.not_free hx, size, hle, allocatedSize_eq hn⟩

theorem Rests.leavesAll (hrests : h.Rests spans live foreign h')
    (hsound : h.Sound spans live foreign) : h.LeavesAll live h' :=
  fun _ hx _ hasked => (hrests.steady hsound).leaves hx (occupies_of_allocatedSize hasked)

/-! ## Requests for zeros -/

theorem Grants.clears (hgrants : h.Grants spans live foreign x size h' spans')
    (hmeets : h'.Meets (servedSize n) opts x size) (hzero : opts.zero = true) :
    h.Clears t live n opts (some x) h' := by
  have hle : n ≤ size := (le_servedSize n).trans hmeets.size_le
  refine .cleared hgrants.fresh
    (hgrants.sound.hasRoom (Set.mem_insert x live) hgrants.occupies hle) fun y hy => ?_
  exact hmeets.zero hzero y (bytesAt_subset (Nat.le_refl x) (Nat.add_le_add_left hle x) hy)

/-- An attempt to get zeros succeeds, or it fails for lack of memory, whatever is told of that. -/
theorem Sound.tryAllocate_clears (hsound : h.Sound spans live foreign) (t n : Nat)
    (hzero : opts.zero = true) (halign : Word.isPowerOfTwo opts.alignment = true) :
    Ensures (tryAllocate t (servedSize n) opts) h
      (fun result h₁ =>
        (∃ x, result = .ok (some x) ∧ h.Clears t live n opts (some x) h₁) ∨
        ∃ error, result = .error error ∧ h.Rests spans live foreign h₁ ∧
          ∀ h', h.Rests spans live foreign h' → h.Clears t live n opts none h')
      (fun e _ => h.LockEnds e) := by
  apply ((hsound.ensures_tryAllocate t (servedSize n) opts).and
    (ensures_tryAllocate_attempted t (servedSize n) opts h)).with_run.mono
  · rintro result h₁ ⟨hrun, htries, -, hattempted⟩
    cases hattempted with
    | got =>
        obtain ⟨size, spans', hgrants, hmeets, -⟩ := htries
        exact .inl ⟨_, rfl, hgrants.clears hmeets hzero⟩
    | empty hempty =>
        -- Nobody gets an empty block, so no attempt is for nothing.
        exact absurd hempty (Nat.pos_iff_ne_zero.1 (servedSize_pos n))
    | misaligned hmisaligned =>
        rw [halign] at hmisaligned
        cases hmisaligned
    | lacking =>
        exact .inr ⟨_, rfl, htries, fun h' hrests => .lacking hrun (hrests.leavesAll hsound)⟩
  · exact fun _ _ hends => hends.1

theorem Sound.allocate_clears (hsound : h.Sound spans live foreign) (t n : Nat)
    (hzero : opts.zero = true) (halign : Word.isPowerOfTwo opts.alignment = true) :
    Ensures (allocate t (servedSize n) opts) h (h.Clears t live n opts) (fun e _ => h.Ends e) := by
  rw [allocate, ensures_bind]
  apply (hsound.tryAllocate_clears t n hzero halign).mono
  · rintro result h₁ (⟨x, rfl, hclears⟩ | ⟨error, rfl, hrests, hnone⟩)
    · exact .answer hclears
    · apply (ensures_fail h₁ error).mono
      · rintro got? h' ⟨rfl, hnotes⟩
        exact hnone h' (hrests.notes hnotes)
      · exact fun e _ hends => Ends.of_rules hrests.rules (.inr hends)
  · exact fun _ _ hends => .inl hends

theorem Sound.allocateSlice_clears (hsound : h.Sound spans live foreign) (t : Nat) (l : Layout) :
    Ensures (allocateSlice t l true) h
      (fun slice? h' => (∀ slice, slice? = some slice → slice.len = l.size) ∧
        h.Clears t live l.size (l.options true) (slice?.map Slice.address) h')
      (fun e _ => h.LockEnds e) := by
  rw [allocateSlice, ensures_bind]
  apply (hsound.tryAllocate_clears t l.size rfl (l.isPowerOfTwo_alignment true)).imp
  rintro result h₁ (⟨x, rfl, hclears⟩ | ⟨error, rfl, hrests, hnone⟩)
  · refine .answer ⟨fun slice hslice => ?_, hclears⟩
    rw [← Option.some.inj hslice]
  · exact .answer ⟨fun slice hslice => absurd hslice (by simp), hnone h₁ hrests⟩

/-! ## Slices that grow -/

/-- The allocation has become large enough, and what is behind the old slice is cleared. -/
theorem Moves.grows (hmoves : h.Moves spans live foreign x n (servedSize new.size) opts moved size
      h₁ spans') (hold : old.size ≤ n) (hle : old.size ≤ new.size) :
    h.Grows live x old new (some ⟨moved, new.size⟩)
      (h₁.withMemory
        (h₁.kernel.memory.clear (moved + old.size) (new.size - old.size))) := by
  -- What is cleared is part of the allocation, wherever that is now: the heap stays sound.
  have hself : moved ∈ insert moved (live \ {x}) := Set.mem_insert moved _
  have hserved := le_servedSize new.size
  have hroom : new.size ≤ size := hserved.trans hmoves.size_le
  have hgone : bytesAt (moved + old.size) (new.size - old.size) ⊆
      h₁.bodies (insert moved (live \ {x})) := by
    intro y hy
    refine ⟨moved, hself, ?_⟩
    rw [hmoves.occupies.body_eq]
    exact bytesAt_subset (by omega) (by omega) hy
  have hsame : ∀ y, y ∉ bytesAt (moved + old.size) (new.size - old.size) →
      (h₁.kernel.memory.clear (moved + old.size) (new.size - old.size)).byteAt y =
        h₁.kernel.memory.byteAt y :=
    fun y hy => Memory.byteAt_clear_outside hy
  refine .grown rfl ((hmoves.sound.withMemory hgone hsame).hasRoom hself
    (hmoves.sound.occupies_withMemory hgone hsame hself hmoves.occupies) hroom)
    (fun i hi => ?_) fun i hge hlt => ?_
  · have hnot : moved + i ∉ bytesAt (moved + old.size) (new.size - old.size) := by
      rw [mem_bytesAt]
      omega
    exact (hsame _ hnot).trans (hmoves.front i (by omega))
  · have hin : moved + i ∈ bytesAt (moved + old.size) (new.size - old.size) := by
      rw [mem_bytesAt]
      omega
    exact Memory.byteAt_clear_inside hin

theorem Sound.growSliceZeroed_grows (hsound : h.Sound spans live foreign) (t : Nat) (hx : x ∈ live)
    (hold : h.HasRoom x old.size) (hle : old.size ≤ new.size) :
    Ensures (growSliceZeroed t (some x) old new) h (h.Grows live x old new)
      (fun e _ => h.Ends e) := by
  obtain ⟨-, n, hwithin, hasked⟩ := hold
  have hpos : 0 < servedSize new.size := servedSize_pos new.size
  have hpassed : ∀ y, some x = some y → y ∈ live := fun y heq => Option.some.inj heq ▸ hx
  -- The slice does not shrink, so the difference of the sizes is no way to end the process.
  have hadded : Word.sub? new.size old.size = some (new.size - old.size) :=
    Word.sub?_eq_some_iff.2 ⟨hle, rfl⟩
  rw [growSliceZeroed, resizeSlice, ensures_bind, ensures_bind]
  apply ((hsound.ensures_reallocate t hx (occupies_of_allocatedSize hasked) hpos
    (new.options false)).and (hsound.reallocate_heeds hpassed hpos
      (new.isPowerOfTwo_alignment false) t)).mono
  · rintro got? h₁ ⟨hresizes, hheeds⟩
    cases got? with
    | none =>
        have hrests : h.Rests spans live foreign h₁ := hresizes
        exact .answer (.answer (.lacking hheeds (hrests.leavesAll hsound)))
    | some moved =>
        obtain ⟨size, spans', hmoves⟩ := hresizes
        refine .answer ?_
        simp only [hadded, ensures_bind, ensures_checked_some, ensures_zero]
        exact .answer (hmoves.grows hwithin hle)
  · exact fun _ _ hends => hends.1

end Heap

namespace Process

/-- The entry points that promise zeros keep to it. -/
structure Zeroes (p : Process) (t : Nat) : Prop where
  allocateLayout : ∀ l, Ensures (Heap.allocateLayout t l true) p.heap
    (p.heap.Clears t p.live l.size (l.options true)) (fun e _ => p.heap.Ends e)
  allocateSlice : ∀ l, Ensures (Heap.allocateSlice t l true) p.heap
    (fun slice? h => (∀ slice, slice? = some slice → slice.len = l.size) ∧
      p.heap.Clears t p.live l.size (l.options true) (slice?.map Slice.address) h)
    (fun e _ => p.heap.LockEnds e)
  calloc : ∀ count size, count * size < Word.limit →
    Ensures (Heap.calloc t count size) p.heap
      (p.heap.Clears t p.live (count * size) { zero := true }) (fun e _ => p.heap.Ends e)
  growSliceZeroed : ∀ x old new, x ∈ p.live → p.heap.HasRoom x old.size → old.size ≤ new.size →
    Ensures (Heap.growSliceZeroed t (some x) old new) p.heap (p.heap.Grows p.live x old new)
      (fun e _ => p.heap.Ends e)

variable {p : Process}

/-- Whatever has happened in a process, and whatever its client has left in memory, zeros that are
promised are there. -/
theorem Reachable.zeroes_promised (hreach : p.Reachable) (t : Nat) : p.Zeroes t := by
  obtain ⟨spans, foreign, horderly⟩ := hreach.orderly
  have hsound := horderly.sound
  refine ⟨fun l => hsound.allocate_clears t l.size rfl (l.isPowerOfTwo_alignment true),
    fun l => hsound.allocateSlice_clears t l, fun count size htotal => ?_,
    fun x old new hx hold hle => hsound.growSliceZeroed_grows t hx hold hle⟩
  have hproduct : Word.mul? count size = some (count * size) :=
    Word.mul?_eq_some_iff.2 ⟨rfl, htotal⟩
  simp only [Heap.calloc, hproduct]
  exact hsound.allocate_clears t (count * size) rfl (by decide)

/-! ## Memory that is not zero -/

/-- The client stores a byte all over an allocation of `n` bytes. -/
@[irreducible] def overwrite (x n : Nat) (byte : UInt8) (p : Process) : Process :=
  p.next (p.heap.withMemory (p.heap.kernel.memory.fill x n byte)) p.live p.loans

@[simp] theorem live_overwrite (x n : Nat) (byte : UInt8) : (p.overwrite x n byte).live = p.live := by
  rw [overwrite, next]

theorem Reachable.overwrite {x n : Nat} (hreach : p.Reachable) (hx : x ∈ p.live)
    (hn : p.heap.Occupies x n) (byte : UInt8) : (p.overwrite x n byte).Reachable := by
  rw [Process.overwrite]
  refine hreach.step (.store fun y hy => ?_)
  rw [Memory.byteAt_fill, if_neg]
  intro hin
  refine hy ⟨x, hx, ?_⟩
  rwa [hn.body_eq]

/-- The client has a block of 128 bytes, and there is no zero in it. -/
@[irreducible] def smeared : Process :=
  ((new .standard (.boot 8 none)).serve 0 (.malloc 100)).overwrite 0x200000007080 128 0xff

theorem reachable_smeared : smeared.Reachable := by
  rw [smeared]
  have hboot : (new .standard (.boot 8 none)).Reachable := reachable_boot .standard (by decide)
  apply (hboot.serve (passed_malloc _ 100)).overwrite (mem_live_serve (by decide +kernel))
  exact .inr ⟨3, ⟨by decide +kernel, by decide, by decide⟩, rfl⟩

theorem mem_live_smeared : 0x200000007080 ∈ smeared.live := by
  rw [smeared, live_overwrite]
  exact mem_live_serve (by decide +kernel)

theorem occupies_smeared : smeared.heap.Occupies 0x200000007080 128 :=
  .inr ⟨3, ⟨by decide +kernel, by decide, by decide⟩, rfl⟩

/-- The block has been freed as it was. -/
@[irreducible] def discarded : Process := smeared.serve 0 (.reclaim (some 0x200000007080))

theorem reachable_discarded : discarded.Reachable := by
  rw [discarded]
  apply Reachable.serve reachable_smeared
  rintro x ⟨⟩
  exact mem_live_smeared

/-- The first twenty bytes of the block become a slice of five thousand, which has to move; and
where the block is freed it comes back for an array of zeros. -/
theorem zeroes_promised_smeared : ∃ slice h h',
    smeared.heap.kernel.memory.byteAt 0x2000000070e4 = 0xff ∧
    Heap.growSliceZeroed 0 (some 0x200000007080) ⟨20, 8, by decide⟩ ⟨5000, 8, by decide⟩
      smeared.heap = .ok (some slice) h ∧
    smeared.heap.Grows smeared.live 0x200000007080 ⟨20, 8, by decide⟩ ⟨5000, 8, by decide⟩
      (some slice) h ∧
    discarded.heap.kernel.memory.byteAt 0x2000000070e4 = 0xff ∧
    Heap.calloc 0 25 4 discarded.heap = .ok (some 0x200000007080) h' ∧
    discarded.heap.Clears 0 discarded.live 100 { zero := true } (some 0x200000007080) h' := by
  have hgrown : Ensures (Heap.growSliceZeroed 0 (some 0x200000007080) ⟨20, 8, by decide⟩
      ⟨5000, 8, by decide⟩) smeared.heap (fun slice? _ => slice?.isSome = true) never := by
    decide +kernel
  have hgranted : Ensures (Heap.calloc 0 25 4) discarded.heap
      (fun got? _ => got? = some 0x200000007080) never := by
    decide +kernel
  obtain ⟨slice?, h, hrun, hsome⟩ := hgrown.exists_ok
  obtain ⟨slice, rfl⟩ := Option.isSome_iff_exists.1 hsome
  obtain ⟨got?, h', hrun', rfl⟩ := hgranted.exists_ok
  obtain ⟨spans, foreign, horderly⟩ := reachable_smeared.orderly
  have hroom : smeared.heap.HasRoom 0x200000007080 20 :=
    horderly.sound.hasRoom mem_live_smeared occupies_smeared (by decide)
  have hgrows := (reachable_smeared.zeroes_promised 0).growSliceZeroed 0x200000007080
    ⟨20, 8, by decide⟩ ⟨5000, 8, by decide⟩ mem_live_smeared hroom (by decide)
  have hclears := (reachable_discarded.zeroes_promised 0).calloc 25 4 (by decide)
  exact ⟨slice, h, h', by decide +kernel, hrun, hgrows.of_ok hrun, by decide +kernel, hrun',
    hclears.of_ok hrun'⟩

end Process
end PagedHeap
