import PagedHeap.Proofs.Process.Separation

/-!
# Resizing in a process

Whatever has happened in a process, an allocation of its client can be resized, and then it is
behind the pointer that comes back, as large and as aligned as was asked for, and with its
content.  If no pointer comes back then nothing has happened to it.
-/

namespace PagedHeap
namespace Heap

/-- The pointer is free: its block is in a cache, or it is none of a large allocation. -/
def Free (h : Heap) (x : Nat) : Prop := h.Cached x ∨ pageOffset x = 0 ∧ h.table.get? x = none

/-- The allocation at `x`, of `old` bytes, is now at `got`, and has `size` bytes or more. -/
structure Replaces (h : Heap) (x old size : Nat) (opts : AllocOptions) (got : Nat) (h' : Heap) :
    Prop where
  front : ∀ i < min old size, h'.kernel.memory.byteAt (got + i) = h.kernel.memory.byteAt (x + i)
  aligned : opts.align = 0 ∨ opts.align ∣ got
  sized : ∃ n, size ≤ n ∧ allocatedSize (some got) h' = .ok n h'
  zeroed : opts.zero = true → ∀ i, old ≤ i → i < size → h'.kernel.memory.byteAt (got + i) = 0
  held : ¬h'.Free got
  freed : got ≠ x → h'.Free x

/-- The allocation at `x`, of `old` bytes, is as it was. -/
structure Leaves (h : Heap) (x old : Nat) (h' : Heap) : Prop where
  content : ∀ i < old, h'.kernel.memory.byteAt (x + i) = h.kernel.memory.byteAt (x + i)
  sized : allocatedSize (some x) h' = .ok old h'
  held : ¬h'.Free x

/-- What a client gets that resizes an allocation. -/
def Reallocates (h : Heap) (x old size : Nat) (opts : AllocOptions) : Option Nat → Heap → Prop
  | some got, h' => h.Replaces x old size opts got h'
  | none, h' => h.Leaves x old h'

variable {h h' : Heap} {spans spans' : Place → Category → List Span} {live foreign : Set Nat}
  {x old size moved n : Nat} {opts : AllocOptions}

theorem Sound.not_free (hsound : h.Sound spans live foreign) (hx : x ∈ live) : ¬h.Free x := by
  intro hfree
  rcases hfree with hcached | ⟨hoffset, hnone⟩
  · exact hsound.cached_notMem x (hsound.cached_iff.1 hcached) hx
  · obtain ⟨n, hsome⟩ := (hsound.sizes x hoffset).1 hx
    rw [hnone] at hsome
    cases hsome

theorem Moves.replaces (hmoves : h.Moves spans live foreign x old size opts moved n h' spans') :
    h.Replaces x old size opts moved h' where
  front := hmoves.front
  aligned := hmoves.admits
  sized := ⟨n, hmoves.size_le, allocatedSize_eq hmoves.occupies⟩
  zeroed := hmoves.tail
  held := hmoves.sound.not_free (Set.mem_insert moved _)
  freed hne := (hmoves.free hne).imp_left hmoves.sound.cached_iff.2

theorem Steady.leaves (hsteady : h.Steady spans live foreign h' spans') (hx : x ∈ live)
    (hold : h.Occupies x old) : h.Leaves x old h' := by
  obtain ⟨hold', hsame⟩ := hsteady.preserves x hx old hold
  refine ⟨fun i hi => hsame (x + i) ?_, allocatedSize_eq hold', hsteady.sound.not_free hx⟩
  exact mem_bytesAt.2 ⟨Nat.le_add_right x i, Nat.add_lt_add_left hi x⟩

end Heap

namespace Process

variable {p : Process} {x size : Nat}

theorem Reachable.reallocate_keeps (hreach : p.Reachable) (hx : x ∈ p.live) (hpos : 0 < size)
    (t : Nat) (opts : AllocOptions) :
    ∃ old, Heap.allocatedSize (some x) p.heap = .ok old p.heap ∧
      Action.Ensures (Heap.reallocate t (some x) size opts) p.heap
        (p.heap.Reallocates x old size opts) (fun e _ => p.heap.Ends e) := by
  obtain ⟨spans, foreign, horderly⟩ := hreach.orderly
  obtain ⟨old, -, hold⟩ := horderly.sound.occupies hx
  refine ⟨old, Heap.allocatedSize_eq hold, ?_⟩
  apply (horderly.sound.ensures_reallocate t hx hold hpos opts).imp
  intro got? h' hresizes
  cases got? with
  | none =>
      have hrests : p.heap.Rests spans p.live foreign h' := hresizes
      exact (hrests.steady horderly.sound).leaves hx hold
  | some got =>
      obtain ⟨n, spans', hmoves⟩ := hresizes
      exact hmoves.replaces

/-- A block that has to move to become larger. -/
theorem reallocate_keeps_block : ∃ p : Process, p.Reachable ∧
    ∃ old, Heap.allocatedSize (some 0x200000007080) p.heap = .ok old p.heap ∧
      Action.Ensures (Heap.reallocate 0 (some 0x200000007080) 5000 { zero := true }) p.heap
        (p.heap.Reallocates 0x200000007080 old 5000 { zero := true })
        (fun e _ => p.heap.Ends e) := by
  have hboot : (new .standard (.boot 8 none)).Reachable := reachable_boot .standard (by decide)
  have hfirst : (new .standard (.boot 8 none)).granted? 0 (.malloc 100) = some 0x200000007080 := by
    decide +kernel
  have hreach := hboot.serve (passed_malloc _ 100) (t := 0)
  have hlive := mem_live_serve hfirst
  exact ⟨_, hreach, hreach.reallocate_keeps hlive (by decide) 0 { zero := true }⟩

end Process
end PagedHeap
