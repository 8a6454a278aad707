import PagedHeap.Proofs.Heap.Policy
import PagedHeap.Proofs.Process.Steps

/-!
# What a failure names

A request that fails for lack of memory says how many bytes were lacking: in the error that it
returns, in the record that it logs or in the last words of the process.  An attempt and an
allocation name the size that was asked for, wherever on their way memory was missing, and so does a
resize that has to move.

A resize in place does not.  Along the route of a large allocation its size is rounded up to the
alignment, and the failure names the size rounded.
-/

namespace PagedHeap

open PagedHeap.Action

namespace Heap

variable {h : Heap} {spans : Place → Category → List Span} {live foreign : Set Nat}

/-- An attempt tells nothing, and a lack of memory names the size asked for. -/
theorem Sound.tryAllocate_attempted (hsound : h.Sound spans live foreign) (t size : Nat)
    (opts : AllocOptions) :
    Ensures (tryAllocate t size opts) h
      (fun result h' => h.Untold h' ∧ Attempted size opts result) (fun e _ => h.LockEnds e) := by
  apply ((hsound.ensures_tryAllocate t size opts).and
    (ensures_tryAllocate_attempted t size opts h)).mono
  · exact fun _ _ hpost => hpost.2
  · exact fun _ _ hends => hends.1

/-- An attempt for a layout tells nothing, and a lack of memory names the size that is served. -/
theorem Sound.tryAllocateLayout_attempted (hsound : h.Sound spans live foreign) (t : Nat)
    (l : Layout) :
    Ensures (tryAllocateLayout t l) h
      (fun result h' => h.Untold h' ∧
        ((∃ x, result = .ok x) ∨ result = .error (.outOfMemory (servedSize l.size))))
      (fun e _ => h.LockEnds e) := by
  rw [tryAllocateLayout, ensures_bind]
  apply (hsound.tryAllocate_attempted t (servedSize l.size) (l.options false)).imp
  rintro result h' ⟨huntold, hattempted⟩
  cases hattempted with
  | got => exact .answer ⟨huntold, .inl ⟨_, rfl⟩⟩
  | empty hempty =>
      exact absurd hempty (Nat.pos_iff_ne_zero.1 (servedSize_pos l.size))
  | misaligned halign =>
      rw [l.isPowerOfTwo_alignment] at halign
      cases halign
  | lacking => exact .answer ⟨huntold, .inr rfl⟩

end Heap

namespace Process

variable {p : Process} {passed? : Option Nat}

/-- Whatever has happened in a process, attempts and allocations that lack memory name the size
asked for.  A reallocation does too, unless a large allocation keeps its place: then it names that
size rounded up to the alignment. -/
theorem Reachable.reports_requests (hreach : p.Reachable) (t size : Nat) (opts : AllocOptions)
    (hpassed : ∀ x, passed? = some x → x ∈ p.live) :
    Ensures (Heap.tryAllocate t size opts) p.heap
        (fun result h' => p.heap.Untold h' ∧ Heap.Attempted size opts result)
        (fun e _ => p.heap.LockEnds e) ∧
      (∀ l, Ensures (Heap.tryAllocateLayout t l) p.heap
        (fun result h' => p.heap.Untold h' ∧
          ((∃ x, result = .ok x) ∨ result = .error (.outOfMemory (Heap.servedSize l.size))))
        (fun e _ => p.heap.LockEnds e)) ∧
      Ensures (Heap.allocate t size opts) p.heap (p.heap.Reported size size opts)
        (p.heap.ReportEnds size) ∧
      Ensures (Heap.reallocate t passed? size opts) p.heap
        (p.heap.Reported size (Heap.namedSize passed? size opts) opts)
        (p.heap.ReportEnds (Heap.namedSize passed? size opts)) ∧
      (Heap.namedSize passed? size opts = size ∨
        ∃ x, passed? = some x ∧ pageOffset x = 0 ∧ opts.alignment ∣ x ∧
          smallLimit < Heap.namedSize passed? size opts ∧
          IsLeast {m | size ≤ m ∧ opts.alignment ∣ m} (Heap.namedSize passed? size opts)) := by
  obtain ⟨spans, foreign, horderly⟩ := hreach.orderly
  have hsound := horderly.sound
  exact ⟨hsound.tryAllocate_attempted t size opts, hsound.tryAllocateLayout_attempted t,
    hsound.allocate_reports t size opts, hsound.reallocate_reports hpassed t size opts,
    Heap.namedSize_cases passed? size opts⟩

/-- A process with a large allocation, and with no page left. -/
def crowded : Process := (new .standard (.boot 3 none)).serve 0 (.malloc 5000)

theorem reachable_crowded : crowded.Reachable :=
  (reachable_boot .standard (by decide)).serve (passed_malloc _ 5000)

theorem mem_live_crowded : 0x200000001000 ∈ crowded.live := by
  apply mem_live_serve
  decide +kernel

/-- Nine thousand bytes with an alignment of sixteen are too many, and 9008 bytes are reported. -/
theorem fails_crowded : Ensures (Heap.reallocate 0 (some 0x200000001000) 9000 { align := 16 })
    crowded.heap (fun got? h' => got? = none ∧ crowded.heap.log = [] ∧
      h'.log = [.failed (.outOfMemory 9008)]) never := by
  decide +kernel

/-- A resize in place that fails. -/
theorem reports_requests_crowded : ∃ got? h',
    Heap.reallocate 0 (some 0x200000001000) 9000 { align := 16 } crowded.heap = .ok got? h' ∧
      crowded.heap.Reported 9000 9008 { align := 16 } got? h' ∧
      h'.log = [.failed (.outOfMemory 9008)] := by
  have hlive : ∀ x, some 0x200000001000 = some x → x ∈ crowded.live := by
    rintro x ⟨⟩
    exact mem_live_crowded
  have hreach : crowded.Reachable := reachable_crowded
  obtain ⟨-, -, -, hreports, -⟩ := hreach.reports_requests 0 9000 { align := 16 } hlive
  obtain ⟨got?, h', hrun, -, -, hlog⟩ := Ensures.exists_ok fails_crowded
  exact ⟨got?, h', hrun, hreports.of_ok hrun, hlog⟩

/-- The size that is named is not always the size asked for. -/
theorem not_always_names_requested : ¬ ∀ p : Process, p.Reachable →
    ∀ t x size opts, x ∈ p.live →
      Ensures (Heap.reallocate t (some x) size opts) p.heap
        (fun _ h' => ∀ n, h'.log = .failed (.outOfMemory n) :: p.heap.log → n = size)
        (fun e _ => ∀ n, e = .outOfMemory n → n = size) := by
  intro hall
  have hnames := hall _ reachable_crowded 0 _ 9000 { align := 16 } mem_live_crowded
  obtain ⟨got?, h', hrun, -, hbefore, hlog⟩ := Ensures.exists_ok fails_crowded
  have hnamed := hnames.of_ok hrun 9008 (by rw [hlog, hbefore])
  exact absurd hnamed (by decide)

end Process
end PagedHeap
