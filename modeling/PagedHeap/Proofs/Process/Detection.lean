import PagedHeap.Proofs.Heap.Sheltering
import PagedHeap.Proofs.Process.Calls
import PagedHeap.Proofs.Process.Conservation

/-!
# Bad pointers are found out

In every process, a page-aligned pointer is turned down just if the client does not have it, and
any other pointer into a run is turned down just if the header of the run speaks against it,
whatever that holds.  Every request about an allocation makes the same check, before anything is
done.  Once it is freed, a large allocation stays unknown until its address is handed out again.
-/

namespace PagedHeap

open PagedHeap.Action

namespace Process

/-- What becomes of a pointer that is passed to the heap, whoever passes it. -/
structure Detects (p : Process) : Prop where
  large : ∀ t x r, pageOffset x = 0 → HeapRequest.Checks x r →
    (x ∉ p.live → p.heap.Exposes (.unknownLargePointer x) (Heap.serve t r)) ∧
    (x ∈ p.live → ∃ n, Heap.allocatedSize (some x) p.heap = .ok n p.heap ∧
      Ensures (Heap.serve t r) p.heap (fun _ _ => True) (fun e _ => r.Acquits x n e))
  /-- A large allocation was freed and its address has not been granted since. -/
  twice : ∀ t c reply p₁ p' x, p.Makes t c reply p₁ → c.passed? = some x → c.frees = true →
    reply.granted? ≠ some x → p₁.Later (fun _ _ reply' => reply'.granted? ≠ some x) p' →
    pageOffset x = 0 → ∀ t' r, HeapRequest.Checks x r →
      p'.heap.Exposes (.unknownLargePointer x) (Heap.serve t' r)
  /-- Someone may have stored over the category in the header of the run. -/
  block : p.loans = [] → ∀ t x r m, pageOffset x ≠ 0 → pageOf x ∈ p.runs →
    HeapRequest.Checks x r →
    (∀ y, y ∉ bytesAt (pageOf x) 4 → m.byteAt y = p.heap.kernel.memory.byteAt y) →
    (maxCategory < m.runCategory (pageOf x) →
      (p.heap.withMemory m).Exposes (.badCategory (pageOf x) (m.runCategory (pageOf x)))
        (Heap.serve t r)) ∧
    ∀ c : Category, m.runCategory (pageOf x) = c.val →
      (pageOffset x % c.blockSize ≠ 0 →
        (p.heap.withMemory m).Exposes (.misalignedBlock x c.blockSize) (Heap.serve t r)) ∧
      (pageOffset x % c.blockSize = 0 →
        Heap.allocatedSize (some x) (p.heap.withMemory m) = .ok c.blockSize (p.heap.withMemory m) ∧
        Ensures (Heap.serve t r) (p.heap.withMemory m) (fun _ _ => True)
          (fun e _ => r.Acquits x c.blockSize e))
  /-- Where a size is found, a claim to free that much or less makes no difference. -/
  claims : ∀ t x n size m h, Heap.allocatedSize (some x) (p.heap.withMemory m) = .ok n h →
    (n < size → (p.heap.withMemory m).Exposes (.sizeMismatch x size n)
      (Heap.serve t (.reclaimSized (some x) size))) ∧
    (size ≤ n → Heap.serve t (.reclaimSized (some x) size) (p.heap.withMemory m) =
      Heap.serve t (.reclaim (some x)) (p.heap.withMemory m))

variable {p p' : Process} {t x : Nat} {c : HeapCall} {reply : HeapReply} {r : HeapRequest}

/-! ## Pointers that the client does not have -/

/-- A pointer that is given up is not the client's, unless it comes back. -/
theorem Makes.notMem (hmakes : p.Makes t c reply p') (hpassed : c.passed? = some x)
    (hfrees : c.frees = true) (hgranted : reply.granted? ≠ some x) : x ∉ p'.live := by
  obtain ⟨-, -⟩ := hmakes
  have hother : x ∉ others c.passed? p.live := fun hin => hin.2 hpassed
  intro hin
  cases hgot : reply.granted? with
  | none =>
      simp only [next, after, hgot, hfrees, if_true] at hin
      exact hother hin
  | some got =>
      simp only [next, after, hgot] at hin
      rcases Set.mem_insert_iff.1 hin with rfl | hin
      · exact hgranted hgot
      · exact hother hin

/-- The client gets no pointer but those that are granted. -/
theorem Makes.live_subset (hmakes : p.Makes t c reply p') (hgranted : reply.granted? ≠ some x)
    (hin : x ∈ p'.live) : x ∈ p.live := by
  obtain ⟨-, -⟩ := hmakes
  cases hgot : reply.granted? with
  | none =>
      simp only [next, after, hgot] at hin
      split at hin
      · exact hin.1
      · exact hin
  | some got =>
      simp only [next, after, hgot] at hin
      rcases Set.mem_insert_iff.1 hin with rfl | hin
      · exact absurd hgot hgranted
      · exact hin.1

theorem Later.notMem (hlater : p.Later (fun _ _ reply => reply.granted? ≠ some x) p')
    (hnot : x ∉ p.live) : x ∉ p'.live := by
  induction hlater with
  | refl => exact hnot
  | call _ hallowed hmakes ih => exact fun hin => ih (hmakes.live_subset hallowed hin)
  | drift _ hdrifts ih =>
      rw [hdrifts.heap_eq.2.1]
      exact ih

theorem Reachable.exposes (hreach : p.Reachable) (hoffset : pageOffset x = 0) (hnot : x ∉ p.live)
    (hchecks : r.Checks x) (t : Nat) :
    p.heap.Exposes (.unknownLargePointer x) (Heap.serve t r) := by
  obtain ⟨spans, foreign, horderly⟩ := hreach.orderly
  -- The table has an entry for the large allocations of the client and for nothing else.
  have hnone : p.heap.table.get? x = none := by
    cases hsize : p.heap.table.get? x with
    | none => rfl
    | some n => exact absurd ((horderly.sound.sizes x hoffset).2 ⟨n, hsize⟩) hnot
  exact Heap.exposes_unknown hoffset hnone hchecks t

/-! ## The checks -/

/-- Nothing is lent outside of nested use. -/
theorem Reachable.held_eq_false (hreach : p.Reachable) (hloans : p.loans = []) :
    p.heap.fallbackHeld = false := by
  by_contra hheld
  obtain ⟨u, hin⟩ := hreach.keepsLoans.exists_loan (by simpa using hheld)
  rw [hloans] at hin
  exact absurd hin List.not_mem_nil

/-- Bad pointers are found out in every process, and good ones are not taken for bad. -/
theorem Reachable.detects (hreach : p.Reachable) : p.Detects := by
  obtain ⟨spans, foreign, horderly⟩ := hreach.orderly
  have hsound := horderly.sound
  refine ⟨fun t x r hoffset hchecks => ⟨fun hnot => ?_, fun hx => ?_⟩,
    fun t c reply p₁ p' x hmakes hpassed hfrees hgranted hlater hoffset t' r hchecks => ?_,
    fun hloans t x r m hoffset hpage hchecks hsame => ?_, fun t x n size m h hrun => ?_⟩
  · exact hreach.exposes hoffset hnot hchecks t
  · obtain ⟨n, -, hn⟩ := hsound.occupies hx
    exact ⟨n, Heap.allocatedSize_eq hn, hsound.ensures_acquits hx hn hchecks t⟩
  · have hreach' := hlater.reachable (hreach.step (.work hmakes.work))
    have hnot := hlater.notMem (hmakes.notMem hpassed hfrees hgranted)
    exact hreach'.exposes hoffset hnot hchecks t'
  · have hfree := hreach.held_eq_false hloans
    rw [runs, used, hsound.used_eq] at hpage
    refine ⟨fun hnumber => ?_, fun c hcategory => ⟨fun hmod => ?_, fun hmod => ?_⟩⟩
    · exact Heap.exposes_faulty (h := p.heap.withMemory m) hoffset hfree (.category hnumber)
        hchecks t
    · exact Heap.exposes_faulty (h := p.heap.withMemory m) hoffset hfree (.place hcategory hmod)
        hchecks t
    · have hblock : IsBlock (p.heap.withMemory m).kernel.memory c x := ⟨hcategory, hoffset, hmod⟩
      exact ⟨Heap.allocatedSize_eq (.inr ⟨c, hblock, rfl⟩),
        (hsound.shelters hpage hsame).ensures_acquits hblock hchecks t⟩
  · have hn := Heap.occupies_of_allocatedSize hrun
    refine ⟨fun hlt => Heap.exposes_claim hn hlt t, fun hle => ?_⟩
    simp only [Heap.serve, map_eq_pure_bind, bind, EStateM.bind,
      Heap.reclaimSized_eq_reclaim hn hle t]

/-- A large allocation of five thousand bytes is freed by one thread and then by another.  A block
of 128 bytes beside it is asked for by a pointer into its middle, freed after the header of its
run was stored over, and freed with the claim that it has 200 bytes. -/
theorem detects_bad_pointers : ∃ p p' : Process, p.Reachable ∧ 0x200000006000 ∈ p.live ∧
    (∃ reply, p.Makes 0 (.request (.reclaim (some 0x200000006000))) reply p') ∧
    p'.heap.Exposes (.unknownLargePointer 0x200000006000)
      (Heap.serve 1 (.reclaim (some 0x200000006000))) ∧
    p.heap.Exposes (.misalignedBlock 0x200000004090 128)
      (Heap.serve 0 (.allocatedSize (some 0x200000004090))) ∧
    (p.heap.withMemory (p.heap.kernel.memory.setRunCategory 0x200000004000 9)).Exposes
      (.badCategory 0x200000004000 9) (Heap.serve 0 (.reclaim (some 0x200000004080))) ∧
    p.heap.Exposes (.sizeMismatch 0x200000004080 200 128)
      (Heap.serve 0 (.reclaimSized (some 0x200000004080) 200)) := by
  obtain ⟨p₀, hp₀⟩ : ∃ p₀, p₀ = (new .standard (.boot 8 none)).serve 0 (.malloc 5000) := ⟨_, rfl⟩
  obtain ⟨p, hp⟩ : ∃ p, p = p₀.serve 0 (.malloc 100) := ⟨_, rfl⟩
  have hlarge : 0x200000006000 ∈ p₀.live := by
    rw [hp₀]
    exact mem_live_serve (by decide +kernel)
  have hgranted : p₀.granted? 0 (.malloc 100) = some 0x200000004080 := by
    rw [hp₀]
    decide +kernel
  have hreach₀ : p₀.Reachable := by
    rw [hp₀]
    exact (reachable_boot .standard (by decide)).serve (passed_malloc _ 5000)
  have hwork := Work.of_granted (passed_malloc _ 100) hgranted
  have hreach : p.Reachable := hp ▸ hreach₀.step (.work hwork)
  have hlarge' : 0x200000006000 ∈ p.live :=
    hp ▸ hwork.others_subset ⟨hlarge, by simp [HeapRequest.passed?]⟩
  have hblock : 0x200000004080 ∈ p.live := hp ▸ mem_live_serve hgranted
  have hpage : 0x200000004000 ∈ p.runs := ⟨0x200000004080, .inr ⟨hblock, by decide⟩, by decide⟩
  have hdetects := hreach.detects
  have hheader : p.loans = [] ∧ p.heap.kernel.memory.runCategory 0x200000004000 = 3 := by
    rw [hp, hp₀]
    decide +kernel
  have hfreed : Ensures (Heap.serve 0 (.reclaim (some 0x200000006000))) p.heap
      (fun a _ => a.granted? = none) never := by
    rw [hp, hp₀]
    decide +kernel
  obtain ⟨a, h, hrun, hnone⟩ := hfreed.exists_ok
  have hmakes : p.Makes 0 (.request (.reclaim (some 0x200000006000))) (.answer a) _ :=
    .intro (fun x hx => Option.some.inj hx ▸ hlarge') (Action.map_of_ok hrun)
  refine ⟨p, _, hreach, hlarge', ⟨_, hmakes⟩, ?_, ?_, ?_, ?_⟩
  · exact hdetects.twice _ _ _ _ _ _ hmakes rfl rfl (by simp [HeapReply.granted?, hnone]) .refl
      (by decide) 1 _ .reclaim
  · exact ((hdetects.block hheader.1 0 0x200000004090 _ p.heap.kernel.memory (by decide) hpage
      .allocatedSize fun _ _ => rfl).2 3 hheader.2).1 (by decide)
  · have hnumber : (p.heap.kernel.memory.setRunCategory 0x200000004000 9).runCategory
        0x200000004000 = 9 := by
      simp [Memory.runCategory, Memory.setRunCategory, Memory.load_store]
    have hpageOf : pageOf 0x200000004080 = 0x200000004000 := by decide
    have hbad := hdetects.block hheader.1 0 0x200000004080 _
      (p.heap.kernel.memory.setRunCategory 0x200000004000 9) (by decide) hpage .reclaim
      fun y hy => Memory.byteAt_store_outside hy
    rw [hpageOf, hnumber] at hbad
    exact hbad.1 (by decide)
  · have hsize : Heap.allocatedSize (some 0x200000004080) p.heap = .ok 128 p.heap :=
      (((hdetects.block hheader.1 0 0x200000004080 _ p.heap.kernel.memory (by decide) hpage
        .reclaim fun _ _ => rfl).2 3 hheader.2).2 (by decide)).1
    exact (hdetects.claims 0 _ _ 200 p.heap.kernel.memory _ hsize).1 (by decide)

end Process
end PagedHeap
