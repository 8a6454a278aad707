import PagedHeap.Proofs.Heap.Demands
import PagedHeap.Proofs.Heap.Policy
import PagedHeap.Proofs.Process.Steps

/-!
# A process without memory

Whatever a client asks for, and whatever the kernel refuses: a demand is met in silence, or it is
refused as the policy says, or the process says that it has run out of memory and ends.  Which of
the last two it is depends on the build only.

One request for memory does not come to a demand.  An array whose size is not a word is refused at
once, and what was built never to fail fails there.
-/

namespace PagedHeap

open PagedHeap.Action

namespace Heap

/-- What comes of a demand that does not end the process: it is met and nothing is said, or it is
refused, and the log and the error number say why. -/
inductive Settles (r : HeapRequest) (h : Heap) (a : Answer) (h' : Heap) : Prop where
  | met {x : Nat} (hanswer : a = r.render (some x)) (huntold : h.Untold h')
  | refused {size : Nat} (hanswer : a = r.render none) (hmay : h.build.neverFails = false)
      (hnumber : h'.errorNumber? = some .noMemory)
      (hlog : h'.log = .failed (.outOfMemory size) :: h.log)

variable {h h' : Heap} {spans : Place → Category → List Span} {live foreign : Set Nat}
  {t count size : Nat} {opts : AllocOptions} {r : HeapRequest}

theorem Heeds.settled {got? : Option Nat} (r : HeapRequest) (hheeds : h.Heeds got? h') :
    h.Settles r (r.render got?) h' := by
  cases got? with
  | some got => exact .met rfl hheeds
  | none =>
      obtain ⟨hmay, hnumber, size, hlog⟩ := hheeds
      exact .refused rfl hmay hnumber hlog

theorem Sound.settles_demand (hsound : h.Sound spans live foreign) (hdemands : r.Demands size opts)
    (hpassed : ∀ x, r.passed? = some x → x ∈ live) (hpos : 0 < size)
    (halign : Word.isPowerOfTwo opts.alignment = true) (t : Nat) :
    Ensures (serve t r) h (h.Settles r) h.DemandEnds := by
  rw [serve_eq_reallocate hdemands, ensures_map]
  exact (hsound.reallocate_heeds hpassed hpos halign t).imp fun _ _ hheeds => hheeds.settled r

/-- An array that is too large to have a size is refused by itself, whatever the build. -/
theorem calloc_overflow (htotal : Word.mul? count size = none) (t : Nat) (h : Heap) :
    serve t (.calloc count size) h =
      .ok (.pointer none) { h with errorNumber? := some .noMemory } := by
  simp only [serve, calloc, htotal]
  rfl

end Heap

namespace Process

variable {p : Process} {r : HeapRequest}

/-- Every demand is met, refused or ends the process as the build says; an array without a size is
refused and not logged. -/
theorem Reachable.settles (hreach : p.Reachable) (t : Nat)
    (hpassed : ∀ x, r.passed? = some x → x ∈ p.live) :
    (∀ size opts, r.Demands size opts → 0 < size → Word.isPowerOfTwo opts.alignment = true →
      Ensures (Heap.serve t r) p.heap (p.heap.Settles r) p.heap.DemandEnds) ∧
    ∀ count size, r = .calloc count size → Word.mul? count size = none →
      Heap.serve t r p.heap =
        .ok (.pointer none) { p.heap with errorNumber? := some .noMemory } := by
  obtain ⟨spans, foreign, horderly⟩ := hreach.orderly
  refine ⟨fun size opts hdemands hpos halign => ?_, fun count size hcalloc htotal => ?_⟩
  · exact horderly.sound.settles_demand hdemands hpassed hpos halign t
  · rw [hcalloc]
    exact Heap.calloc_overflow htotal t p.heap

/-- Where the kernel has one page only, five thousand bytes are the end of a process that was
built never to fail. -/
theorem settles_one_page : ∃ p : Process, p.Reachable ∧ p.heap.build.neverFails = true ∧
    ∃ size h, Heap.serve 0 (.malloc 5000) p.heap = .error (.outOfMemory size) h ∧
      p.heap.Untold h := by
  obtain ⟨p, hp⟩ : ∃ p, p = new .neverFailing (.boot 1 none) := ⟨_, rfl⟩
  have hreach : p.Reachable := hp ▸ reachable_boot .neverFailing (by decide)
  have hnever : p.heap.build.neverFails = true := hp ▸ rfl
  have hfree : p.heap.fallbackHeld = false := hp ▸ rfl
  have hgranted : p.granted? 0 (.malloc 5000) = none := by
    rw [hp]
    decide +kernel
  have hsettles := (hreach.settles 0 (passed_malloc _ 5000)).1 _ _ .malloc (by decide) (by decide)
  refine ⟨p, hreach, hnever, ?_⟩
  cases hrun : Heap.serve 0 (.malloc 5000) p.heap with
  | ok a h =>
      -- Nothing was granted, and a refusal is not for a process of this build.
      rcases hsettles.of_ok hrun with ⟨rfl, -⟩ | ⟨rfl, hmay, -, -⟩
      · simp only [granted?, hrun] at hgranted
        cases hgranted
      · rw [hnever] at hmay
        cases hmay
  | error e h =>
      rcases hsettles.of_error hrun with ⟨hheld, -⟩ | hexhausted
      · rw [hfree] at hheld
        cases hheld
      · obtain ⟨size, rfl⟩ := hexhausted.reason
        exact ⟨size, h, rfl, hexhausted.untold⟩

/-- In a process that was built never to fail, two to the power of 64 bytes are refused without
any record of it. -/
theorem not_always_settles : ∃ p : Process, p.Reachable ∧ p.heap.build.neverFails = true ∧
    ∃ h, Heap.serve 0 (.calloc 0x8000000000000000 2) p.heap = .ok (.pointer none) h ∧
      h.log = p.heap.log := by
  refine ⟨new .neverFailing (.boot 1 none), reachable_boot .neverFailing (by decide), rfl, _,
    Heap.calloc_overflow (by decide) 0 _, rfl⟩

end Process
end PagedHeap
