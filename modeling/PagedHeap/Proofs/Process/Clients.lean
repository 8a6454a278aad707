import PagedHeap.Proofs.Heap.Demands
import PagedHeap.Proofs.Process.Calls
import PagedHeap.Proofs.Process.Separation

/-!
# Clients that keep the rules

A client that remembers for each of its pointers what it asked for last, and claims no more when
it frees, never learns of a broken heap.  Unless it was built to end when memory runs out, the
process goes on after each of its calls.  At most a call waits, where threads share the allocator
and one of them keeps the fallback cache on loan.
-/

namespace PagedHeap
namespace HeapCall

/-- How many bytes are asked for. -/
def requested : HeapCall → Nat
  | request r => r.requested
  | borrow | giveBack _ | count _ | beginExit | finishExit | stage _ => 0

end HeapCall

namespace Process

variable {p p' : Process} {spans : Place → Category → List Span} {foreign : Set Nat}
  {t x : Nat} {c : HeapCall} {reply : HeapReply} {r : HeapRequest} {a : Answer} {h : Heap}

/-! ## What a call leaves as large as it was -/

/-- A request that neither asks for memory nor frees any leaves all allocations as they are. -/
theorem preserves_of_looks (hsound : p.heap.Sound spans p.live foreign)
    (hpassed : ∀ x, r.passed? = some x → x ∈ p.live) (hasks : r.asks = false)
    (hfrees : r.frees = false) (hrun : Heap.serve t r p.heap = .ok a h) :
    p.heap.Preserves p.live h := by
  have hserves := (hsound.ensures_serve t r hpassed).of_ok hrun
  obtain ⟨spans', hevolves⟩ := hserves.evolves
  have hkept := hevolves.preserves
  cases hpassed? : r.passed? with
  | none =>
      rw [hpassed?, Heap.others_none] at hkept
      exact hkept
  | some x =>
      -- Such a request passes a pointer only to ask for the size of the allocation.
      obtain rfl : r = .allocatedSize (some x) := by
        cases r <;> simp_all [HeapRequest.asks, HeapRequest.frees, HeapRequest.passed?]
      obtain ⟨n, -, hn⟩ := hsound.occupies (hpassed x rfl)
      obtain ⟨size, hsize, -⟩ := Action.exists_of_map hrun
      obtain ⟨-, rfl⟩ := hn.eq_of_asked hsize
      exact Heap.Preserves.refl _ _

/-- Where nothing is granted or freed, all allocations are as large as they were. -/
theorem preserves_of_idle (hsound : p.heap.Sound spans p.live foreign)
    (hpassed : ∀ x, r.passed? = some x → x ∈ p.live) (hgranted : a.granted? = none)
    (hfrees : r.frees = false) (hrun : Heap.serve t r p.heap = .ok a h) :
    p.heap.Preserves p.live h := by
  cases hasks : r.asks with
  | true => exact ((hsound.rests_serve hpassed ⟨hasks, hgranted⟩ hrun).steady hsound).preserves
  | false => exact preserves_of_looks hsound hpassed hasks hfrees hrun

/-- The pointers that the client keeps are its own, and their allocations as large as before. -/
theorem Makes.preserves (hmakes : p.Makes t c reply p') (hsound : p.heap.Sound spans p.live foreign)
    (hx : x ∈ p'.live) (hold : reply.granted? ≠ some x) :
    x ∈ p.live ∧ p.heap.Preserves {x} p'.heap := by
  have hwork := hmakes.work
  obtain ⟨spans', hevolves⟩ := hwork.evolves hsound
  have hother : x ∈ others c.passed? p.live → x ∈ p.live ∧ p.heap.Preserves {x} p'.heap :=
    fun hin => ⟨hin.1, hevolves.preserves.mono (Set.singleton_subset_iff.2 hin)⟩
  obtain ⟨hpermits, hrun⟩ := hmakes
  have hlive : x ∈ after c.passed? c.frees reply.granted? p.live := hx
  cases hgranted : reply.granted? with
  | some y =>
      rw [hgranted] at hlive hold
      refine hother (hlive.resolve_left fun heq => hold ?_)
      rw [heq]
  | none =>
      rw [hgranted] at hlive
      cases hfrees : c.frees with
      | true =>
          rw [hfrees] at hlive
          exact hother hlive
      | false =>
          rw [hfrees] at hlive
          have hin : x ∈ p.live := hlive
          cases c with
          | request r =>
              obtain ⟨a, hserve, rfl⟩ := Action.exists_of_map hrun
              have hkept := preserves_of_idle hsound hpermits hgranted hfrees hserve
              exact ⟨hin, hkept.mono (Set.singleton_subset_iff.2 hin)⟩
          | _ => exact hother ⟨hin, fun hnone => by cases hnone⟩

theorem Drifts.preserves (hdrifts : p.Drifts p') (hsound : p.heap.Sound spans p.live foreign) :
    ∀ x ∈ p.live, ∀ n, p.heap.Occupies x n → p'.heap.Occupies x n := by
  intro x hx n hn
  cases hdrifts with
  | store hsame => exact hsound.occupies_withMemory (Set.Subset.refl _) hsame hx hn
  | environment hvalid huse hsame =>
      rcases hn with ⟨hoffset, hsize⟩ | ⟨c, hblock, rfl⟩
      · exact .inl ⟨hoffset, hsize⟩
      · have hused : x ∈ Heap.usedBlocks spans p.live := .inr ⟨hx, hblock.offset_ne⟩
        have hheader := hsound.runCategory_environment hsame hused
        exact .inr ⟨c, hblock.of_runCategory hheader, rfl⟩

/-- What a call grants is as large as was asked for. -/
theorem Makes.requested_le (hmakes : p.Makes t c reply p')
    (hsound : p.heap.Sound spans p.live foreign) (hgranted : reply.granted? = some x) :
    ∃ n, p'.heap.Occupies x n ∧ c.requested ≤ n := by
  obtain ⟨hpermits, hrun⟩ := hmakes
  cases c with
  | request r =>
      obtain ⟨a, hserve, rfl⟩ := Action.exists_of_map hrun
      obtain ⟨n, hsize, hn⟩ := (hsound.ensures_requested _ r hpermits).of_ok hserve x hgranted
      exact ⟨n, hn, hsize⟩
  | _ =>
      obtain ⟨_, -, rfl⟩ := Action.exists_of_map hrun
      cases hgranted

end Process

/-- A process, and the size that its client asked for last for each pointer. -/
structure Client where
  process : Process
  asked : Nat → Nat

namespace Client

/-- What the client remembers after a call. -/
def remember (s : Client) (c : HeapCall) (reply : HeapReply) : Nat → Nat :=
  match reply.granted? with
  | some x => Function.update s.asked x c.requested
  | none => s.asked

theorem remember_granted {s : Client} {c : HeapCall} {reply : HeapReply} {x : Nat}
    (hgranted : reply.granted? = some x) : s.remember c reply x = c.requested := by
  simp only [remember, hgranted, Function.update_self]

theorem remember_of_ne {s : Client} {c : HeapCall} {reply : HeapReply} {x : Nat}
    (hother : reply.granted? ≠ some x) : s.remember c reply x = s.asked x := by
  cases hgranted : reply.granted? with
  | some y =>
      have hne : x ≠ y := fun heq => hother (heq ▸ hgranted)
      simp only [remember, hgranted, Function.update_of_ne hne]
  | none => simp only [remember, hgranted]

/-- The rules for a call.  A client passes its own pointers, claims no more of an allocation than
it asked for last, and asks for zeros behind the old end only where it grows.  Where the allocator
is for one thread, nothing that needs the cache is done while that is on loan. -/
structure Keeps (s : Client) (t : Nat) (c : HeapCall) : Prop where
  permits : s.process.Permits t c
  claims : ∀ r x size, c = .request r → r.passed? = some x → r.claims? = some size →
    size ≤ s.asked x
  grows : ∀ pointer? old new, c = .request (.growSliceZeroed pointer? old new) →
    old.size ≤ new.size
  alone : s.process.heap.build.threading = .exclusive → c.needsCache = true →
    s.process.loans = []

/-- The clients that have kept to the rules so far. -/
inductive Reachable : Client → Prop where
  | start {build : Build} (hbuild : build ≠ .neverFailing) {k : Kernel} (hvalid : k.Valid) :
      Reachable ⟨.new build k, fun _ => 0⟩
  | call {s : Client} {t : Nat} {c : HeapCall} {reply : HeapReply} {p' : Process}
      (hreach : Reachable s) (hkeeps : s.Keeps t c) (hmakes : s.process.Makes t c reply p') :
      Reachable ⟨p', s.remember c reply⟩
  | drift {s : Client} {p' : Process} (hreach : Reachable s) (hdrifts : s.process.Drifts p') :
      Reachable ⟨p', s.asked⟩

/-- All allocations are as large as was asked for last. -/
def Covered (s : Client) : Prop :=
  ∀ x ∈ s.process.live, ∃ n, s.process.heap.Occupies x n ∧ s.asked x ≤ n

variable {s : Client} {t : Nat} {c : HeapCall} {reply : HeapReply} {p' : Process}
  {spans : Place → Category → List Span} {foreign : Set Nat}

theorem Reachable.process (hreach : s.Reachable) : s.process.Reachable := by
  induction hreach with
  | start hbuild hvalid => exact .start _ hvalid
  | call _ _ hmakes ih => exact ih.step (.work hmakes.work)
  | drift _ hdrifts ih => exact ih.step (Process.step_iff.2 (.inr hdrifts))

theorem Covered.call (hcovered : s.Covered) (hmakes : s.process.Makes t c reply p')
    (hsound : s.process.heap.Sound spans s.process.live foreign) :
    Covered ⟨p', s.remember c reply⟩ := by
  intro x hx
  by_cases hgranted : reply.granted? = some x
  · obtain ⟨n, hn, hsize⟩ := hmakes.requested_le hsound hgranted
    exact ⟨n, hn, (remember_granted hgranted).trans_le hsize⟩
  · obtain ⟨hin, hkept⟩ := hmakes.preserves hsound hx hgranted
    obtain ⟨n, hn, hsize⟩ := hcovered x hin
    exact ⟨n, (hkept x rfl n hn).1, (remember_of_ne hgranted).trans_le hsize⟩

theorem Reachable.covered (hreach : s.Reachable) : s.Covered := by
  induction hreach with
  | start => exact fun x hx => absurd hx (Set.notMem_empty x)
  | call hreach _ hmakes ih =>
      obtain ⟨spans, foreign, horderly⟩ := hreach.process.orderly
      exact ih.call hmakes horderly.sound
  | drift hreach hdrifts ih =>
      obtain ⟨spans, foreign, horderly⟩ := hreach.process.orderly
      intro x hx
      have hin : x ∈ _ := hdrifts.heap_eq.2.1 ▸ hx
      obtain ⟨n, hn, hsize⟩ := ih x hin
      exact ⟨n, hdrifts.preserves horderly.sound x hin n hn, hsize⟩

theorem Reachable.neverFails_eq (hreach : s.Reachable) :
    s.process.heap.build.neverFails = false := by
  induction hreach with
  | @start build hbuild k hvalid =>
      cases build with
      | neverFailing => exact absurd rfl hbuild
      | _ => rfl
  | call hreach _ hmakes ih =>
      obtain ⟨spans, foreign, horderly⟩ := hreach.process.orderly
      exact (hmakes.build_eq horderly.sound).symm ▸ ih
  | drift _ hdrifts ih =>
      obtain ⟨k, hheap⟩ := hdrifts.heap_eq.1
      rw [hheap]
      exact ih

/-- A client that keeps the rules gives no cause to end the process but that a lock is held. -/
theorem Reachable.lockEnds {e : Ending} (hreach : s.Reachable) (hkeeps : s.Keeps t c)
    (hends : s.process.heap.LockEnds e ∨ ∃ r, c = .request r ∧ s.process.heap.ServeEnds r e) :
    s.process.heap.LockEnds e := by
  rcases hends with hlock | ⟨r, rfl, hends⟩
  · exact hlock
  · cases hends with
    | stuck hends =>
        refine hends.resolve_right fun hout => ?_
        have hnever := hout.1
        rw [hreach.neverFails_eq] at hnever
        cases hnever
    | @claim x n size hpassed hclaims hn hlt =>
        -- The size that is claimed was asked for, and the allocation is as large as that.
        obtain ⟨n', hn', hsize⟩ := hreach.covered x (hkeeps.permits x hpassed)
        obtain rfl := hn.unique hn'
        have hasked := hkeeps.claims r x size rfl hpassed hclaims
        omega
    | shrink hrequest hlt =>
        have hgrows := hkeeps.grows _ _ _ (congrArg HeapCall.request hrequest)
        omega

/-- A call of a client that keeps the rules is answered, or it waits while the fallback cache is on
loan where threads share the allocator. -/
theorem Reachable.goes_on (hreach : s.Reachable) (hkeeps : s.Keeps t c) :
    (∃ reply h, c.run t s.process.heap = .ok reply h) ∨
      (∃ h, c.run t s.process.heap = .error .stalled h) ∧
        s.process.heap.build.threading = .shared ∧ ∃ u, (u, Loan.fallback) ∈ s.process.loans := by
  obtain ⟨spans, foreign, horderly⟩ := hreach.process.orderly
  have hensures := Process.ensures_call horderly.sound hkeeps.permits
  cases hrun : c.run t s.process.heap with
  | ok reply h => exact .inl ⟨reply, h, rfl⟩
  | error e h =>
      obtain ⟨hneeds, hends⟩ := hensures.of_error hrun
      obtain ⟨hheld, rfl⟩ := hreach.lockEnds hkeeps hends
      obtain ⟨u, hlent⟩ := hreach.process.keepsLoans.exists_loan hheld
      cases hthreading : s.process.heap.build.threading with
      | shared => exact .inr ⟨⟨h, rfl⟩, rfl, u, hlent⟩
      | exclusive =>
          rw [hkeeps.alone hthreading hneeds] at hlent
          cases hlent

/-- A client that asked for a hundred bytes claims as many when another thread frees them. -/
theorem goes_on_claim : ∃ s : Client, s.Reachable ∧ 0x200000007080 ∈ s.process.live ∧
    s.asked 0x200000007080 = 100 ∧
    ∃ reply h, HeapCall.run 1 (.request (.reclaimSized (some 0x200000007080) 100))
      s.process.heap = .ok reply h := by
  obtain ⟨p, hp⟩ : ∃ p, p = Process.new .standard (.boot 8 none) := ⟨_, rfl⟩
  have hstart : Reachable ⟨p, fun _ => 0⟩ := by
    rw [hp]
    refine .start (by decide) (Kernel.valid_boot (by decide) ?_)
    exact fun _ hnone => by cases hnone
  have hfirst : p.granted? 0 (.malloc 100) = some 0x200000007080 := by
    rw [hp]
    decide +kernel
  have hloans : (p.serve 0 (.malloc 100)).loans = [] := by
    rw [hp]
    decide +kernel
  obtain ⟨reply, hgranted, hmakes⟩ := Process.Makes.of_granted (Process.passed_malloc _ 100) hfirst
  have hasks : Keeps ⟨p, fun _ => 0⟩ 0 (.request (.malloc 100)) :=
    { permits := Process.passed_malloc _ 100
      claims := fun r x size hrequest hpassed => by
        obtain rfl := HeapCall.request.inj hrequest
        cases hpassed
      grows := fun _ _ _ hrequest => by cases hrequest
      alone := fun _ _ => by
        rw [hp]
        rfl }
  have hreach := hstart.call hasks hmakes
  have hlive := Process.mem_live_serve hfirst
  have hasked : remember ⟨p, fun _ => 0⟩ (.request (.malloc 100)) reply 0x200000007080 = 100 :=
    remember_granted hgranted
  have hfrees : Keeps ⟨_, remember ⟨p, fun _ => 0⟩ (.request (.malloc 100)) reply⟩ 1
      (.request (.reclaimSized (some 0x200000007080) 100)) :=
    { permits := fun x hpassed => by
        obtain rfl := Option.some.inj hpassed
        exact hlive
      claims := fun r x size hrequest hpassed hclaims => by
        obtain rfl := HeapCall.request.inj hrequest
        obtain rfl := Option.some.inj hpassed
        obtain rfl := Option.some.inj hclaims
        exact Nat.le_of_eq hasked.symm
      grows := fun _ _ _ hrequest => by cases hrequest
      alone := fun _ _ => hloans }
  refine ⟨_, hreach, hlive, hasked, ?_⟩
  rcases hreach.goes_on hfrees with hanswers | ⟨-, -, u, hlent⟩
  · exact hanswers
  · rw [hloans] at hlent
    cases hlent

end Client
end PagedHeap
