import PagedHeap.Proofs.Page.Returning
import PagedHeap.Proofs.Process.Steps

/-!
# What a trim of the heap tells

A trim of the heap flushes the caches of blocks, and then trims the supplier.  Memory may go back in
both parts: pages that come home in a flush may have no room in the cache of ranges, and what the
trim evicts is surrendered, or sunk with the program break.

The answer is about what was surrendered in the second part.  If it is positive, memory went back;
if it is negative, memory may have gone back all the same, in the flush or with the break.
-/

namespace PagedHeap

open Ranges

/-- The caches were flushed, which left `flushed`, and then the supplier was trimmed; `early` are
the calls made by then, and `late` those made after.  The answer is whether bytes went back late,
other than by lowering the break. -/
structure Heap.TrimTells (h flushed : Heap) (early late : List Call) (answer : Bool) (h' : Heap) :
    Prop where
  early_eq : flushed.kernel.calls = early ++ h.kernel.calls
  late_eq : h'.kernel.calls = late ++ flushed.kernel.calls
  answer_iff : answer = true ↔ ∃ call ∈ late, call.struck.Nonempty ∧ call.lowered = ∅

namespace Heap

variable {h h' flushed : Heap} {early late : List Call} {answer : Bool}
  {spans : Place → Category → List Span} {live foreign : Set Nat}

/-- Bytes went back if and only if the answer says so, or they did so early, or with the break. -/
theorem TrimTells.returned_iff (htells : h.TrimTells flushed early late answer h') :
    (∃ call ∈ late ++ early, call.struck.Nonempty) ↔
      answer = true ∨ (∃ call ∈ early, call.struck.Nonempty) ∨
        ∃ call ∈ late, call.lowered.Nonempty := by
  rw [htells.answer_iff]
  constructor
  · rintro ⟨call, hcall, hstruck⟩
    rcases List.mem_append.1 hcall with hlate | hearly
    · rcases call.lowered.eq_empty_or_nonempty with hnone | hlowered
      · exact .inl ⟨call, hlate, hstruck, hnone⟩
      · exact .inr (.inr ⟨call, hlate, hlowered⟩)
    · exact .inr (.inl ⟨call, hearly, hstruck⟩)
  · rintro (⟨call, hlate, hstruck, -⟩ | ⟨call, hearly, hstruck⟩ | ⟨call, hlate, hlowered⟩)
    · exact ⟨call, List.mem_append_left _ hlate, hstruck⟩
    · exact ⟨call, List.mem_append_right _ hearly, hstruck⟩
    · exact ⟨call, List.mem_append_left _ hlate, hlowered.mono call.lowered_subset_struck⟩

theorem Steady.calls_eq {spans' : Place → Category → List Span}
    (hsteady : h.Steady spans live foreign h' spans') :
    ∃ made, h'.kernel.calls = made ++ h.kernel.calls := by
  obtain ⟨made, htrail⟩ := hsteady.frames.keeps.trail
  exact ⟨made, htrail.calls⟩

theorem Sound.ensures_trimPages_tells (hsound : h.Sound spans live foreign) (pad : Nat) :
    Action.Ensures (trimPages pad) h
      (fun released h' => ∃ late, h'.kernel.calls = late ++ h.kernel.calls ∧
        (0 < released ↔ ∃ call ∈ late, call.struck.Nonempty ∧ call.lowered = ∅)) Action.never := by
  rw [trimPages, onLarge, Action.ensures_within, LargeHeap.trim, LargeHeap.ensures_onPages]
  show Action.Ensures (Paging.trim pad) h.paging _ _
  apply (hsound.large.paging.ensures_trimReturned pad).weaken
  rintro n q ⟨evicted, c, sunk, surrendered, made, -, hreturned, rfl, -⟩
  exact ⟨made, hreturned.calls, hreturned.surrenders_iff⟩

theorem Sound.ensures_trim_tells (hsound : h.Sound spans live foreign) (t pad : Nat) :
    Action.Ensures (trim t pad) h
      (fun answer h' => ∃ flushed early late, (do flushOwn t; flushFallback) h = .ok () flushed ∧
        h.TrimTells flushed early late answer h') (fun e _ => h.LockEnds e) := by
  rw [trim_eq, Action.ensures_bind]
  apply (hsound.ensures_flushes t).with_run.imp
  rintro _ flushed ⟨hrun, spans', hsteady⟩
  obtain ⟨early, hearly⟩ := hsteady.calls_eq
  simp only [Action.ensures_bind, ensures_logRecord]
  apply (hsteady.sound.ensures_trimPages_tells pad).weaken
  rintro released h₂ ⟨late, hlate, hreleased⟩
  refine .answer ⟨flushed, early, late, hrun, hearly, hlate, ?_⟩
  rw [decide_eq_true_iff]
  exact hreleased

end Heap

namespace Process

variable {p : Process}

/-- Whatever has happened in a process, the answer to a trim tells whether bytes were surrendered
when the supplier was trimmed. -/
theorem Reachable.trim_tells (hreach : p.Reachable) (t pad : Nat) :
    Action.Ensures (Heap.serve t (.trim pad)) p.heap
      (fun a h => ∃ answer flushed early late, a = .flag answer ∧
        (do Heap.flushOwn t; Heap.flushFallback) p.heap = .ok () flushed ∧
        p.heap.TrimTells flushed early late answer h ∧
        ((∃ call ∈ late ++ early, call.struck.Nonempty) ↔
          answer = true ∨ (∃ call ∈ early, call.struck.Nonempty) ∨
            ∃ call ∈ late, call.lowered.Nonempty))
      (fun e _ => p.heap.LockEnds e) := by
  obtain ⟨spans, foreign, horderly⟩ := hreach.orderly
  rw [Heap.serve, Action.ensures_map]
  apply (horderly.sound.ensures_trim_tells t pad).imp
  rintro answer h ⟨flushed, early, late, hrun, htells⟩
  exact ⟨answer, flushed, early, late, rfl, hrun, htells, htells.returned_iff⟩

/-- A small process with a supplier that moves the break. -/
def smallBreak : Process :=
  new .breakBacked (.boot 8 (some ⟨breakBase, breakBase + 8 * pageSize, breakBase⟩))

/-- A thread got a page and freed it. -/
def freedTop : Process :=
  (smallBreak.serve 0 (.malloc 4096)).serve 0 (.reclaim (some 0x100000000000))

theorem reachable_freedTop : freedTop.Reachable := by
  have hboot : smallBreak.Reachable := by
    refine .start .breakBacked (Kernel.valid_boot (by decide) fun b hb => ?_)
    cases hb
    decide
  have hgot : smallBreak.granted? 0 (.malloc 4096) = some 0x100000000000 := by decide +kernel
  refine (hboot.serve (passed_malloc _ 4096)).serve fun x hx => ?_
  obtain rfl := Option.some.inj hx
  exact mem_live_serve hgot

/-- The page goes back with the break, and the answer is negative. -/
theorem lowers_freedTop : Action.Ensures (Heap.serve 0 (.trim 0)) freedTop.heap
    (fun a h => a = .flag false ∧ Call.since freedTop.heap.kernel.calls h.kernel.calls =
      [.moveBreak (-4096) (some 0x100000001000)]) Action.never := by
  decide +kernel

theorem struck_moveBreak_nonempty :
    (Call.moveBreak (-4096) (some 0x100000001000)).struck.Nonempty :=
  ⟨0x100000000000, mem_bytesAt.2 (by decide)⟩

theorem trim_tells_freedTop : ∃ (h flushed : Heap) (early late : List Call), freedTop.Reachable ∧
    Heap.serve 0 (.trim 0) freedTop.heap = .ok (.flag false) h ∧
    freedTop.heap.TrimTells flushed early late false h ∧
    late ++ early = [.moveBreak (-4096) (some 0x100000001000)] := by
  obtain ⟨a, h, hok, rfl, hmade⟩ := lowers_freedTop.exists_ok
  have htells := (reachable_freedTop.trim_tells 0 0).of_ok hok
  obtain ⟨answer, flushed, early, late, hanswer, -, htells, -⟩ := htells
  obtain rfl := Answer.flag.inj hanswer
  refine ⟨h, flushed, early, late, reachable_freedTop, hok, htells, ?_⟩
  rw [← hmade, htells.late_eq, htells.early_eq, ← List.append_assoc, Call.since_append]

/-- The answer does not always tell whether memory went back. -/
theorem not_trim_truthful : ¬ ∀ p : Process, p.Reachable → ∀ t pad,
    Action.Ensures (Heap.serve t (.trim pad)) p.heap
      (fun a h => a = .flag true ↔
        ∃ call ∈ Call.since p.heap.kernel.calls h.kernel.calls, call.struck.Nonempty)
      (fun _ _ => True) := by
  intro hall
  obtain ⟨a, h, hok, rfl, hmade⟩ := lowers_freedTop.exists_ok
  have htruthful := (hall _ reachable_freedTop 0 0).of_ok hok
  rw [hmade] at htruthful
  have hflag := htruthful.2 ⟨_, List.mem_singleton_self _, struck_moveBreak_nonempty⟩
  exact absurd (Answer.flag.inj hflag) Bool.false_ne_true

end Process
end PagedHeap
