import PagedHeap.Machine
import PagedHeap.Proofs.Kernel.Moves
import PagedHeap.Proofs.Page.Descents
import PagedHeap.Proofs.Page.Supplier

/-!
# How evicted ranges go back

Ranges that leave the cache go back to the kernel in one of two ways.  Some are sunk: the program
break is lowered over them.  The others are surrendered one by one: they are unmapped, or their
content is discarded.  Only the latter are counted.

The record of calls tells which is which.
-/

namespace PagedHeap

/-- A call that gives memory back, or the content of memory. -/
def Call.returns : Call → Bool
  | unmap _ _ | advise _ _ .dontneed => true
  | moveBreak delta (some _) => decide (delta < 0)
  | mapAny _ _ _ | mapExact _ _ _ | remap _ _ _ _ | advise _ _ _ | moveBreak _ none => false

/-- The call that lowers the break over a range. -/
def Range.sinkCall (r : Range) : Call := .moveBreak (-(r.len : Int)) (some (r.address + r.len))

/-- The call that gives up a range by itself. -/
def Range.surrenderCall (r : Range) : Call :=
  if r.ofBreak then .advise r.address r.len .dontneed else .unmap r.address r.len

section Calls

variable {r : Range}

theorem Range.returns_sinkCall (hpos : 0 < r.len) : r.sinkCall.returns = true :=
  decide_eq_true (show -(r.len : Int) < 0 by omega)

theorem Range.gained_sinkCall (r : Range) : r.sinkCall.gained = ∅ := Call.gained_moveBreak_down _ _

theorem Range.lowered_sinkCall (r : Range) : r.sinkCall.lowered = r.bytes := by
  rw [sinkCall, Call.lowered_moveBreak_down (Nat.le_add_left _ _), Nat.add_sub_cancel]
  rfl

theorem Range.returns_surrenderCall (r : Range) : r.surrenderCall.returns = true := by
  unfold surrenderCall
  split
  · rfl
  · rfl

theorem Range.gained_surrenderCall (r : Range) : r.surrenderCall.gained = ∅ := by
  unfold surrenderCall
  split
  · rfl
  · rfl

theorem Range.lowered_surrenderCall (r : Range) : r.surrenderCall.lowered = ∅ := by
  unfold surrenderCall
  split
  · rfl
  · rfl

theorem Range.struck_surrenderCall (r : Range) : r.surrenderCall.struck = r.bytes := by
  unfold surrenderCall
  split
  · rfl
  · rfl

/-- A call that strikes bytes gives them back. -/
theorem Call.returns_of_struck {call : Call} (h : call.struck.Nonempty) : call.returns = true := by
  cases call with
  | unmap address len => rfl
  | advise address len advice =>
      cases advice with
      | dontneed => rfl
      | huge => exact absurd h Set.not_nonempty_empty
      | nohuge => exact absurd h Set.not_nonempty_empty
  | moveBreak delta answer =>
      cases answer with
      | none => exact absurd h Set.not_nonempty_empty
      | some current =>
          obtain ⟨x, hx⟩ := h
          have hlowered : x ∈ bytesAt (current + delta).toNat (-delta).toNat := hx
          rw [mem_bytesAt] at hlowered
          exact decide_eq_true (by omega)
  | mapAny hint len answer => exact absurd h Set.not_nonempty_empty
  | mapExact address len answer => exact absurd h Set.not_nonempty_empty
  | remap address old new done => exact absurd h Set.not_nonempty_empty

end Calls

namespace Paging

open Ranges

/-- The break was tried to be lowered over each of some ranges in turn.  It was lowered over those
of `sunk`, and `remaining` are the others. -/
structure Sinks (p : Paging) (ranges sunk remaining : List Range) (moves : List Call) (q : Paging) :
    Prop where
  perm : ranges.Perm (sunk ++ remaining)
  order : sunk.Sublist ranges
  descends : Descends p.kernel.programBreak sunk q.kernel.programBreak
  supplier : q.supplier = { p.supplier with region := q.supplier.region }
  region : p.supplier.region.stop = p.kernel.programBreak →
    q.supplier.region.stop = q.kernel.programBreak
  calls : q.kernel.calls = moves ++ p.kernel.calls
  returns : moves.filter Call.returns = (sunk.map Range.sinkCall).reverse
  gained : ∀ call ∈ moves, call.gained = ∅
  failures : q.kernel.breakFailures.count ≤ p.kernel.breakFailures.count
  refused : ∀ delta, .moveBreak delta none ∈ moves → 0 < p.kernel.breakFailures.count
  eager : p.supplier.region.stop = p.kernel.programBreak →
    (∀ delta, .moveBreak delta none ∉ moves) → sunk = sinking p.kernel.programBreak ranges

/-- Evicted ranges went back to the kernel: over those of `sunk` the break was lowered, and those of
`surrendered` were unmapped, or discarded if they are break memory.  Among the calls `made` no other
gave anything back. -/
structure Returned (p : Paging) (evicted sunk surrendered : List Range) (made : List Call)
    (q : Paging) : Prop where
  tidy : Tidy evicted
  perm : evicted.Perm (sunk ++ surrendered)
  order : sunk.Sublist evicted
  descends : Descends p.kernel.programBreak sunk q.kernel.programBreak
  kernelMaps : q.supplier.kernelMaps = p.supplier.kernelMaps
  kernelUnmaps : q.supplier.kernelUnmaps =
    p.supplier.kernelUnmaps + UInt64.ofNat surrendered.length
  calls : q.kernel.calls = made ++ p.kernel.calls
  returns : made.filter Call.returns =
    (surrendered.map Range.surrenderCall).reverse ++ (sunk.map Range.sinkCall).reverse
  gained : ∀ call ∈ made, call.gained = ∅
  refused : ∀ delta, .moveBreak delta none ∈ made → 0 < p.kernel.breakFailures.count
  longest : p.supplier.region.stop = p.kernel.programBreak →
    (∀ delta, .moveBreak delta none ∉ made) → Longest p.kernel.programBreak evicted sunk

variable {p p' p'' q : Paging} {out : Set Nat} {lent : Nat} {pending : List Range} {r : Range}
  {ranges ranges' sunk sunk' remaining remaining' : List Range} {moves moves' : List Call}

/-! ## Lowering the break -/

/-- Nothing was to be tried. -/
theorem Sinks.refl (p : Paging) : p.Sinks [] [] [] [] p where
  perm := .refl _
  order := .refl _
  descends := rfl
  supplier := rfl
  region htop := htop
  calls := rfl
  returns := rfl
  gained _ hcall := absurd hcall List.not_mem_nil
  failures := Nat.le_refl _
  refused _ hcall := absurd hcall List.not_mem_nil
  eager _ _ := rfl

/-- One attempt after the other. -/
theorem Sinks.append (h : p.Sinks ranges sunk remaining moves p')
    (h' : p'.Sinks ranges' sunk' remaining' moves' q) :
    p.Sinks (ranges ++ ranges') (sunk ++ sunk') (remaining ++ remaining') (moves' ++ moves) q where
  perm := by
    refine (h.perm.append h'.perm).trans ?_
    rw [List.append_assoc, List.append_assoc]
    exact (List.perm_append_comm_assoc remaining sunk' remaining').append_left sunk
  order := h.order.append h'.order
  descends := h.descends.append h'.descends
  supplier := by rw [h'.supplier, h.supplier]
  region htop := h'.region (h.region htop)
  calls := by rw [h'.calls, h.calls, List.append_assoc]
  returns := by
    rw [List.filter_append, h.returns, h'.returns, List.map_append, List.reverse_append]
  gained call hcall := (List.mem_append.1 hcall).elim (h'.gained call) (h.gained call)
  failures := Nat.le_trans h'.failures h.failures
  refused delta hcall := by
    rcases List.mem_append.1 hcall with hcall | hcall
    · exact Nat.lt_of_lt_of_le (h'.refused delta hcall) h.failures
    · exact h.refused delta hcall
  eager htop hnone := by
    have hfirst := h.eager htop fun delta hcall => hnone delta (List.mem_append_right _ hcall)
    have hsecond := h'.eager (h.region htop) fun delta hcall =>
      hnone delta (List.mem_append_left _ hcall)
    have hdescends := h.descends
    rw [hfirst] at hdescends
    rw [sinking_append hdescends, ← hfirst, ← hsecond]

/-- The break was not moved, since the range does not end at it. -/
theorem sinks_untried (hnot : p.supplier.region.stop = p.kernel.programBreak →
    ¬(r.ofBreak = true ∧ r.address + r.len = p.kernel.programBreak)) :
    p.Sinks [r] [] [r] [] p where
  perm := .refl _
  order := List.nil_sublist _
  descends := rfl
  supplier := rfl
  region htop := htop
  calls := rfl
  returns := rfl
  gained _ hcall := absurd hcall List.not_mem_nil
  failures := Nat.le_refl _
  refused _ hcall := absurd hcall List.not_mem_nil
  eager htop _ := by
    rw [sinking, if_neg (hnot htop)]
    rfl

/-- The kernel refused to move the break. -/
theorem Holding.sinks_refused (h : Holding p out lent (r :: pending)) (hkind : r.ofBreak = true)
    (htop : r.address + r.len = p.kernel.programBreak)
    (hnone : (p.kernel.moveBreak (-(r.len : Int))).1 = none) :
    p.Sinks [r] [] [r] [.moveBreak (-(r.len : Int)) none]
      { p with kernel := (p.kernel.moveBreak (-(r.len : Int))).2 } := by
  have hpos := (h.proper List.mem_cons_self).len_pos
  have hdelta : -(r.len : Int) ≠ 0 := by omega
  have hcalls := p.kernel.calls_moveBreak hdelta
  rw [hnone] at hcalls
  have hbreak := Kernel.programBreak_congr (Kernel.moveBreak_refused hdelta hnone).1
  -- The range is in use, so the break could have been moved to its start.
  have hmem : r.address ∈ r.bytes := mem_bytesAt_self r.address hpos
  have hused : r.address ∈ p.kernel.inUse :=
    h.used (.inr (bytes_subset_of_mem (List.mem_append_left _ List.mem_cons_self) hmem))
  have hlow : r.address < arenaBase :=
    h.honest.below r (List.mem_append_left _ List.mem_cons_self) hkind _ hmem
  have hbottom : p.kernel.programBreak - r.len = r.address := by omega
  refine ⟨.refl _, List.nil_sublist _, hbreak, rfl, fun hstop => ?_, hcalls, rfl, ?_,
    Kernel.count_moveBreak_le _ _, fun _ _ => ?_, fun _ hmoved => ?_⟩
  · exact hstop.trans hbreak.symm
  · intro call hcall
    rw [List.mem_singleton.1 hcall]
    rfl
  · rw [← hbottom] at hused hlow
    exact h.kernel.count_pos_of_refused hpos hused hlow hnone
  · exact absurd List.mem_cons_self (hmoved _)

/-- The break was lowered over the range. -/
theorem sinks_moved {old : Nat} (hpos : 0 < r.len) (hkind : r.ofBreak = true)
    (htop : r.address + r.len = p.kernel.programBreak)
    (hsome : (p.kernel.moveBreak (-(r.len : Int))).1 = some old) :
    p.Sinks [r] [r] [] [r.sinkCall] ⟨(p.kernel.moveBreak (-(r.len : Int))).2,
      { p.supplier with region := { p.supplier.region with stop := r.address } }⟩ := by
  have hdelta : -(r.len : Int) ≠ 0 := by omega
  obtain ⟨rfl, hmoved⟩ := Kernel.moveBreak_moved hdelta hsome
  have hbottom : r.address = (p.kernel.moveBreak (-(r.len : Int))).2.programBreak := by omega
  have hcalls := p.kernel.calls_moveBreak hdelta
  rw [hsome, ← htop] at hcalls
  refine ⟨.refl _, .refl _, ⟨hkind, htop, hbottom.symm⟩, rfl, fun _ => hbottom, hcalls, ?_, ?_,
    Kernel.count_moveBreak_le _ _, fun delta hcall => ?_, fun _ _ => ?_⟩
  · rw [List.filter_cons_of_pos (Range.returns_sinkCall hpos)]
    rfl
  · intro call hcall
    rw [List.mem_singleton.1 hcall]
    exact r.gained_sinkCall
  · exact absurd (List.mem_singleton.1 hcall) (by simp [Range.sinkCall])
  · rw [sinking, if_pos ⟨hkind, htop⟩]
    rfl

theorem Holding.ensures_sinks_one (h : Holding p out lent (r :: pending)) :
    Action.Ensures (lowerBreakOver r) p
      (fun dropped q => ∃ moves, p.Sinks [r] (if dropped = true then [r] else [])
        (if dropped = true then [] else [r]) moves q) Action.never := by
  have hproper := h.proper List.mem_cons_self
  simp only [lowerBreakOver, Action.ensures_ite]
  split
  · rename_i hkind
    simp only [hproper.stop?_eq, Action.ensures_bind, Action.ensures_checked_some,
      Action.ensures_get, ensures_programBreak, Action.ensures_ite]
    split
    · rename_i htop
      have hbreak : r.address + r.len = p.kernel.programBreak := htop.1.trans htop.2.symm
      simp only [dropBreak, moveBreak, Action.ensures_bind, ensures_call]
      cases hmove : (p.kernel.moveBreak (-(r.len : Int))).1 with
      | none => exact .answer ⟨_, h.sinks_refused hkind hbreak hmove⟩
      | some old =>
          simp only [ensures_update, Action.ensures_bind, Action.ensures_pure]
          exact ⟨_, sinks_moved hproper.len_pos hkind hbreak hmove⟩
    · rename_i htop
      exact .answer ⟨_, sinks_untried fun hstop hends =>
        htop ⟨hends.2.trans hstop.symm, hstop.symm⟩⟩
  · rename_i hkind
    exact .answer ⟨_, sinks_untried fun _ hends => hkind hends.1⟩

/-- The break is lowered over some of the ranges, in their order. -/
theorem Holding.ensures_sinks {ranges : List Range} (h : Holding p out lent (pending ++ ranges)) :
    Action.Ensures (shrinkBreak ranges) p
      (fun remaining q => ∃ sunk moves, p.Sinks ranges sunk remaining moves q) Action.never := by
  -- A range that remains waits with the pending ones while the rest is tried.
  induction ranges generalizing p pending with
  | nil => exact .answer ⟨[], [], .refl p⟩
  | cons r rest ih =>
      have hfirst := h.perm List.perm_middle
      simp only [shrinkBreak, Action.ensures_bind]
      apply (hfirst.ensures_lowerBreakOver.and hfirst.ensures_sinks_one).mono _
        fun _ _ hends => hends.1
      rintro dropped p₁ ⟨⟨-, hholding⟩, moves, hsinks⟩
      cases dropped with
      | true =>
          apply (ih hholding).weaken
          rintro remaining q ⟨sunk, moves', hsinks'⟩
          exact ⟨_, _, hsinks.append hsinks'⟩
      | false =>
          have hkept : Holding p₁ out lent ((r :: pending) ++ rest) := hholding
          simp only [Bool.false_eq_true, if_false, Action.ensures_bind, Action.ensures_pure]
            at hsinks ⊢
          apply (ih hkept).weaken
          rintro remaining q ⟨sunk, moves', hsinks'⟩
          exact ⟨_, _, hsinks.append hsinks'⟩

/-! ## Surrendering -/

/-- Ranges were surrendered and counted one by one. -/
structure Surrenders (p : Paging) (ranges : List Range) (q : Paging) : Prop where
  supplier : q.supplier =
    { p.supplier with kernelUnmaps := p.supplier.kernelUnmaps + UInt64.ofNat ranges.length }
  calls : q.kernel.calls = (ranges.map Range.surrenderCall).reverse ++ p.kernel.calls
  programBreak : q.kernel.programBreak = p.kernel.programBreak

theorem Surrenders.append (h : p.Surrenders ranges p') (h' : p'.Surrenders ranges' q) :
    p.Surrenders (ranges ++ ranges') q where
  supplier := by
    rw [h'.supplier, h.supplier, List.length_append, UInt64.ofNat_add, ← UInt64.add_assoc]
  calls := by
    rw [h'.calls, h.calls, List.map_append, List.reverse_append, List.append_assoc]
  programBreak := h'.programBreak.trans h.programBreak

theorem ensures_surrenders_one (p : Paging) (r : Range) :
    Action.Ensures (release r) p (fun _ q => p.Surrenders [r] q) Action.never := by
  simp only [release, surrender, countUnmap, Action.ensures_bind, Action.ensures_ite]
  split
  · rename_i hkind
    simp only [advise, ensures_call, ensures_update]
    refine ⟨rfl, ?_, rfl⟩
    rw [List.map_singleton, Range.surrenderCall, if_pos hkind]
    rfl
  · rename_i hkind
    simp only [unmap, ensures_call, ensures_update]
    refine ⟨rfl, ?_, rfl⟩
    rw [List.map_singleton, Range.surrenderCall, if_neg hkind]
    rfl

theorem ensures_surrenders (p : Paging) (ranges : List Range) :
    Action.Ensures (releaseAll ranges) p (fun _ q => p.Surrenders ranges q) Action.never := by
  induction ranges generalizing p with
  | nil =>
      refine .answer ⟨?_, rfl, rfl⟩
      show p.supplier = { p.supplier with kernelUnmaps := p.supplier.kernelUnmaps + 0 }
      rw [UInt64.add_zero]
  | cons r rest ih =>
      simp only [releaseAll, Action.ensures_bind]
      apply (ensures_surrenders_one p r).weaken
      intro _ p₁ hfirst
      apply (ih p₁).weaken
      exact fun _ q hrest => hfirst.append hrest

/-! ## Going back -/

/-- Before anything goes back, ranges leave the cache, the books change, and advice may be given. -/
structure Readies (p : Paging) (advice : List Call) (q : Paging) : Prop where
  region : q.supplier.region = p.supplier.region
  kernelMaps : q.supplier.kernelMaps = p.supplier.kernelMaps
  kernelUnmaps : q.supplier.kernelUnmaps = p.supplier.kernelUnmaps
  programBreak : q.kernel.programBreak = p.kernel.programBreak
  failures : q.kernel.breakFailures = p.kernel.breakFailures
  calls : q.kernel.calls = advice ++ p.kernel.calls
  harmless : ∀ call ∈ advice, ∃ address len, call = .advise address len .nohuge

variable {advice : List Call}

theorem readies_withCache (p : Paging) (c : RangeCache) : p.Readies [] (p.withCache c) where
  region := rfl
  kernelMaps := rfl
  kernelUnmaps := rfl
  programBreak := rfl
  failures := rfl
  calls := rfl
  harmless _ hcall := absurd hcall List.not_mem_nil

theorem Readies.withCache (h : p.Readies advice q) (c : RangeCache) :
    p.Readies advice (q.withCache c) :=
  ⟨h.region, h.kernelMaps, h.kernelUnmaps, h.programBreak, h.failures, h.calls, h.harmless⟩

/-- Whatever is called is a surrender, a move of the break, or advice. -/
theorem Readies.mem_made (h : p.Readies advice p') {surrendered : List Range} {call : Call}
    (hcall : call ∈ (surrendered.map Range.surrenderCall).reverse ++ (moves ++ advice)) :
    (∃ r : Range, call = r.surrenderCall) ∨ call ∈ moves ∨
      ∃ address len, call = .advise address len .nohuge := by
  rcases List.mem_append.1 hcall with hcall | hcall
  · obtain ⟨r, -, rfl⟩ := List.mem_map.1 (List.mem_reverse.1 hcall)
    exact .inl ⟨r, rfl⟩
  · exact .inr ((List.mem_append.1 hcall).imp_right (h.harmless call))

/-- Ranges that had left the cache were sunk where that was possible, and surrendered otherwise. -/
theorem Readies.returned {evicted surrendered : List Range} (h : p.Readies advice p')
    (hsinks : p'.Sinks evicted sunk surrendered moves p'')
    (hsurrenders : p''.Surrenders surrendered q) (htidy : Tidy evicted) :
    p.Returned evicted sunk surrendered
      ((surrendered.map Range.surrenderCall).reverse ++ (moves ++ advice)) q where
  tidy := htidy
  perm := hsinks.perm
  order := hsinks.order
  descends := by
    rw [hsurrenders.programBreak, ← h.programBreak]
    exact hsinks.descends
  kernelMaps := by rw [hsurrenders.supplier, hsinks.supplier, ← h.kernelMaps]
  kernelUnmaps := by rw [hsurrenders.supplier, hsinks.supplier, ← h.kernelUnmaps]
  calls := by rw [hsurrenders.calls, hsinks.calls, h.calls, List.append_assoc, List.append_assoc]
  returns := by
    have hall : (surrendered.map Range.surrenderCall).reverse.filter Call.returns =
        (surrendered.map Range.surrenderCall).reverse := by
      rw [List.filter_eq_self]
      intro call hcall
      obtain ⟨r, -, rfl⟩ := List.mem_map.1 (List.mem_reverse.1 hcall)
      exact r.returns_surrenderCall
    have hnone : advice.filter Call.returns = [] := by
      rw [List.filter_eq_nil_iff]
      intro call hcall
      obtain ⟨address, len, rfl⟩ := h.harmless call hcall
      exact Bool.false_ne_true
    rw [List.filter_append, List.filter_append, hall, hnone, hsinks.returns, List.append_nil]
  gained call hcall := by
    rcases h.mem_made hcall with ⟨r, rfl⟩ | hmove | ⟨address, len, rfl⟩
    · exact r.gained_surrenderCall
    · exact hsinks.gained call hmove
    · rfl
  refused delta hcall := by
    rw [← h.failures]
    rcases h.mem_made hcall with ⟨r, heq⟩ | hmove | ⟨address, len, heq⟩
    · have hreturns := r.returns_surrenderCall
      rw [← heq] at hreturns
      exact absurd hreturns Bool.false_ne_true
    · exact hsinks.refused delta hmove
    · cases heq
  longest htop hnone := by
    rw [← h.region, ← h.programBreak] at htop
    rw [← h.programBreak, hsinks.eager htop fun delta hcall => hnone delta
      (List.mem_append_right _ (List.mem_append_left _ hcall))]
    exact longest_sinking htidy _

/-- Ranges were surrendered if bytes went back other than by lowering the break. -/
theorem Returned.surrenders_iff {evicted surrendered : List Range} {made : List Call}
    (h : p.Returned evicted sunk surrendered made q) :
    0 < total surrendered ↔ ∃ call ∈ made, call.struck.Nonempty ∧ call.lowered = ∅ := by
  have hproper : ∀ r ∈ sunk ++ surrendered, r.Proper := fun r hr =>
    h.tidy.proper r (h.perm.symm.subset hr)
  constructor
  · intro hpos
    cases surrendered with
    | nil => exact absurd hpos (Nat.lt_irrefl 0)
    | cons r rest =>
        have hmade : r.surrenderCall ∈ made.filter Call.returns := by
          rw [h.returns]
          exact List.mem_append_left _ (List.mem_reverse.2 List.mem_cons_self)
        have hlen := (hproper r (List.mem_append_right _ List.mem_cons_self)).len_pos
        refine ⟨_, (List.mem_filter.1 hmade).1, ?_, r.lowered_surrenderCall⟩
        rw [r.struck_surrenderCall]
        exact ⟨_, mem_bytesAt_self r.address hlen⟩
  · intro hcall
    obtain ⟨call, hmade, hstruck, hlowered⟩ := hcall
    have hin := List.mem_filter.2 ⟨hmade, Call.returns_of_struck hstruck⟩
    rw [h.returns] at hin
    rcases List.mem_append.1 hin with hin | hin
    · obtain ⟨r, hr, -⟩ := List.mem_map.1 (List.mem_reverse.1 hin)
      have hlen := (hproper r (List.mem_append_right _ hr)).len_pos
      obtain ⟨before, after, rfl⟩ := List.append_of_mem hr
      rw [total_append, total_cons]
      omega
    · -- A range over which the break was lowered is not empty.
      obtain ⟨r, hr, rfl⟩ := List.mem_map.1 (List.mem_reverse.1 hin)
      have hlen := (hproper r (List.mem_append_left _ hr)).len_pos
      rw [r.lowered_sinkCall] at hlowered
      have hmem : r.address ∈ r.bytes := mem_bytesAt_self r.address hlen
      rw [hlowered] at hmem
      exact absurd hmem (Set.notMem_empty _)

/-- What is evicted goes back to the kernel, one way or the other. -/
theorem Holding.ensures_returned {evicted : List Range} (h : Holding p' out lent evicted)
    (hreadies : p.Readies advice p') :
    Action.Ensures (do releaseAll (← shrinkBreak evicted)) p'
      (fun _ q => (∃ sunk surrendered made, p.Returned evicted sunk surrendered made q) ∧
        q.supplier.cache = p'.supplier.cache) Action.never := by
  have hall : Holding p' out lent ([] ++ evicted) := h
  have htidy := (tidy_append.1 h.tidy).1
  simp only [Action.ensures_bind]
  apply hall.ensures_sinks.weaken
  rintro surrendered p₁ ⟨sunk, moves, hsinks⟩
  apply (ensures_surrenders p₁ surrendered).weaken
  intro _ q hsurrenders
  refine ⟨⟨_, _, _, hreadies.returned hsinks hsurrenders htidy⟩, ?_⟩
  rw [hsurrenders.supplier, hsinks.supplier]

/-- Nothing goes back before ranges are evicted for what is handed back. -/
theorem ensures_readies (p : Paging) (address size : Nat) (opts : ReclaimOptions) :
    Action.Ensures (do
        countReturned size
        Action.onlyIf opts.noHuge (advise address size .nohuge)) p
      (fun _ q => ∃ advice, p.Readies advice q ∧ q.supplier.cache = p.supplier.cache)
      Action.never := by
  simp only [countReturned, Action.ensures_bind, ensures_update]
  rw [Action.ensures_onlyIf]
  split
  · simp only [advise, ensures_call]
    refine ⟨[.advise address size .nohuge], ⟨rfl, rfl, rfl, rfl, rfl, rfl, ?_⟩, trivial⟩
    exact fun call hcall => ⟨address, size, List.mem_singleton.1 hcall⟩
  · exact ⟨[], ⟨rfl, rfl, rfl, rfl, rfl, rfl, fun _ hcall => absurd hcall List.not_mem_nil⟩, rfl⟩

end Paging

/-- The bytes that a request passes. -/
def PageRequest.passed : PageRequest → Set Nat
  | .reclaim address size _ => bytesAt address size
  | .allocate _ | .extend _ _ _ | .trim _ | .look => ∅

/-- What leaves the cache for a request, as the cache does it. -/
def PageRequest.eviction? (p : Paging) : PageRequest → Option (Action RangeCache (List Range))
  | .reclaim address size opts => some (RangeCache.takeIn
      ⟨address, size, opts.clean, p.supplier.region.contains address⟩ opts)
  | .trim pad => some (RangeCache.evictDownTo pad [])
  | .allocate _ | .extend _ _ _ | .look => none

namespace Paging

open Ranges

variable {p : Paging} {out : Set Nat} {lent : Nat}

/-- Ranges were evicted and went back to the kernel. -/
def GivesBack (p : Paging) (evict : Action RangeCache (List Range)) (q : Paging) : Prop :=
  ∃ evicted c sunk surrendered made, evict p.supplier.cache = .ok evicted c ∧
    p.Returned evicted sunk surrendered made q

theorem foldr_len (ranges : List Range) :
    ranges.foldr (fun r bytes => r.len + bytes) 0 = total ranges := by
  rw [total, List.sum_eq_foldr, List.foldr_map]

/-- A trim evicts what is too much, and answers how many bytes of that it surrendered. -/
theorem Sound.ensures_trimReturned (h : Sound p out lent) (pad : Nat) :
    Action.Ensures (trim pad) p
      (fun n q => ∃ evicted c sunk surrendered made,
        RangeCache.evictDownTo pad [] p.supplier.cache = .ok evicted c ∧
          p.Returned evicted sunk surrendered made q ∧ n = total surrendered ∧
          q.supplier.cache = c ∧ p.supplier.cache.Evictions pad evicted c)
      Action.never := by
  simp only [trim, Action.ensures_bind, ensures_onCache]
  apply (h.ensures_evictDownTo pad).with_run.weaken
  rintro evicted c ⟨hrun, hevicted, hevictions⟩
  have hall : Holding (p.withCache c) out lent ([] ++ evicted) := hevicted
  apply hall.ensures_sinks.weaken
  rintro surrendered p₁ ⟨sunk, moves, hsinks⟩
  apply (ensures_surrenders p₁ surrendered).weaken
  intro _ q hsurrenders
  refine .answer ⟨_, c, _, _, _, hrun,
    (readies_withCache p c).returned hsinks hsurrenders (tidy_append.1 hevicted.tidy).1, ?_, ?_⟩
  · exact foldr_len surrendered
  · rw [hsurrenders.supplier, hsinks.supplier]
    exact ⟨rfl, hevictions⟩

/-- What is handed back finds room in the cache, or ranges are evicted for it and go back to the
kernel. -/
theorem Sound.ensures_reclaimReturned {address size : Nat} {opts : ReclaimOptions}
    (h : Sound p (out ∪ bytesAt address size) lent) (hapart : Disjoint out (bytesAt address size))
    (hpos : 0 < size) (haddress : address % pageSize = 0) (hsize : size % pageSize = 0)
    (hclean : opts.clean = true → ∀ x ∈ bytesAt address size, p.byteAt x = 0)
    (hlent : size ≤ lent) :
    Action.Ensures (reclaim address size opts) p
      (fun _ q => ∃ evicted c, RangeCache.takeIn
          ⟨address, size, opts.clean, p.supplier.region.contains address⟩ opts p.supplier.cache =
            .ok evicted c ∧
        (∃ sunk surrendered made, p.Returned evicted sunk surrendered made q) ∧
        q.supplier.cache = c ∧ p.supplier.cache.TakesIn
          ⟨address, size, opts.clean, p.supplier.region.contains address⟩ opts evicted c)
      Action.never := by
  rw [reclaim, Action.ensures_bind]
  apply Action.ensures_require (by simp [hpos, hsize, haddress, isPageMultiple])
  rw [← bind_assoc, Action.ensures_bind]
  apply ((h.ensures_handedBack opts hapart hlent).and
    (ensures_readies p address size opts)).mono _ fun _ _ hends => hends.1
  rintro _ p₁ ⟨⟨-, hmemory, hsound⟩, advice, hreadies, hcache⟩
  have hzero : opts.clean = true → ∀ x ∈ bytesAt address size, p₁.byteAt x = 0 := by
    intro hzeroed x hx
    rw [byteAt, hmemory]
    exact hclean hzeroed x hx
  simp only [Action.ensures_bind, Action.ensures_get, ensures_onCache]
  apply (hsound.ensures_takeIn hapart hpos haddress hsize hzero).with_run.weaken
  rintro evicted c ⟨hrun, hevicted, -, htakes⟩
  rw [← Action.ensures_bind]
  apply (hevicted.ensures_returned (hreadies.withCache c)).weaken
  rintro _ q ⟨hreturned, hkept⟩
  rw [hcache, hreadies.region] at hrun htakes
  exact ⟨evicted, c, hrun, hreturned, hkept, htakes⟩

end Paging
end PagedHeap
