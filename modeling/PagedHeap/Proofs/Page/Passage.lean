import PagedHeap.Page.Supplier
import PagedHeap.Proofs.Kernel.Calls
import PagedHeap.Proofs.Page.Ranges

/-!
# What is done on the way

While a page supplier serves a request it makes calls one after the other, and between them it
changes its books.  A passage tells the calls as they were made: none of them is directed at memory
that is to be kept, or at what the supplier has in its cache at that moment.

A passage says nothing about why the books changed or a call was made.  That the break is lowered
over evicted ranges only is a matter of the whole request.
-/

namespace PagedHeap
namespace Paging

open Ranges

/-- The cached ranges. -/
def cached (p : Paging) : List Range := p.supplier.cache.ranges

/-- What memory holds at an address. -/
def byteAt (p : Paging) (x : Nat) : UInt8 := p.kernel.memory.byteAt x

/-- The supplier with another cache. -/
def withCache (p : Paging) (c : RangeCache) : Paging :=
  { p with supplier := { p.supplier with cache := c } }

/-- The supplier made a call; it does not lower the break unless the supplier `sinks`. -/
structure Makes (p : Paging) (kept : Set Nat) (sinks : Prop) (call : Call) (p' : Paging) :
    Prop where
  supplier : p'.supplier = p.supplier
  calls : p'.kernel.calls = call :: p.kernel.calls
  inUse_eq : p'.kernel.inUse = p.kernel.inUse \ call.lost ∪ call.gained
  fresh : Disjoint call.gained p.kernel.inUse
  used : call.struck ⊆ p.kernel.inUse
  spares : Disjoint call.struck (kept ∪ bytes p.cached)
  stays : call.lowered = ∅ ∨ sinks

/-- What a supplier did from `p` on. -/
inductive Passage (p : Paging) (kept : Set Nat) (sinks : Prop) : Paging → Prop where
  | start : Passage p kept sinks p
  | quiet {q q' : Paging} (h : Passage p kept sinks q)
      (hcalls : q'.kernel.calls = q.kernel.calls) (huse : q'.kernel.inUse = q.kernel.inUse) :
      Passage p kept sinks q'
  | call {q q' : Paging} {call : Call} (h : Passage p kept sinks q)
      (hmakes : q.Makes kept sinks call q') : Passage p kept sinks q'

variable {p p' p'' : Paging} {kept kept' : Set Nat} {sinks sinks' : Prop} {call : Call}

theorem Makes.mono (h : p.Makes kept sinks call p') (hkept : kept' ⊆ kept) (himp : sinks → sinks') :
    p.Makes kept' sinks' call p' :=
  ⟨h.supplier, h.calls, h.inUse_eq, h.fresh, h.used,
    h.spares.mono_right (Set.union_subset_union_left _ hkept), h.stays.imp_right himp⟩

theorem Passage.mono (h : Passage p kept sinks p') (hkept : kept' ⊆ kept) (himp : sinks → sinks') :
    Passage p kept' sinks' p' := by
  induction h with
  | start => exact .start
  | quiet _ hcalls huse ih => exact .quiet ih hcalls huse
  | call _ hmakes ih => exact .call ih (hmakes.mono hkept himp)

/-- One passage after the other. -/
theorem Passage.append (h : Passage p kept sinks p') (h' : Passage p' kept sinks p'') :
    Passage p kept sinks p'' := by
  induction h' with
  | start => exact h
  | quiet _ hcalls huse ih => exact .quiet ih hcalls huse
  | call _ hmakes ih => exact .call ih hmakes

/-! ## The passage on record -/

/-- The record of a call that spared the others tells what is owned then. -/
theorem Makes.tells {others : Set Nat} {record : List Call} (h : p.Makes kept sinks call p')
    (hothers : others ⊆ kept) (htells : Call.Tells p.kernel others record) :
    Call.Tells p'.kernel others (call :: record) := by
  have hspared : ∀ x ∈ others, x ∉ call.lost := fun x hx hlost =>
    Set.disjoint_left.1 h.spares (call.lost_subset_struck hlost) (.inl (hothers hx))
  refine ⟨fun x hx => ?_, fun x => ?_, ?_, fun x hlost hbase => ?_, htells.lawful⟩
  · rw [h.inUse_eq]
    exact .inl ⟨htells.others_used hx, hspared x hx⟩
  · rw [h.inUse_eq]
    constructor
    · -- What was gained is fresh, so it is not with the others.
      intro hx
      rcases hx with ⟨hold, hlost⟩ | ⟨hnew, hbase⟩
      · obtain ⟨huse, hbase, hnot⟩ := (htells.mem_owned x).1 hold
        exact ⟨.inl ⟨huse, hlost⟩, hbase, hnot⟩
      · exact ⟨.inr hnew, hbase, fun hin =>
          Set.disjoint_left.1 h.fresh hnew (htells.others_used hin)⟩
    · intro hx
      obtain ⟨huse | hnew, hbase, hnot⟩ := hx
      · exact .inl ⟨(htells.mem_owned x).2 ⟨huse.1, hbase, hnot⟩, huse.2⟩
      · exact .inr ⟨hnew, hbase⟩
  · exact h.fresh.mono_right fun x hx => ((htells.mem_owned x).1 hx).1
  · have huse := h.used (call.lost_subset_struck hlost)
    exact (htells.mem_owned x).2 ⟨huse, hbase, fun hin => hspared x hin hlost⟩

theorem Passage.tells {others : Set Nat} (h : Passage p kept sinks p') (hothers : others ⊆ kept) :
    ∃ made, p'.kernel.calls = made ++ p.kernel.calls ∧
      ∀ record, Call.Tells p.kernel others record →
        Call.Tells p'.kernel others (made ++ record) := by
  induction h with
  | start => exact ⟨[], rfl, fun _ htells => htells⟩
  | quiet _ hcalls huse ih =>
      obtain ⟨made, hmade, htells⟩ := ih
      refine ⟨made, hcalls.trans hmade, fun record hbefore => ?_⟩
      obtain ⟨hused, howned, hlawful⟩ := htells record hbefore
      rw [← huse] at hused howned
      exact ⟨hused, howned, hlawful⟩
  | call _ hmakes ih =>
      obtain ⟨made, hmade, htells⟩ := ih
      refine ⟨_ :: made, ?_, fun record hbefore => hmakes.tells hothers (htells record hbefore)⟩
      rw [hmakes.calls, hmade]
      rfl

/-- What is kept stays in use, so none of the calls of a passage obtains any of it. -/
theorem Passage.gained_apart (h : Passage p kept sinks p') (hused : kept ⊆ p.kernel.inUse) :
    kept ⊆ p'.kernel.inUse ∧ ∃ made, p'.kernel.calls = made ++ p.kernel.calls ∧
      ∀ call ∈ made, Disjoint call.gained kept := by
  induction h with
  | start => exact ⟨hused, [], rfl, fun call hcall => absurd hcall List.not_mem_nil⟩
  | quiet _ hcalls huse ih =>
      obtain ⟨hstays, made, hmade, hapart⟩ := ih
      rw [← huse] at hstays
      exact ⟨hstays, made, hcalls.trans hmade, hapart⟩
  | @call q q' last _ hmakes ih =>
      obtain ⟨hstays, made, hmade, hapart⟩ := ih
      refine ⟨fun x hx => ?_, last :: made, ?_, fun call hcall => ?_⟩
      · rw [hmakes.inUse_eq]
        exact .inl ⟨hstays hx, fun hlost =>
          Set.disjoint_left.1 hmakes.spares (last.lost_subset_struck hlost) (.inl hx)⟩
      · rw [hmakes.calls, hmade]
        rfl
      · rcases List.mem_cons.1 hcall with rfl | hearlier
        · exact hmakes.fresh.mono_right hstays
        · exact hapart call hearlier

/-- A passage brings nothing into use but by a call that gains something. -/
theorem Passage.inUse_subset (h : Passage p kept sinks p') :
    ∃ made, p'.kernel.calls = made ++ p.kernel.calls ∧
      ((∀ call ∈ made, call.gained = ∅) → p'.kernel.inUse ⊆ p.kernel.inUse) := by
  induction h with
  | start => exact ⟨[], rfl, fun _ => Set.Subset.refl _⟩
  | quiet _ hcalls huse ih =>
      obtain ⟨made, hmade, hsub⟩ := ih
      refine ⟨made, hcalls.trans hmade, fun hnone => ?_⟩
      rw [huse]
      exact hsub hnone
  | @call q q' last _ hmakes ih =>
      obtain ⟨made, hmade, hsub⟩ := ih
      refine ⟨last :: made, ?_, fun hnone => ?_⟩
      · rw [hmakes.calls, hmade]
        rfl
      · rw [hmakes.inUse_eq, hnone last List.mem_cons_self, Set.union_empty]
        exact Set.sdiff_subset.trans (hsub fun call hcall =>
          hnone call (List.mem_cons_of_mem _ hcall))

/-- None of the calls of a passage is directed at what is kept, and none lowers the break unless the
supplier sinks. -/
theorem Passage.spares (h : Passage p kept sinks p') :
    ∃ made, p'.kernel.calls = made ++ p.kernel.calls ∧ ∀ call ∈ made,
      Disjoint call.struck kept ∧ (call.lowered = ∅ ∨ sinks) := by
  induction h with
  | start => exact ⟨[], rfl, fun call hcall => absurd hcall List.not_mem_nil⟩
  | quiet _ hcalls _ ih =>
      obtain ⟨made, hmade, hspares⟩ := ih
      exact ⟨made, hcalls.trans hmade, hspares⟩
  | @call q q' last _ hmakes ih =>
      obtain ⟨made, hmade, hspares⟩ := ih
      refine ⟨last :: made, ?_, fun call hcall => ?_⟩
      · rw [hmakes.calls, hmade]
        rfl
      · rcases List.mem_cons.1 hcall with rfl | hearlier
        · exact ⟨hmakes.spares.mono_right Set.subset_union_left, hmakes.stays⟩
        · exact hspares call hearlier

end Paging
end PagedHeap
