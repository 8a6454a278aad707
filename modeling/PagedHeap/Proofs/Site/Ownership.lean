import PagedHeap.Proofs.Site.Order

/-!
# Who owns the arena

What the calls on record obtained in the arena and did not give back is the memory of the owners.
Each of them has it in three parts: the storage of its table, the ranges that it has lent out, and
those in its cache.  No byte is in two parts, or with two owners, or with an owner and in use by
others.  So no page that was obtained is lost, and none is given back twice.
-/

namespace PagedHeap
namespace Site

/-- The arena is divided between the owners and others, and each part of an owner is apart from all
else. -/
structure Divided (p : Site) : Prop where
  owned : ∀ x, x ∈ Call.owned p.record ↔
    arenaBase ≤ x ∧ ∃ o, x ∈ p.storage o ∨ x ∈ p.lentOut o ∨ x ∈ p.cached o
  storage : ∀ o, Disjoint (p.storage o) (p.lentOut o ∪ p.cached o)
  lentOut : ∀ o, Disjoint (p.lentOut o) (p.cached o)
  held : ∀ o, p.held o ⊆ p.lentOut o
  owners : ∀ o o', o ≠ o' → Disjoint (p.own o) (p.own o')
  others : ∀ o, Disjoint (p.own o) p.others
  used : ∀ o, p.own o ⊆ p.kernel.inUse
  lawful : Call.Lawful p.record

/-- An owner at work left alone what is foreign to it, which is all that others and the other
owners have, and what its clients have and did not pass.  The calls that were made for it are on
record, and are those of a trail of requests to its supplier. -/
structure Spares (p : Site) (o : Owner) (passed : Set Nat) (p' : Site) : Prop where
  calls : ∃ made, p'.kernel.calls = made ++ p.kernel.calls ∧ p'.record = made ++ p.record ∧
    (p.paging o).Trail (p.held o \ passed ∪ p.foreign o) made (p'.paging o) ∧
    ∀ call ∈ made, Disjoint call.struck (p.held o \ passed ∪ p.foreign o)
  content : ∀ y ∈ p.held o \ passed ∪ p.foreign o,
    p'.kernel.memory.byteAt y = p.kernel.memory.byteAt y
  others : p.others ⊆ p.foreign o
  owners : ∀ o', o' ≠ o → p.own o' ⊆ p.foreign o

variable {p p' : Site} {o : Owner} {passed : Set Nat}

theorem Orderly.divided (h : p.Orderly) : p.Divided where
  owned x := h.mem_owned x
  storage o := by
    have hparts := (h.sound o).parts
    exact Set.disjoint_union_right.2
      ⟨hparts.storage.mono_right Set.subset_union_left, hparts.cached.1⟩
  lentOut o := (h.sound o).parts.cached.2
  held o := (h.sound o).parts.held
  owners := h.apart
  others := h.others_apart
  used := h.own_used
  lawful := h.tells.lawful

theorem Work.spares (hwork : p.Work o passed p') (h : p.Orderly) : p.Spares o passed p' := by
  obtain ⟨made, hcalls, hrecord, htrail⟩ := hwork.trail h
  refine ⟨⟨made, hcalls, hrecord, htrail, htrail.spares⟩, ?_, h.others_subset_foreign o,
    fun o' hne => h.own_subset_foreign hne⟩
  have hkept := (hwork.acts (h.sound o)).keeps.byteAt
  rw [← paging_kernel p o, ← paging_kernel p' o]
  exact hkept

/-- Whatever has happened on a machine, the arena is divided between those who use it, and whatever
an owner does next, it leaves alone what is not its own to give. -/
theorem Reachable.divided_and_spared (hreach : p.Reachable) :
    p.Divided ∧ ∀ o passed p', p.Work o passed p' → p.Spares o passed p' :=
  ⟨hreach.orderly.divided, fun _ _ _ hwork => hwork.spares hreach.orderly⟩

theorem divided_two_pages : ∃ p p' : Site, p.Reachable ∧ p'.Reachable ∧
    0x200000006000 ∈ Call.owned p.record ∧ p.Divided ∧ p'.Divided ∧
      p.Spares (.supplier 0) (bytesAt 0x200000006000 4096) p' := by
  -- A client gets two pages, and hands back the first of them.
  have hgot : small.answer? 0 (.allocate 8192) = some (.pointer (some 0x200000006000)) := by
    decide +kernel
  have hback : (small.servePages 0 (.allocate 8192)).answer? 0
      (.reclaim 0x200000006000 4096 {}) = some .done := by
    decide +kernel
  have hgranted : bytesAt 0x200000006000 8192 ⊆ (small.servePages 0 (.allocate 8192)).pages 0 :=
    granted_subset_pages hgot
  have hsub : bytesAt 0x200000006000 4096 ⊆ bytesAt 0x200000006000 8192 :=
    bytesAt_subset (Nat.le_refl _) (by decide)
  have hreach := reachable_small.servePages (s := 0) (r := .allocate 8192) ⟨by decide, by decide⟩
  have hwork := work_servePages hback
    ⟨by decide, hsub.trans hgranted, fun hclean => absurd hclean (by decide)⟩
  have hreach' := hreach.step (.work hwork)
  obtain ⟨hdivided, hspares⟩ := hreach.divided_and_spared
  have hfirst : 0x200000006000 ∈ bytesAt 0x200000006000 8192 := mem_bytesAt.2 (by decide)
  have howned := (hdivided.owned 0x200000006000).2
    ⟨by decide, .supplier 0, .inr (.inl (hdivided.held (.supplier 0) (.inl (hgranted hfirst))))⟩
  exact ⟨_, _, hreach, hreach', howned, hdivided, hreach'.divided_and_spared.1,
    hspares _ _ _ hwork⟩

end Site
end PagedHeap
