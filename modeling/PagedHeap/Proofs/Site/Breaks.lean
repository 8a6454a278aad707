import PagedHeap.Proofs.Site.Books

/-!
# The program break

Several suppliers move the program break, and so may others.  What an owner has below the arena is
break memory: it lies below the break, and below the end of the region that the owner's supplier
has on record.  A supplier lowers the break only over a range that it evicted just then, or that
was handed back to it and found no place in its cache.

The region begins at the first break memory that the supplier ever got.  When the break has fallen
below that and rises again, the supplier gets memory that it does not recognise as break memory.
-/

namespace PagedHeap
namespace Site

/-- What is in use below the arena lies below the break, and what an owner has there is in its
supplier's region. -/
structure BelowBreak (p : Site) : Prop where
  owners : ∀ o, ∀ x ∈ p.own o, x < arenaBase → x < p.kernel.programBreak
  others : ∀ x ∈ p.others, x < arenaBase → x < p.kernel.programBreak
  charted : ∀ o, ∀ x ∈ p.own o, x < arenaBase → x < (p.paging o).supplier.region.stop

/-- What an owner did at work was a trail of requests to its supplier.  Where the break was lowered,
a request on it was being handled, and the call took one of the ranges that were evicted for that
request just then, and nothing of what others have, or of what the owner's clients have and did not
pass. -/
def LowersFreed (p : Site) (o : Owner) (passed : Set Nat) (p' : Site) : Prop :=
  ∃ made, p'.kernel.calls = made ++ p.kernel.calls ∧
    (p.paging o).Trail (p.held o \ passed ∪ p.foreign o) made (p'.paging o) ∧
    ∀ delta current, .moveBreak delta (some current) ∈ made → delta < 0 →
      ∃ before during after q q' r, made = after ++ (during ++ before) ∧
        (p.paging o).Trail (p.held o \ passed ∪ p.foreign o) before q ∧
        q.Handles (p.held o \ passed ∪ p.foreign o) r during q' ∧
        q'.Trail (p.held o \ passed ∪ p.foreign o) after (p'.paging o) ∧
        .moveBreak delta (some current) ∈ during ∧
        q.TakesOne (p.held o \ passed ∪ p.foreign o) r during q' (.moveBreak delta (some current))

/-- A single request to the supplier of an owner was handled, and where the break was lowered for
it, the call took one of the ranges that were evicted. -/
def LowersEvicted (p : Site) (o : Owner) (r : PageRequest) (q : Paging) : Prop :=
  ∃ made, (p.paging o).Handles (p.storage o ∪ p.foreign o ∪ p.lentOut o \ r.passed) r made q ∧
    ∀ delta current, .moveBreak delta (some current) ∈ made → delta < 0 →
      (p.paging o).TakesOne (p.storage o ∪ p.foreign o ∪ p.lentOut o \ r.passed) r made q
        (.moveBreak delta (some current))

variable {p p' : Site} {o : Owner} {passed : Set Nat} {x : Nat}

theorem Orderly.belowBreak (h : p.Orderly) : p.BelowBreak where
  owners o _ hx hlow := Kernel.lt_programBreak (h.own_used o hx) hlow
  others _ hx hlow := Kernel.lt_programBreak (h.tells.others_used hx) hlow
  charted := h.charted

/-- A move down takes something. -/
theorem lowered_nonempty {delta : Int} {current : Nat} (hdelta : delta < 0) :
    (Call.moveBreak delta (some current)).lowered.Nonempty := by
  refine ⟨(current + delta).toNat, mem_bytesAt.2 ⟨Nat.le_refl _, ?_⟩⟩
  omega

theorem Work.lowersFreed (hwork : p.Work o passed p') (h : p.Orderly) :
    p.LowersFreed o passed p' := by
  obtain ⟨made, hcalls, -, htrail⟩ := hwork.trail h
  exact ⟨made, hcalls, htrail, fun delta current hmade hdelta =>
    htrail.takesOne hmade (lowered_nonempty hdelta)⟩

theorem Orderly.lowersEvicted (h : p.Orderly) {r : PageRequest}
    (hallowed : r.Allowed (p.paging o) (p.lentOut o)) :
    Action.Ensures (Paging.serve r) (p.paging o) (fun _ q => p.LowersEvicted o r q)
      Action.never := by
  obtain ⟨hpaging, hapart⟩ := (h.sound o).parts.lends
  apply (hpaging.ensures_handles hapart hallowed).weaken
  rintro _ q ⟨made, hhandles⟩
  exact ⟨made, hhandles, fun delta current hmade hdelta =>
    hhandles.takesOne hmade (lowered_nonempty hdelta)⟩

/-- Whatever has happened on a machine, all break memory in use lies below the break.  What an owner
does next is a trail of requests to its supplier, and lowers the break only over ranges that are
evicted on it; and so does each request to a supplier. -/
theorem Reachable.below_break (hreach : p.Reachable) :
    p.BelowBreak ∧ (∀ o passed p', p.Work o passed p' → p.LowersFreed o passed p') ∧
      ∀ o r, PageRequest.Allowed (p.paging o) (p.lentOut o) r →
        Action.Ensures (Paging.serve r) (p.paging o) (fun _ q => p.LowersEvicted o r q)
          Action.never :=
  ⟨hreach.orderly.belowBreak, fun _ _ _ hwork => hwork.lowersFreed hreach.orderly,
    fun _ _ hallowed => hreach.orderly.lowersEvicted hallowed⟩

/-- A small machine with two suppliers that move the break. -/
def twoBreaks : Site :=
  new .standard (.boot 8 (some ⟨breakBase, breakBase + 8 * pageSize, breakBase⟩))
    [{ useBreak := true }, { useBreak := true }]

theorem reachable_twoBreaks : twoBreaks.Reachable := by
  refine .start .standard _ (Kernel.valid_boot (by decide) fun b hb => ?_)
  cases hb
  decide

/-- The suppliers got a page each. -/
def bothGot : Site := (twoBreaks.servePages 0 (.allocate 4096)).servePages 1 (.allocate 4096)

/-- The second supplier, which has the upper page, was handed it back. -/
def handedBack : Site := bothGot.servePages 1 (.reclaim 0x100000001000 4096 {})

theorem reachable_handedBack : handedBack.Reachable := by
  have hgot : (twoBreaks.servePages 0 (.allocate 4096)).answer? 1 (.allocate 4096) =
      some (.pointer (some 0x100000001000)) := by
    decide +kernel
  have hfirst := reachable_twoBreaks.servePages (s := 0) (r := .allocate 4096)
    ⟨by decide, by decide⟩
  have hboth : bothGot.Reachable := hfirst.servePages ⟨by decide, by decide⟩
  exact hboth.servePages
    ⟨by decide, granted_subset_pages hgot, fun hclean => absurd hclean (by decide)⟩

theorem below_break_lowered : ∃ (p p' : Site) (q : Paging), p.Reachable ∧
    (p.paging (.supplier 1)).cached = [⟨0x100000001000, 4096, false, true⟩] ∧
      p.BelowBreak ∧ p.LowersFreed (.supplier 1) ∅ p' ∧ p.LowersEvicted (.supplier 1) (.trim 0) q ∧
        p'.kernel.calls.head? = some (.moveBreak (-4096) (some 0x100000002000)) := by
  have htrim : handedBack.answer? 1 (.trim 0) = some (.size 0) := by decide +kernel
  have hwork := work_servePages htrim trivial
  obtain ⟨hbelow, hlowers, hserves⟩ := reachable_handedBack.below_break
  obtain ⟨a, q, -, hevicted⟩ := (hserves (.supplier 1) (.trim 0) trivial).exists_ok
  exact ⟨_, _, q, reachable_handedBack, by decide +kernel, hbelow, hlowers _ _ _ hwork, hevicted,
    by decide +kernel⟩

/-! ## What is recognised -/

/-- A supplier recognises what it has below the arena, from the floor of its region on. -/
theorem Orderly.contains_iff (h : p.Orderly) (hx : x ∈ p.own o) :
    (p.paging o).supplier.region.contains x = true ↔
      x < arenaBase ∧ (p.paging o).supplier.region.floor ≤ x := by
  have hpaging := (h.sound o).parts.paging
  have hstop := hpaging.region
  simp only [BreakRegion.contains, Bool.and_eq_true, bne_iff_ne, ne_eq, decide_eq_true_eq]
  constructor
  · intro hin
    obtain ⟨⟨-, hfloor⟩, hlt⟩ := hin
    exact ⟨Nat.lt_of_lt_of_le hlt hstop, hfloor⟩
  · intro hin
    obtain ⟨hlow, hfloor⟩ := hin
    have hlt := h.charted o x hx hlow
    refine ⟨⟨fun hzero => ?_, hfloor⟩, hlt⟩
    -- Without a floor nothing is on record, so there would be no break memory.
    rw [h.floored o hzero] at hlt
    exact absurd hlt (Nat.not_lt_zero x)

theorem Reachable.contains_iff_floor_le (hreach : p.Reachable) (o : Owner) :
    ∀ x ∈ p.own o, (p.paging o).supplier.region.contains x = true ↔
      x < arenaBase ∧ (p.paging o).supplier.region.floor ≤ x :=
  fun _ hx => hreach.orderly.contains_iff hx

/-- The upper page is gone, and the break has fallen to it. -/
def upperGone : Site := handedBack.servePages 1 (.trim 0)

/-- The lower page is gone too, and the break is where it started. -/
def lowerGone : Site :=
  (upperGone.servePages 0 (.reclaim 0x100000000000 4096 {})).servePages 0 (.trim 0)

/-- The second supplier got a page at the place of the lower one. -/
def lowerRegot : Site := lowerGone.servePages 1 (.allocate 4096)

theorem reachable_lowerRegot : lowerRegot.Reachable := by
  have hlower : twoBreaks.answer? 0 (.allocate 4096) = some (.pointer (some 0x100000000000)) := by
    decide +kernel
  -- What the second supplier does leaves the page of the first one with its client.
  have hstays : bytesAt 0x100000000000 4096 ⊆ upperGone.pages 0 := by
    rw [upperGone, handedBack, bothGot, pages_servePages_of_ne _ (by decide),
      pages_servePages_of_ne _ (by decide), pages_servePages_of_ne _ (by decide)]
    exact granted_subset_pages hlower
  have hupper : upperGone.Reachable := reachable_handedBack.servePages trivial
  have hreclaim := hupper.servePages (s := 0) (r := .reclaim 0x100000000000 4096 {})
    ⟨by decide, hstays, fun hclean => absurd hclean (by decide)⟩
  have hboth : lowerGone.Reachable := hreclaim.servePages trivial
  exact hboth.servePages ⟨by decide, by decide⟩

theorem mem_own_lowerRegot : 0x100000000000 ∈ lowerRegot.own (.supplier 1) := by
  have hgot : lowerGone.answer? 1 (.allocate 4096) = some (.pointer (some 0x100000000000)) := by
    decide +kernel
  have hpage : 0x100000000000 ∈ lowerRegot.pages 1 :=
    granted_subset_pages hgot (mem_bytesAt.2 (by decide))
  exact .inr (.inl (.inr (.inr hpage)))

/-- The floor of the second supplier is above the page that it has, which is not recognised. -/
theorem floor_lowerRegot :
    (lowerRegot.paging (.supplier 1)).supplier.region.floor = 0x100000001000 ∧
      (lowerRegot.paging (.supplier 1)).supplier.region.contains 0x100000000000 = false := by
  decide +kernel

theorem contains_iff_lowerRegot : lowerRegot.Reachable ∧
    (lowerRegot.paging (.supplier 1)).supplier.region.floor = 0x100000001000 ∧
      ((lowerRegot.paging (.supplier 1)).supplier.region.contains 0x100000000000 = true ↔
        0x100000000000 < arenaBase ∧
          (lowerRegot.paging (.supplier 1)).supplier.region.floor ≤ 0x100000000000) := by
  have hreach : lowerRegot.Reachable := reachable_lowerRegot
  obtain ⟨hfloor, -⟩ := floor_lowerRegot
  exact ⟨hreach, hfloor, hreach.contains_iff_floor_le (.supplier 1) _ mem_own_lowerRegot⟩

/-- Not all break memory is recognised. -/
theorem not_always_contains : ¬ ∀ p : Site, p.Reachable → ∀ o, ∀ x ∈ p.own o, x < arenaBase →
    (p.paging o).supplier.region.contains x = true := by
  intro hall
  have hcontains := hall _ reachable_lowerRegot _ _ mem_own_lowerRegot (by decide)
  obtain ⟨-, hnot⟩ := floor_lowerRegot
  rw [hnot] at hcontains
  exact Bool.false_ne_true hcontains

end Site
end PagedHeap
