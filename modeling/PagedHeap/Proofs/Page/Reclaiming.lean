import PagedHeap.Proofs.Page.Serving
import PagedHeap.Proofs.Confined
import PagedHeap.Proofs.Page.Returning

/-!
# What a supplier has back

Bytes that are handed back are in the supplier's hands again: they wait in its cache, or they went
back to the kernel by a call that is on record.  The same is true of what it had cached before, since
room for the new is made by giving up the old.

No memory is asked for on the way.
-/

namespace PagedHeap
namespace Call

/-- A call for more memory: a mapping, or a move of the break up. -/
def maps : Call → Bool
  | mapAny _ _ _ | mapExact _ _ _ | remap _ _ _ _ => true
  | moveBreak delta _ => decide (0 < delta)
  | unmap _ _ | advise _ _ _ => false

/-- The bytes that some calls gave back, or the content of which they dropped. -/
def struckBy (calls : List Call) : Set Nat := {x | ∃ call ∈ calls, x ∈ call.struck}

theorem struckBy_append (calls calls' : List Call) :
    struckBy (calls ++ calls') = struckBy calls ∪ struckBy calls' := by
  ext x
  simp only [struckBy, List.mem_append, Set.mem_ofPred_eq, Set.mem_union, or_and_right, exists_or]

end Call

namespace Paging

open PagedHeap.Action Ranges

/-- All calls that were made are of a kind. -/
def Asks (kind : Call → Prop) (p q : Paging) : Prop :=
  ∃ made, q.kernel.calls = made ++ p.kernel.calls ∧ ∀ call ∈ made, kind call

/-- What was `given` is cached, or went back to the kernel, and so is what was cached before. -/
def Regains (p : Paging) (given : Set Nat) (q : Paging) : Prop :=
  ∃ made, q.kernel.calls = made ++ p.kernel.calls ∧
    given ∪ bytes p.cached ⊆ bytes q.cached ∪ Call.struckBy made

/-- The `len` bytes at `address` were cut out of a range with `spare` bytes more, and the supplier
has the head and the tail of that again. -/
def CutsOut (p : Paging) (len spare address : Nat) (q : Paging) : Prop :=
  ∃ raw head tail g, allocate (len + spare) p = .ok (some raw) g ∧
    address = raw + head ∧ head + tail = spare ∧
    g.Regains (bytesAt raw head ∪ bytesAt (address + len) tail) q

variable {kind : Call → Prop} {p p' q : Paging} {out given given' : Set Nat}
  {lent address size : Nat} {opts : ReclaimOptions}

/-! ## Calls of a kind -/

theorem asks_nothing (hcalls : q.kernel.calls = p.kernel.calls) : p.Asks kind q :=
  ⟨[], hcalls, fun _ hcall => absurd hcall List.not_mem_nil⟩

theorem asks_one {call : Call} (hcalls : q.kernel.calls = call :: p.kernel.calls)
    (hkind : kind call) : p.Asks kind q := by
  refine ⟨[call], hcalls, fun made hmade => ?_⟩
  rwa [List.mem_singleton.1 hmade]

instance : Std.Refl (Asks kind) := ⟨fun _ => asks_nothing rfl⟩

instance : IsTrans Paging (Asks kind) where
  trans _ _ _ h h' := by
    obtain ⟨made, hcalls, hkind⟩ := h
    obtain ⟨made', hcalls', hkind'⟩ := h'
    refine ⟨made' ++ made, by rw [hcalls', hcalls, List.append_assoc], fun call hcall => ?_⟩
    exact (List.mem_append.1 hcall).elim (hkind' call) (hkind call)

theorem asks_update (f : PageSupplier → PageSupplier) : Leaves (Asks kind) (update f) :=
  confined_modify fun _ => asks_nothing rfl

theorem asks_onCache {α : Type} (action : Action RangeCache α) :
    Leaves (Asks kind) (onCache action) :=
  leaves_within (fun _ _ => asks_nothing rfl) action

theorem asks_advise (address len : Nat) (advice : Advice) (hkind : kind (.advise address len advice)) :
    Leaves (Asks kind) (advise address len advice) :=
  fun _ => ensures_call.2 (asks_one rfl hkind)

theorem asks_unmap (address len : Nat) (hkind : kind (.unmap address len)) :
    Leaves (Asks kind) (unmap address len) :=
  fun _ => ensures_call.2 (asks_one rfl hkind)

/-! ## Handing back asks for nothing -/

theorem mapsNothing_dropBreak (r : Range) :
    Leaves (Asks fun call => call.maps = false) (dropBreak r) := by
  have hmoved : Leaves (Asks fun call => call.maps = false) (moveBreak (-(r.len : Int))) := by
    intro p
    rw [moveBreak, ensures_call]
    by_cases hdelta : -(r.len : Int) = 0
    · rw [Kernel.moveBreak, if_pos hdelta]
      exact asks_nothing rfl
    · exact asks_one (p.kernel.calls_moveBreak hdelta) (decide_eq_false (by omega))
  refine hmoved.bind fun old? => ?_
  cases old? with
  | none => exact confined_pure false
  | some old => exact (asks_update _).bind fun _ => confined_pure true

theorem mapsNothing_lowerBreakOver (r : Range) :
    Leaves (Asks fun call => call.maps = false) (lowerBreakOver r) := by
  refine Confined.ite ?_ (confined_pure false)
  refine (confined_checked trivial _).bind fun stop => confined_get.bind fun p => ?_
  exact (confined_get.bind fun _ => confined_pure _).bind fun _ =>
    Confined.ite (mapsNothing_dropBreak r) (confined_pure false)

theorem mapsNothing_shrinkBreak (ranges : List Range) :
    Leaves (Asks fun call => call.maps = false) (shrinkBreak ranges) := by
  induction ranges with
  | nil => exact confined_pure []
  | cons r rest ih =>
      exact (mapsNothing_lowerBreakOver r).bind fun _ =>
        Confined.ite ih (ih.bind fun _ => confined_pure _)

theorem mapsNothing_releaseAll (ranges : List Range) :
    Leaves (Asks fun call => call.maps = false) (releaseAll ranges) := by
  induction ranges with
  | nil => exact confined_pure ()
  | cons r rest ih =>
      have hsurrendered : Leaves (Asks fun call => call.maps = false) (surrender r) :=
        Confined.ite (asks_advise _ _ _ rfl) (asks_unmap _ _ rfl)
      exact (hsurrendered.bind fun _ => asks_update _).bind fun _ => ih

theorem mapsNothing_reclaim (address size : Nat) (opts : ReclaimOptions) :
    Leaves (Asks fun call => call.maps = false) (reclaim address size opts) := by
  have hadvised : Leaves (Asks fun call => call.maps = false) (advise address size .nohuge) :=
    asks_advise _ _ _ rfl
  refine (confined_require trivial _).bind fun _ => (asks_update _).bind fun _ => ?_
  refine (hadvised.onlyIf _).bind fun _ => confined_get.bind fun p => ?_
  exact (asks_onCache _).bind fun _ =>
    (mapsNothing_shrinkBreak _).bind fun _ => mapsNothing_releaseAll _

/-! ## Back in the supplier's hands -/

theorem regains_nothing (hcalls : ∃ made, q.kernel.calls = made ++ p.kernel.calls)
    (hcache : q.supplier.cache = p.supplier.cache) : p.Regains ∅ q := by
  obtain ⟨made, hmade⟩ := hcalls
  refine ⟨made, hmade, ?_⟩
  rw [Set.empty_union, cached, cached, hcache]
  exact Set.subset_union_left

theorem regains_refl (p : Paging) : p.Regains ∅ p := regains_nothing ⟨[], rfl⟩ rfl

theorem Regains.trans (h : p.Regains given p') (h' : p'.Regains given' q) :
    p.Regains (given ∪ given') q := by
  obtain ⟨made, hcalls, hback⟩ := h
  obtain ⟨made', hcalls', hback'⟩ := h'
  refine ⟨made' ++ made, by rw [hcalls', hcalls, List.append_assoc], ?_⟩
  rw [Call.struckBy_append]
  rw [Set.union_subset_iff] at hback hback'
  -- What was cached in between is cached at the end, or it went back later.
  have hlater : bytes p'.cached ∪ Call.struckBy made ⊆
      bytes q.cached ∪ (Call.struckBy made' ∪ Call.struckBy made) := by
    rw [← Set.union_assoc]
    exact Set.union_subset_union_left _ hback'.2
  refine Set.union_subset (Set.union_subset (hback.1.trans hlater) ?_) (hback.2.trans hlater)
  exact hback'.1.trans (Set.union_subset_union_right _ Set.subset_union_left)

/-- All that was evicted went back. -/
theorem Returned.bytes_subset {evicted sunk surrendered : List Range} {made : List Call}
    (h : p.Returned evicted sunk surrendered made q) : bytes evicted ⊆ Call.struckBy made := by
  intro x hx
  obtain ⟨r, hr, hin⟩ := hx
  have hmade : ∀ {call : Call}, call ∈ (surrendered.map Range.surrenderCall).reverse ++
      (sunk.map Range.sinkCall).reverse → call ∈ made := by
    intro call hcall
    rw [← h.returns] at hcall
    exact (List.mem_filter.1 hcall).1
  rcases List.mem_append.1 (h.perm.subset hr) with hsunk | hsurrendered
  · refine ⟨r.sinkCall, hmade (List.mem_append_right _ ?_), ?_⟩
    · exact List.mem_reverse.2 (List.mem_map_of_mem hsunk)
    · apply Call.lowered_subset_struck
      rwa [r.lowered_sinkCall]
  · refine ⟨r.surrenderCall, hmade (List.mem_append_left _ ?_), ?_⟩
    · exact List.mem_reverse.2 (List.mem_map_of_mem hsurrendered)
    · rwa [r.struck_surrenderCall]

theorem CutsOut.regains {len spare : Nat} (h : p.CutsOut len spare address p')
    (h' : p'.Regains ∅ q) : p.CutsOut len spare address q := by
  obtain ⟨raw, head, tail, g, hrun, hplace, hsum, hback⟩ := h
  have hback' := hback.trans h'
  rw [Set.union_empty] at hback'
  exact ⟨raw, head, tail, g, hrun, hplace, hsum, hback'⟩

/-- What is handed back is in the supplier's hands again. -/
theorem Sound.ensures_regains (h : Sound p (out ∪ bytesAt address size) lent)
    (hapart : Disjoint out (bytesAt address size)) (hpos : 0 < size)
    (haddress : address % pageSize = 0) (hsize : size % pageSize = 0)
    (hclean : opts.clean = true → ∀ x ∈ bytesAt address size, p.byteAt x = 0)
    (hlent : size ≤ lent) :
    Action.Ensures (reclaim address size opts) p
      (fun _ q => p.Regains (bytesAt address size) q) Action.never := by
  apply (h.ensures_reclaimReturned hapart hpos haddress hsize hclean hlent).weaken
  rintro _ q ⟨evicted, c, -, ⟨sunk, surrendered, made, hreturned⟩, rfl, htakes⟩
  have hbytes : Ranges.bytes evicted ∪ Ranges.bytes q.cached =
      bytesAt address size ∪ Ranges.bytes p.cached := by
    rw [← Ranges.bytes_append]
    exact htakes.reshapes.bytes_eq.trans Ranges.bytes_cons
  refine ⟨made, hreturned.calls, ?_⟩
  rw [← hbytes, Set.union_comm]
  exact Set.union_subset_union_right _ hreturned.bytes_subset

end Paging
end PagedHeap
