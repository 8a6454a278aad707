import PagedHeap.Proofs.Page.Returning

/-!
# The trail of an owner

An owner has its supplier handle requests, one after the other.  Apart from that it maps and unmaps
the storage of its table, and stores to memory.  A trail tells the calls that were made for all of
this, and it is made of runs: each request on it was handled by the supplier as it stood then.

Only a request for which ranges are evicted lowers the break, and it does so by calls each of which
takes one of these ranges.
-/

namespace PagedHeap
namespace Paging

open Ranges

/-! ## One request -/

/-- Ranges were evicted for a request that passed some bytes.  What was cached and what was passed
is divided between them and the cache as it is now. -/
structure Evicts (p : Paging) (evict : Action RangeCache (List Range)) (passed : Set Nat)
    (evicted : List Range) (p' : Paging) : Prop where
  run : evict p.supplier.cache = .ok evicted p'.supplier.cache
  whole : bytes evicted ∪ bytes p'.cached = bytes p.cached ∪ passed
  apart : Disjoint (bytes evicted) (bytes p'.cached)

/-- A supplier handled a request, and nothing that was done for it was directed at what is kept.
The break stayed where it was or rose, unless ranges were evicted; then it was lowered over those of
`sunk`, and the others were surrendered. -/
structure Handles (p : Paging) (kept : Set Nat) (r : PageRequest) (made : List Call) (p' : Paging) :
    Prop where
  run : ∃ a, serve r p = .ok a p'
  calls : p'.kernel.calls = made ++ p.kernel.calls
  apart : Disjoint r.passed kept
  spares : ∀ call ∈ made, Disjoint call.struck kept
  stays : r.eviction? p = none → ∀ call ∈ made, call.lowered = ∅
  evicts : ∀ evict, r.eviction? p = some evict → ∃ evicted sunk surrendered,
    p.Evicts evict r.passed evicted p' ∧ p.Returned evicted sunk surrendered made p'

/-- A call took one range that was evicted for the request being handled: the break was lowered from
the end of the range to its start.  The range had been cached or was passed just then, and it has
nothing of what is kept, or of what is cached still. -/
def TakesOne (p : Paging) (kept : Set Nat) (r : PageRequest) (made : List Call) (p' : Paging)
    (call : Call) : Prop :=
  ∃ evict evicted sunk surrendered, r.eviction? p = some evict ∧
    p.Evicts evict r.passed evicted p' ∧ p.Returned evicted sunk surrendered made p' ∧
      ∃ range ∈ sunk, range.ofBreak = true ∧ call = range.sinkCall ∧ call.lowered = range.bytes ∧
        range.bytes ⊆ bytes p.cached ∪ r.passed ∧ Disjoint range.bytes (kept ∪ bytes p'.cached)

variable {p p' p'' : Paging} {out kept kept' : Set Nat} {lent granted size : Nat}
  {parted parted' : Prop} {r : PageRequest} {made made' : List Call} {call : Call}
  {evict : Action RangeCache (List Range)} {evicted sunk surrendered : List Range}

theorem Handles.mono (h : p.Handles kept r made p') (hsub : kept' ⊆ kept) :
    p.Handles kept' r made p' :=
  ⟨h.run, h.calls, h.apart.mono_right hsub, fun call hcall => (h.spares call hcall).mono_right hsub,
    h.stays, h.evicts⟩

/-- A call that gave back and lowered the break was made for one of the ranges over which the break
was lowered. -/
theorem Returned.exists_sinkCall (h : p.Returned evicted sunk surrendered made p')
    (hcall : call ∈ made) (hlowered : call.lowered.Nonempty) :
    ∃ range ∈ sunk, call = range.sinkCall := by
  have hin := List.mem_filter.2
    ⟨hcall, Call.returns_of_struck (hlowered.mono call.lowered_subset_struck)⟩
  rw [h.returns] at hin
  -- A range that was surrendered went by a call of another kind, which left the break alone.
  rcases List.mem_append.1 hin with hin | hin
  · obtain ⟨range, -, rfl⟩ := List.mem_map.1 (List.mem_reverse.1 hin)
    rw [range.lowered_surrenderCall] at hlowered
    exact absurd hlowered Set.not_nonempty_empty
  · obtain ⟨range, hrange, rfl⟩ := List.mem_map.1 (List.mem_reverse.1 hin)
    exact ⟨range, hrange, rfl⟩

/-- A call that lowered the break took one range. -/
theorem Handles.takesOne (h : p.Handles kept r made p') (hcall : call ∈ made)
    (hlowered : call.lowered.Nonempty) : p.TakesOne kept r made p' call := by
  cases hevict : r.eviction? p with
  | none => exact absurd (h.stays hevict call hcall) hlowered.ne_empty
  | some evict =>
      obtain ⟨evicted, sunk, surrendered, hevicts, hreturned⟩ := h.evicts evict hevict
      obtain ⟨range, hrange, rfl⟩ := hreturned.exists_sinkCall hcall hlowered
      have hbytes := range.lowered_sinkCall
      have hsub : range.bytes ⊆ bytes evicted :=
        bytes_subset_of_mem (hreturned.order.subset hrange)
      have hkept : Disjoint range.bytes kept := by
        rw [← hbytes]
        exact (h.spares _ hcall).mono_left (Call.lowered_subset_struck _)
      refine ⟨evict, evicted, sunk, surrendered, hevict, hevicts, hreturned, range, hrange,
        hreturned.descends.ofBreak range hrange, rfl, hbytes, ?_, ?_⟩
      · rw [← hevicts.whole]
        exact hsub.trans Set.subset_union_left
      · exact Set.disjoint_union_right.2 ⟨hkept, hevicts.apart.mono_left hsub⟩

/-! ## One request after the other -/

/-- What an owner does without its supplier: it stores to memory, and it maps and unmaps storage. -/
inductive Aside (p : Paging) : Paging → Prop where
  | store (m : Memory) : Aside p { p with kernel := { p.kernel with memory := m } }
  | map {hint len : Nat} {address? : Option Nat} {p' : Paging}
      (hrun : map hint len p = .ok address? p') : Aside p p'
  | unmap {address len : Nat} {p' : Paging} (hrun : unmap address len p = .ok () p') : Aside p p'

/-- What an owner did from `p` on.  The index tells the calls that were made, the last one first. -/
inductive Trail (p : Paging) (kept : Set Nat) : List Call → Paging → Prop where
  | start : Trail p kept [] p
  | aside {made calls : List Call} {q q' : Paging} (h : Trail p kept made q)
      (haside : q.Aside q') (hcalls : q'.kernel.calls = calls ++ q.kernel.calls)
      (hspares : ∀ call ∈ calls, Disjoint call.struck kept ∧ call.lowered = ∅) :
      Trail p kept (calls ++ made) q'
  | handle {made calls : List Call} {q q' : Paging} {r : PageRequest} (h : Trail p kept made q)
      (hhandles : q.Handles kept r calls q') : Trail p kept (calls ++ made) q'

theorem Trail.calls (h : Trail p kept made p') : p'.kernel.calls = made ++ p.kernel.calls := by
  induction h with
  | start => rfl
  | aside _ _ hcalls _ ih => rw [hcalls, ih, List.append_assoc]
  | handle _ hhandles ih => rw [hhandles.calls, ih, List.append_assoc]

theorem Trail.mono (h : Trail p kept made p') (hsub : kept' ⊆ kept) : Trail p kept' made p' := by
  induction h with
  | start => exact .start
  | aside _ haside hcalls hspares ih =>
      exact .aside ih haside hcalls fun call hcall =>
        ⟨(hspares call hcall).1.mono_right hsub, (hspares call hcall).2⟩
  | handle _ hhandles ih => exact .handle ih (hhandles.mono hsub)

/-- One trail after the other. -/
theorem Trail.append (h : Trail p kept made p') (h' : Trail p' kept made' p'') :
    Trail p kept (made' ++ made) p'' := by
  induction h' with
  | start => exact h
  | aside _ haside hcalls hspares ih =>
      rw [List.append_assoc]
      exact .aside ih haside hcalls hspares
  | handle _ hhandles ih =>
      rw [List.append_assoc]
      exact .handle ih hhandles

/-- None of the calls of a trail is directed at what is kept. -/
theorem Trail.spares (h : Trail p kept made p') : ∀ call ∈ made, Disjoint call.struck kept := by
  induction h with
  | start => exact fun call hcall => absurd hcall List.not_mem_nil
  | aside _ _ _ hspares ih =>
      exact fun call hcall => (List.mem_append.1 hcall).elim (fun hlast => (hspares call hlast).1)
        (ih call)
  | handle _ hhandles ih =>
      exact fun call hcall => (List.mem_append.1 hcall).elim (hhandles.spares call) (ih call)

/-- Where a trail lowers the break, a request was being handled, and the call took one range that
was evicted for it. -/
theorem Trail.takesOne (h : Trail p kept made p') (hcall : call ∈ made)
    (hlowered : call.lowered.Nonempty) :
    ∃ before during after q q' r, made = after ++ (during ++ before) ∧ Trail p kept before q ∧
      q.Handles kept r during q' ∧ Trail q' kept after p' ∧ call ∈ during ∧
        q.TakesOne kept r during q' call := by
  -- The call was made in the last part of the trail, or before; then that part comes after it.
  induction h with
  | start => exact absurd hcall List.not_mem_nil
  | @aside made calls q q' _ haside hcalls hspares ih =>
      rcases List.mem_append.1 hcall with hlast | hearlier
      · exact absurd (hspares call hlast).2 hlowered.ne_empty
      · obtain ⟨before, during, after, q₁, q₂, r, rfl, hbefore, hhandles, hafter, hin, htakes⟩ :=
          ih hearlier
        exact ⟨before, during, calls ++ after, q₁, q₂, r, (List.append_assoc ..).symm, hbefore,
          hhandles, .aside hafter haside hcalls hspares, hin, htakes⟩
  | @handle made calls q q' r hbefore hhandles ih =>
      rcases List.mem_append.1 hcall with hlast | hearlier
      · exact ⟨made, calls, [], q, q', r, rfl, hbefore, hhandles, .start, hlast,
          hhandles.takesOne hlast hlowered⟩
      · obtain ⟨before, during, after, q₁, q₂, r₁, rfl, hfirst, hhandled, hafter, hin, htakes⟩ :=
          ih hearlier
        exact ⟨before, during, calls ++ after, q₁, q₂, r₁, (List.append_assoc ..).symm, hfirst,
          hhandled, .handle hafter hhandles, hin, htakes⟩

/-! ## What an owner keeps -/

/-- The supplier is configured as before, memory holds what it did, and an owner did what a trail
tells, none of it directed at that memory. -/
structure Keeps (p : Paging) (kept : Set Nat) (p' : Paging) (parted : Prop := False) : Prop
    extends Passes p kept p' True parted where
  trail : ∃ made, Trail p kept made p'

theorem Keeps.refl (p : Paging) (kept : Set Nat) : Keeps p kept p parted :=
  ⟨Passes.refl p kept, [], .start⟩

theorem Keeps.trans (h : Keeps p kept p' parted) (h' : Keeps p' kept p'' parted) :
    Keeps p kept p'' parted := by
  obtain ⟨made, htrail⟩ := h.trail
  obtain ⟨made', htrail'⟩ := h'.trail
  exact ⟨h.toPasses.trans h'.toPasses, _, htrail.append htrail'⟩

theorem Keeps.mono (h : Keeps p kept p' parted) (hsub : kept' ⊆ kept) :
    Keeps p kept' p' parted := by
  obtain ⟨made, htrail⟩ := h.trail
  exact ⟨h.toPasses.mono hsub, made, htrail.mono hsub⟩

/-- More ranges may have been parted. -/
theorem Keeps.weaken (h : Keeps p kept p' parted) (himp : parted → parted') :
    Keeps p kept p' parted' :=
  ⟨h.toPasses.weaken id himp, h.trail⟩

/-- The supplier was not asked for anything. -/
theorem Passes.keeps_aside (h : Passes p kept p' False parted) (haside : p.Aside p') :
    Keeps p kept p' parted := by
  obtain ⟨made, hcalls, hspares⟩ := h.passage.spares
  exact ⟨h.weaken False.elim id, made ++ [], .aside .start haside hcalls fun call hcall =>
    (hspares call hcall).imp_right (Or.resolve_right · id)⟩

/-- The supplier handled one request. -/
theorem Passes.keeps_handled {sinks : Prop} (h : Passes p kept p' sinks parted)
    (hhandles : ∃ made, p.Handles kept r made p') : Keeps p kept p' parted := by
  obtain ⟨made, hhandles⟩ := hhandles
  exact ⟨h.weaken (fun _ => trivial) id, made ++ [], .handle .start hhandles⟩

/-- Nothing is evicted for the request. -/
theorem Passes.handles_idle {a : Answer} (h : Passes p kept p' False parted)
    (hrun : serve r p = .ok a p') (hpassed : r.passed = ∅) (hnone : r.eviction? p = none) :
    ∃ made, p.Handles kept r made p' := by
  obtain ⟨made, hcalls, hspares⟩ := h.passage.spares
  have hapart : Disjoint r.passed kept := by
    rw [hpassed]
    exact Set.empty_disjoint kept
  refine ⟨made, ⟨a, hrun⟩, hcalls, hapart, fun call hcall => (hspares call hcall).1,
    fun _ call hcall => (hspares call hcall).2.resolve_right id, fun evict hevict => ?_⟩
  rw [hnone] at hevict
  exact absurd hevict.symm (Option.some_ne_none evict)

/-- Nothing at all was done for the request. -/
theorem handles_nothing {a : Answer} (kept : Set Nat) (hrun : serve r p = .ok a p)
    (hpassed : r.passed = ∅) (hnone : r.eviction? p = none) : ∃ made, p.Handles kept r made p := by
  have hpasses : Passes p kept p := .refl p kept
  exact hpasses.handles_idle hrun hpassed hnone

/-- Ranges were evicted for the request. -/
theorem Passes.handles_evicts {a : Answer} (h : Passes p kept p' True parted)
    (hrun : serve r p = .ok a p') (hpassed : Disjoint r.passed kept)
    (hevict : r.eviction? p = some evict) (hevicts : p.Evicts evict r.passed evicted p')
    (hreturned : p.Returned evicted sunk surrendered made p') :
    ∃ made, p.Handles kept r made p' := by
  obtain ⟨made', hcalls, hspares⟩ := h.passage.spares
  -- The passage and what went back tell of the same calls.
  obtain rfl : made' = made := List.append_cancel_right (hcalls.symm.trans hreturned.calls)
  refine ⟨made', ⟨a, hrun⟩, hcalls, hpassed, fun call hcall => (hspares call hcall).1,
    fun hnone => ?_, fun evict' hevict' => ?_⟩
  · rw [hevict] at hnone
    exact absurd hnone (Option.some_ne_none evict)
  · rw [hevict] at hevict'
    obtain rfl := Option.some.inj hevict'
    exact ⟨evicted, sunk, surrendered, hevicts, hreturned⟩

/-! ## Each request -/

/-- What was cached and passed is what was evicted and what is cached now. -/
theorem evicts_of_reshapes {passed : Set Nat} {c : RangeCache} {before : List Range}
    (hrun : evict p.supplier.cache = .ok evicted c) (hcache : p'.supplier.cache = c)
    (hreshapes : Reshapes before (evicted ++ c.ranges)) (htidy : Tidy before)
    (hbefore : bytes before = bytes p.cached ∪ passed) : p.Evicts evict passed evicted p' := by
  subst hcache
  refine ⟨hrun, ?_, (tidy_append.1 (hreshapes.tidy htidy)).2.2⟩
  rw [← hbefore, ← hreshapes.bytes_eq, bytes_append]
  rfl

theorem Sound.handles_allocate (h : Sound p out lent) (hpos : 0 < size)
    (hsize : size % pageSize = 0) :
    Action.Ensures (allocate size) p
      (fun address? p' => Obtains p out lent (lent + size) size address? p' ∧
        ∃ made, p.Handles out (.allocate size) made p') Action.never := by
  apply (h.passes_allocate hpos hsize).with_run.weaken
  rintro address? p' ⟨hrun, hobtains⟩
  exact ⟨hobtains, hobtains.passes.handles_idle (Action.map_of_ok hrun) rfl rfl⟩

theorem Sound.handles_extendInPlace (h : Sound p out lent) {address old new : Nat}
    (hown : bytesAt address old ⊆ out) (hpos : 0 < old) (hgrows : old < new)
    (haddress : address % pageSize = 0) (hold : old % pageSize = 0)
    (hnew : new % pageSize = 0) :
    Action.Ensures (extendInPlace address old new) p
      (fun grown p' => Extends p out lent (address + old) (new - old) grown p' ∧
        ∃ made, p.Handles out (.extend address old new) made p') Action.never := by
  apply (h.passes_extendInPlace hown hpos hgrows haddress hold hnew).with_run.weaken
  rintro grown p' ⟨hrun, hextends⟩
  exact ⟨hextends, hextends.passes.handles_idle (Action.map_of_ok hrun) rfl rfl⟩

theorem Sound.handles_reclaim {address size : Nat} {opts : ReclaimOptions}
    (h : Sound p (out ∪ bytesAt address size) lent) (hapart : Disjoint out (bytesAt address size))
    (hpos : 0 < size) (haddress : address % pageSize = 0) (hsize : size % pageSize = 0)
    (hclean : opts.clean = true → ∀ x ∈ bytesAt address size, p.byteAt x = 0)
    (hlent : size ≤ lent) :
    Action.Ensures (reclaim address size opts) p
      (fun _ p' => (Passes p out p' True (Parts opts out address size) ∧
          Sound p' out (lent - size)) ∧
        ∃ made, p.Handles out (.reclaim address size opts) made p') Action.never := by
  apply ((h.passes_reclaim hapart hpos haddress hsize hclean hlent).and
    (h.ensures_reclaimReturned hapart hpos haddress hsize hclean hlent)).with_run.mono _
      fun _ _ hends => hends.1
  rintro _ p' ⟨hrun, ⟨hpasses, hsound⟩, evicted, c, hevict, ⟨sunk, surrendered, made, hreturned⟩,
    hcache, htakes⟩
  -- What is handed back is a range apart from the cached ones.
  have hrange : Tidy (⟨address, size, opts.clean, p.supplier.region.contains address⟩ ::
      p.cached) := by
    have hlast := h.lt_signedLimit (show address + (size - 1) ∈ out ∪ bytesAt address size from
      .inr (mem_bytesAt.2 (by omega)))
    refine tidy_cons.2 ⟨⟨haddress, hsize, hpos, by show address + size ≤ _; omega⟩, ?_,
      h.cache.tidy⟩
    exact h.apart.mono_left Set.subset_union_right
  refine ⟨⟨hpasses, hsound⟩, hpasses.handles_evicts (Action.map_of_ok hrun) hapart.symm rfl
    (evicts_of_reshapes hevict hcache htakes.reshapes hrange ?_) hreturned⟩
  rw [bytes_cons, Set.union_comm]
  rfl

theorem Sound.handles_trim (h : Sound p out lent) (pad : Nat) :
    Action.Ensures (trim pad) p
      (fun _ p' => (Passes p out p' True ∧ Sound p' out lent) ∧
        ∃ made, p.Handles out (.trim pad) made p') Action.never := by
  apply ((h.passes_trim pad).and (h.ensures_trimReturned pad)).with_run.mono _
    fun _ _ hends => hends.1
  rintro n p' ⟨hrun, ⟨hpasses, hsound⟩, evicted, c, sunk, surrendered, made, hevict, hreturned, -,
    hcache, hevictions⟩
  refine ⟨⟨hpasses, hsound⟩, hpasses.handles_evicts (Action.map_of_ok hrun)
    (Set.empty_disjoint out) rfl (evicts_of_reshapes hevict hcache
      (Reshapes.of_perm hevictions.perm) h.cache.tidy ?_) hreturned⟩
  exact (Set.union_empty _).symm

/-! ## What the requests of an owner come to -/

/-- What an owner's request for `size` bytes may come to; `granted` bytes are lent if it is met. -/
def Grants (p : Paging) (out : Set Nat) (lent granted size : Nat) :
    Option Nat → Paging → Prop
  | none, p' => Keeps p out p' ∧ Sound p' out lent
  | some address, p' => Keeps p out p' ∧ Supplies p' out granted address size

theorem Obtains.grants {address? : Option Nat} (h : Obtains p out lent granted size address? p')
    (hkeeps : Keeps p out p') : Grants p out lent granted size address? p' := by
  cases address? with
  | none => exact ⟨hkeeps, h.2⟩
  | some address => exact ⟨hkeeps, h.2⟩

/-- A supplier hands out zeroed memory that was in nobody's hands. -/
theorem Sound.ensures_allocate (h : Sound p out lent) (hpos : 0 < size)
    (hsize : size % pageSize = 0) :
    Action.Ensures (allocate size) p (Grants p out lent (lent + size) size) Action.never :=
  (h.handles_allocate hpos hsize).weaken fun _ _ hpost =>
    hpost.1.grants (hpost.1.passes.keeps_handled hpost.2)

/-- A range grows in place by memory that was in nobody's hands and is zero, or not at all. -/
theorem Sound.ensures_extendInPlace (h : Sound p out lent) {address old new : Nat}
    (hown : bytesAt address old ⊆ out) (hpos : 0 < old) (hgrows : old < new)
    (haddress : address % pageSize = 0) (hold : old % pageSize = 0)
    (hnew : new % pageSize = 0) :
    Action.Ensures (extendInPlace address old new) p
      (fun grown p' => Grants p out lent (lent + (new - old)) (new - old)
        (if grown = true then some (address + old) else none) p') Action.never :=
  (h.handles_extendInPlace hown hpos hgrows haddress hold hnew).weaken fun _ _ hpost =>
    hpost.1.grants (hpost.1.passes.keeps_handled hpost.2)

/-- A range that is handed back is cached or goes back to the kernel, and what has to leave
the cache for it goes there too. -/
theorem Sound.ensures_reclaim {address size : Nat} {opts : ReclaimOptions}
    (h : Sound p (out ∪ bytesAt address size) lent) (hapart : Disjoint out (bytesAt address size))
    (hpos : 0 < size) (haddress : address % pageSize = 0) (hsize : size % pageSize = 0)
    (hclean : opts.clean = true → ∀ x ∈ bytesAt address size, p.byteAt x = 0)
    (hlent : size ≤ lent) :
    Action.Ensures (reclaim address size opts) p
      (fun _ p' => Keeps p out p' (Parts opts out address size) ∧ Sound p' out (lent - size))
      Action.never :=
  (h.handles_reclaim hapart hpos haddress hsize hclean hlent).weaken fun _ _ hpost =>
    ⟨hpost.1.1.keeps_handled hpost.2, hpost.1.2⟩

theorem Sound.ensures_trim (h : Sound p out lent) (pad : Nat) :
    Action.Ensures (trim pad) p (fun _ p' => Keeps p out p' ∧ Sound p' out lent) Action.never :=
  (h.handles_trim pad).weaken fun _ _ hpost => ⟨hpost.1.1.keeps_handled hpost.2, hpost.1.2⟩

/-- Memory is mapped apart from the supplier. -/
theorem Sound.ensures_mapApart (h : Sound p out lent) (hint : Nat) {len : Nat}
    (hlen : len % pageSize = 0) :
    Action.Ensures (map hint len) p (Grants p out lent lent len) Action.never :=
  (h.ensures_map hint hlen).with_run.weaken fun _ _ hpost =>
    hpost.2.grants (hpost.2.passes.keeps_aside (.map hpost.1))

/-- Memory is unmapped that was mapped apart from the supplier. -/
theorem Sound.ensures_unmapApart {address len : Nat} (h : Sound p (out ∪ bytesAt address len) lent)
    (hgone : Disjoint out (bytesAt address len)) (haddress : address % pageSize = 0)
    (hlen : len % pageSize = 0) :
    Action.Ensures (unmap address len) p (fun _ p' => Keeps p out p' ∧ Sound p' out lent)
      Action.never :=
  (h.ensures_unmap hgone haddress hlen).with_run.weaken fun _ _ hpost =>
    ⟨hpost.2.1.keeps_aside (.unmap hpost.1), hpost.2.2⟩

/-- An owner stored to memory. -/
theorem Keeps.of_store {m : Memory} (hbytes : ∀ x ∈ kept, m.byteAt x = p.byteAt x) :
    Keeps p kept { p with kernel := { p.kernel with memory := m } } parted := by
  have huse : Kernel.inUse { p.kernel with memory := m } = p.kernel.inUse :=
    Kernel.inUse_congr rfl rfl rfl
  have hpasses : Passes p kept { p with kernel := { p.kernel with memory := m } } False parted :=
    .of_quiet rfl rfl (fun _ => id) id rfl huse hbytes
  exact hpasses.keeps_aside (.store m)

/-- A function of memory is applied to it. -/
theorem Sound.rewrites_by {gone : Set Nat} (h : Sound p out lent) (f : Memory → Memory)
    (hgone : gone ⊆ out)
    (hmemory : ∀ x, x ∉ gone → (f p.kernel.memory).byteAt x = p.kernel.memory.byteAt x) :
    Sound { p with kernel := { p.kernel with memory := f p.kernel.memory } } out lent ∧
      Keeps p goneᶜ { p with kernel := { p.kernel with memory := f p.kernel.memory } } := by
  obtain ⟨hsound, hpasses⟩ := Holding.rewrites_by h f hgone hmemory
  exact ⟨hsound, hpasses.keeps_aside (.store _)⟩

end Paging
end PagedHeap
