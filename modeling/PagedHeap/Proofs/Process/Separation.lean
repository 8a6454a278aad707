import PagedHeap.Proofs.Process.Steps

/-!
# Allocations are apart

The client can find out where each of its allocations ends.  Those bytes are in no other
allocation, and in nothing that the allocator keeps for itself.  So what is done for one pointer
is nothing to what is behind another, and a pointer that is granted is none that the client had.
-/

namespace PagedHeap
namespace Heap

/-- Every allocation has its bytes to itself, and its size can be asked for. -/
structure Separated (h : Heap) (live : Set Nat) : Prop where
  sized : ∀ x ∈ live, ∃ n, 0 < n ∧ allocatedSize (some x) h = .ok n h ∧ h.body x = bytesAt x n
  apart : ∀ x ∈ live, ∀ y ∈ live, x ≠ y → Disjoint (h.body x) (h.body y)
  headers : ∀ page ∈ pagesOf (h.used live), Disjoint (h.bodies live) (bytesAt page minSize)
  cached : ∀ x c, h.Cached x → IsBlock h.kernel.memory c x →
    Disjoint (h.bodies live) (bytesAt x c.blockSize)
  ranges : Disjoint (h.bodies live) (Ranges.bytes h.supplier.cache.ranges)
  storage : Disjoint (h.bodies live) h.table.storageBytes

variable {h h' : Heap} {spans : Place → Category → List Span} {live foreign kept : Set Nat}
  {x n : Nat}

theorem allocatedSize_eq (hn : h.Occupies x n) : allocatedSize (some x) h = .ok n h := by
  have hasked : Action.Ensures (allocatedSize (some x)) h (fun n' h' => n' = n ∧ h' = h)
      Action.never := ensures_allocatedSize hn ⟨rfl, rfl⟩
  obtain ⟨n', h', hrun, rfl, rfl⟩ := hasked.exists_ok
  exact hrun

/-- There is one answer to the question how large an allocation is. -/
theorem Occupies.eq_of_asked {size : Nat} (hn : h.Occupies x n)
    (hasked : allocatedSize (some x) h = .ok size h') : size = n ∧ h' = h := by
  rw [allocatedSize_eq hn] at hasked
  obtain ⟨rfl, rfl⟩ := EStateM.Result.ok.inj hasked
  exact ⟨rfl, rfl⟩

/-- The bytes of the allocations are out of the supplier's hands. -/
theorem Sound.bodies_subset (hsound : h.Sound spans live foreign) :
    h.bodies live ⊆
      SizeTable.extent h.table.get? ∪ (runBytes (usedBlocks spans live) ∪ foreign) := by
  intro y hy
  obtain ⟨x, hx, hbody⟩ := hy
  rcases hsound.body_cases hx hbody with ⟨hpage, -⟩ | ⟨-, hextent⟩
  · exact .inr (.inl hpage)
  · exact .inl hextent

theorem Sound.separated (hsound : h.Sound spans live foreign) : h.Separated live where
  sized x hx := by
    obtain ⟨n, hpos, hn⟩ := hsound.occupies hx
    exact ⟨n, hpos, allocatedSize_eq hn, hn.body_eq⟩
  apart _ hx _ hy hne := hsound.body_apart hx hy hne
  headers page hpage := by
    rw [hsound.used_eq] at hpage
    rw [Set.disjoint_left]
    intro y hy hheader
    obtain ⟨x, hx, hbody⟩ := hy
    obtain ⟨z, -, rfl⟩ := id hpage
    have hself := pageOf_of_mem (pageOf_mod z) (by decide) hheader
    rcases hsound.body_cases hx hbody with ⟨-, hlow⟩ | ⟨hnot, -⟩
    · rw [hself] at hlow
      rw [mem_bytesAt] at hheader
      omega
    · rw [hself] at hnot
      exact hnot hpage
  cached x c hcached hblock := by
    have hreserved : bytesAt x c.blockSize ⊆ reserved h.kernel.memory (cachedIn spans) :=
      body_subset_reserved hblock (hsound.cached_iff.1 hcached)
    exact (hsound.reserved_apart.mono_left hreserved).symm
  ranges := by
    have hout := Set.disjoint_union_left.1 hsound.large.paging.apart
    exact hout.2.mono_left hsound.bodies_subset
  storage := (hsound.large.storage_apart.mono_right hsound.bodies_subset).symm

/-- What is preserved has the same bytes and the same content. -/
theorem Sound.of_preserves (hsound : h.Sound spans live foreign) (hpreserves : h.Preserves kept h')
    (hsub : kept ⊆ live) (hx : x ∈ kept) :
    h'.body x = h.body x ∧
      ∀ y ∈ h.body x, h'.kernel.memory.byteAt y = h.kernel.memory.byteAt y := by
  obtain ⟨n, -, hn⟩ := hsound.occupies (hsub hx)
  obtain ⟨hn', hsame⟩ := hpreserves x hx n hn
  rw [hn.body_eq, hn'.body_eq]
  exact ⟨rfl, hsame⟩

end Heap

namespace Process

/-- The allocations that were not passed to the heap are where they were, hold what they held, and
none of them was granted. -/
structure Spares (p : Process) (passed? granted? : Option Nat) (p' : Process) : Prop where
  fresh : ∀ x, granted? = some x → x ∉ others passed? p.live
  live : ∀ x ∈ others passed? p.live, x ∈ p'.live
  body : ∀ x ∈ others passed? p.live, p'.heap.body x = p.heap.body x
  content : ∀ x ∈ others passed? p.live, ∀ y ∈ p.heap.body x,
    p'.heap.kernel.memory.byteAt y = p.heap.kernel.memory.byteAt y

variable {p p' : Process} {spans : Place → Category → List Span} {foreign : Set Nat}
  {passed? granted? : Option Nat}

theorem others_subset_after (passed? granted? : Option Nat) (frees : Bool) (live : Set Nat) :
    others passed? live ⊆ after passed? frees granted? live := by
  intro x hx
  cases granted? with
  | some y => exact Set.mem_insert_of_mem y hx
  | none =>
      cases frees with
      | false => exact hx.1
      | true => exact hx

/-- A request leaves the client what is not passed to it. -/
theorem mem_live_serve_of_ne {t x : Nat} {r : HeapRequest} (hx : x ∈ p.live)
    (hne : r.passed? ≠ some x) : x ∈ (p.serve t r).live := by
  unfold Process.serve
  split
  · exact others_subset_after _ _ _ p.live ⟨hx, hne⟩
  · exact hx

theorem Work.fresh (hwork : p.Work passed? granted? p')
    (hsound : p.heap.Sound spans p.live foreign) :
    ∀ x, granted? = some x → x ∉ others passed? p.live := by
  have hnone : ∀ x, (none : Option Nat) = some x → x ∉ others none p.live :=
    fun x hsome => absurd hsome (by simp)
  cases hwork with
  | serve hpassed hrun => exact ((hsound.ensures_serve _ _ hpassed).of_ok hrun).fresh
  | borrow => exact hnone
  | giveBack => exact hnone
  | count => exact hnone
  | beginExit => exact hnone
  | finishExit => exact hnone
  | stage => exact hnone

theorem Work.others_subset (hwork : p.Work passed? granted? p') :
    others passed? p.live ⊆ p'.live := by
  have hall : others none p.live ⊆ p.live := Heap.others_subset none p.live
  cases hwork with
  | serve => exact others_subset_after _ _ _ p.live
  | borrow => exact hall
  | giveBack => exact hall
  | count => exact hall
  | beginExit => exact hall
  | finishExit => exact hall
  | stage => exact hall

/-- Whatever has happened in a process, all allocations of its client are apart, and whatever the
heap does next spares those that are not passed to it. -/
theorem Reachable.separated_and_spared (hreach : p.Reachable) :
    p.heap.Separated p.live ∧
      ∀ passed? granted? p', p.Work passed? granted? p' → p.Spares passed? granted? p' := by
  obtain ⟨spans, foreign, horderly⟩ := hreach.orderly
  have hsound := horderly.sound
  refine ⟨hsound.separated, fun passed? granted? p' hwork => ?_⟩
  obtain ⟨spans', hevolves⟩ := hwork.evolves hsound
  have hsame : ∀ x ∈ others passed? p.live, p'.heap.body x = p.heap.body x ∧ ∀ y ∈ p.heap.body x,
      p'.heap.kernel.memory.byteAt y = p.heap.kernel.memory.byteAt y :=
    fun x hx => hsound.of_preserves hevolves.preserves (Heap.others_subset passed? p.live) hx
  exact ⟨hwork.fresh hsound, hwork.others_subset, fun x hx => (hsame x hx).1,
    fun x hx => (hsame x hx).2⟩

theorem separated_two_blocks : ∃ p p' : Process, p.Reachable ∧ p'.Reachable ∧
    0x200000007080 ∈ p.live ∧ p.Spares none (some 0x200000006080) p' ∧
      Disjoint (p'.heap.body 0x200000007080) (p'.heap.body 0x200000006080) := by
  have hboot : (new .standard (.boot 8 none)).Reachable := reachable_boot .standard (by decide)
  -- Two threads have a block each.
  have hfirst : (new .standard (.boot 8 none)).granted? 0 (.malloc 100) = some 0x200000007080 := by
    decide +kernel
  have hsecond : ((new .standard (.boot 8 none)).serve 0 (.malloc 100)).granted? 1 (.malloc 100) =
      some 0x200000006080 := by
    decide +kernel
  have hreach := hboot.serve (passed_malloc _ 100) (t := 0)
  have hreach' := hreach.serve (passed_malloc _ 100) (t := 1)
  have hlive := mem_live_serve hfirst
  have hlive' := mem_live_serve hsecond
  have hwork := Work.of_granted (passed_malloc _ 100) hsecond
  have hspares := hreach.separated_and_spared.2 _ _ _ hwork
  have hkept := hspares.live _ ⟨hlive, by simp [HeapRequest.passed?]⟩
  have hapart := hreach'.separated_and_spared.1.apart _ hkept _ hlive' (by decide)
  exact ⟨_, _, hreach, hreach', hlive, hspares, hapart⟩

end Process
end PagedHeap
