import PagedHeap.Proofs.Block.Endings
import PagedHeap.Proofs.Heap.Serving

/-!
# Pointers are checked first

Whatever the heap is to do with a pointer, it first looks whether an allocation can be there: a
page-aligned pointer has to have an entry in the table, and by the header of its run any other
one has to be at the place of a block.  A pointer that fails the check is the end of the process,
before anything is done.  One that passes it is never blamed afterwards, unless the client claims
that more is allocated there than is.
-/

namespace PagedHeap

/-- The request is about the allocation at `x`, and cannot be turned down for another reason. -/
inductive HeapRequest.Checks (x : Nat) : HeapRequest → Prop where
  | reclaim : Checks x (.reclaim (some x))
  | reclaimSized (size : Nat) : Checks x (.reclaimSized (some x) size)
  | allocatedSize : Checks x (.allocatedSize (some x))
  | vacate (opts : AllocOptions) : Checks x (.reallocate (some x) 0 opts)
  | reallocate {size : Nat} {opts : AllocOptions} {target : Route}
      (hroute : route size opts = .ok (some target)) : Checks x (.reallocate (some x) size opts)

/-- The request does not end the process because of its pointer, unless it claims that more than
`n` bytes are to be freed. -/
def HeapRequest.Acquits (r : HeapRequest) (x n : Nat) (e : Ending) : Prop :=
  e.Blameless ∨
    ∃ size, r = .reclaimSized (some x) size ∧ n < size ∧ e = .corrupted (.sizeMismatch x size n)

/-- By the header of its run, there is no block at `x`. -/
inductive Memory.Faulty (m : Memory) (x : Nat) : Corruption → Prop where
  | category (hnumber : maxCategory < m.runCategory (pageOf x)) :
      Faulty m x (.badCategory (pageOf x) (m.runCategory (pageOf x)))
  | place {c : Category} (hnumber : m.runCategory (pageOf x) = c.val)
      (hoffset : pageOffset x % c.blockSize ≠ 0) : Faulty m x (.misalignedBlock x c.blockSize)

open PagedHeap.Action Ending

variable {σ α β : Type}

/-- The action reports a fault and ends the process, and does nothing else. -/
def Reports (f : Focus σ Kernel) (s : σ) (fault : Corruption) (action : Action σ α) : Prop :=
  Ensures action s (fun _ _ => False) fun e s' =>
    e = .corrupted fault ∧ s' = f.write ((f.read s).sendError e.reportText) s

/-- The whole of a kernel. -/
def Kernel.whole : Focus Kernel Kernel := ⟨id, fun k _ => k⟩

section Reporting

variable {f : Focus σ Kernel} {s : σ} {fault : Corruption} {action : Action σ α}

theorem Reports.bind (h : Reports f s fault action) (next : α → Action σ β) :
    Reports f s fault (action >>= next) := by
  rw [Reports, ensures_bind]
  exact h.imp fun _ _ hnever => hnever.elim

theorem Kernel.reports_corrupted (k : Kernel) :
    Reports whole k fault (corrupted fault : Action Kernel α) := by
  rw [Reports, ensures_corrupted]
  exact ⟨rfl, rfl⟩

theorem reports_within {action : Action Kernel α}
    (h : Reports Kernel.whole (f.read s) fault action) :
    Reports f s fault (within f action) := by
  rw [Reports, ensures_within]
  apply h.mono
  · exact fun _ _ hnever => hnever
  · intro e k hends
    obtain ⟨rfl, rfl⟩ := hends
    exact ⟨rfl, rfl⟩

end Reporting

/-! ## The two checks -/

theorem LargeHeap.reports_sizeOf {l : LargeHeap} {x : Nat} (hnone : l.table.get? x = none) :
    Reports kernelPart l (.unknownLargePointer x) (sizeOf x) := by
  simp only [Reports, sizeOf, ensures_bind, ensures_get, hnone]
  exact reports_within (Kernel.reports_corrupted _)

theorem LargeHeap.reports_resize {l : LargeHeap} {x size len align : Nat}
    (hnone : l.table.get? x = none) (hceil : pageCeil? size = some len) :
    Reports kernelPart l (.unknownLargePointer x) (resize x size align) := by
  unfold resize
  rw [hceil]
  refine Reports.bind ?_ _
  exact reports_sizeOf hnone

theorem Kernel.reports_blockCategory {k : Kernel} {x : Nat} {fault : Corruption}
    (hfault : k.memory.Faulty x fault) : Reports whole k fault (blockCategory x) := by
  simp only [Reports, blockCategory, ensures_bind, ensures_get]
  cases hfault with
  | category hnumber =>
      rw [Category.ofNat?_eq_none_iff.2 hnumber]
      exact reports_corrupted k
  | place hnumber hoffset =>
      rw [hnumber, Category.ofNat?_val]
      simp only [if_pos (Or.inr hoffset)]
      exact reports_corrupted k

/-- The header of the run tells whether there is a block. -/
theorem isBlock_or_faulty (m : Memory) {x : Nat} (hoffset : pageOffset x ≠ 0) :
    (∃ c, IsBlock m c x) ∨ ∃ fault, m.Faulty x fault := by
  cases hnumber : Category.ofNat? (m.runCategory (pageOf x)) with
  | none => exact .inr ⟨_, .category (Category.ofNat?_eq_none_iff.1 hnumber)⟩
  | some c =>
      have hcategory := (Category.val_of_ofNat? hnumber).symm
      by_cases hmod : pageOffset x % c.blockSize = 0
      · exact .inl ⟨c, hcategory, hoffset, hmod⟩
      · exact .inr ⟨_, .place hcategory hmod⟩

/-- Behind its check a block that is freed is not to blame. -/
theorem BlockHeap.ensures_free_blameless {b : BlockHeap} {c : Category} {x : Nat}
    (hblock : IsBlock b.paging.kernel.memory c x) :
    Ensures (free x) b (fun _ _ => True) (fun e _ => e.Blameless) := by
  rw [free, ensures_bind, ensures_within]
  apply ensures_blockCategory hblock
  exact ((endsIn_list c).bind fun l =>
    ((endsIn_flush c).onlyIf (decide (cacheCeiling ≤ l.count))).bind fun _ => endsIn_push c x 1) b

namespace Heap

/-- Nothing was freed or handed out, and no byte has changed: there is a report of the ending, and
no more. -/
structure Untouched (h : Heap) (e : Ending) (h' : Heap) : Prop where
  kernel : h'.kernel = h.kernel.sendError e.reportText
  supplier : h'.supplier = h.supplier
  table : h'.table = h.table
  caches : ∀ place, h'.cacheAt place = h.cacheAt place

/-- The action does not answer.  It ends the process for the fault before anything is done. -/
def Exposes (h : Heap) (fault : Corruption) (action : Action Heap α) : Prop :=
  Ensures action h (fun _ _ => False) fun e h' => e = .corrupted fault ∧ h.Untouched e h'

variable {h : Heap} {spans : Place → Category → List Span} {live foreign : Set Nat}
  {t x n size : Nat} {fault : Corruption} {action : Action Heap α} {r : HeapRequest}

theorem Exposes.bind (hexposes : h.Exposes fault action) (next : α → Action Heap β) :
    h.Exposes fault (action >>= next) := by
  rw [Exposes, ensures_bind]
  exact hexposes.imp fun _ _ hnever => hnever.elim

theorem Exposes.map (hexposes : h.Exposes fault action) (f : α → β) :
    h.Exposes fault (f <$> action) := by
  rw [Exposes, ensures_map]
  exact hexposes

theorem exposes_onKernel {action : Action Kernel α}
    (hreports : Reports Kernel.whole h.kernel fault action) :
    h.Exposes fault (onKernel action) := by
  rw [Exposes, onKernel, ensures_within]
  apply hreports.mono
  · exact fun _ _ hnever => hnever
  · intro e k hends
    obtain ⟨rfl, rfl⟩ := hends
    refine ⟨rfl, rfl, rfl, rfl, fun place => ?_⟩
    cases place with
    | fallback => rfl
    | thread u => rfl

theorem exposes_onLarge {action : Action LargeHeap α}
    (hreports : Reports LargeHeap.kernelPart h.largeHeap fault action) :
    h.Exposes fault (onLarge action) := by
  rw [Exposes, onLarge, ensures_within]
  apply hreports.mono
  · exact fun _ _ hnever => hnever
  · intro e l hends
    obtain ⟨rfl, rfl⟩ := hends
    exact ⟨rfl, rfl, rfl, rfl, cacheAt_largePart _ h⟩

/-- Outside of nested use a cache can be borrowed, and what is found then is found at once. -/
theorem exposes_withCache {operation : Action BlockHeap α} (hfree : h.fallbackHeld = false)
    (hreports : ∀ place, Reports BlockHeap.kernelPart (h.blocksAt place) fault operation) :
    h.Exposes fault (withCache t operation) := by
  rw [Exposes, withCache, ensures_bind]
  apply (ensures_borrow h t).mono
  · intro loan h₁ hlends
    rw [ensures_bind, ensures_within, read_loanPart, hlends.parts.blocksAt]
    apply (hreports (placeOf t loan)).mono
    · exact fun _ _ hnever => hnever.elim
    · intro e b hends
      obtain ⟨rfl, rfl⟩ := hends
      have hreceives := receives_loanPart h₁ t loan (BlockHeap.kernelPart.write
        (h.kernel.sendError (Ending.corrupted fault).reportText) (h.blocksAt (placeOf t loan)))
      have hparts := hlends.parts
      refine ⟨rfl, hreceives.kernel_eq, congrArg (fun b => b.paging.supplier) hreceives.blocks,
        hreceives.table.trans hparts.table, fun place => ?_⟩
      by_cases hplace : place = placeOf t loan
      · rw [hplace]
        exact congrArg BlockHeap.cache hreceives.blocks
      · exact (hreceives.others place hplace).trans (hparts.caches place)
  · intro e _ hends
    exact absurd (hends.1.symm.trans hfree) (by simp)

/-! ## Pointers that fail the check -/

/-- A page-aligned pointer without an entry in the table is found out by every request. -/
theorem exposes_unknown (hoffset : pageOffset x = 0) (hnone : h.table.get? x = none)
    (hchecks : r.Checks x) (t : Nat) : h.Exposes (.unknownLargePointer x) (serve t r) := by
  have hunknown : Reports LargeHeap.kernelPart h.largeHeap (.unknownLargePointer x)
      (LargeHeap.sizeOf x) := LargeHeap.reports_sizeOf hnone
  have hlarge := isBlock_eq_false hoffset
  have hreclaim : h.Exposes (.unknownLargePointer x) (reclaim t (some x)) := by
    simp only [reclaim, hlarge, Bool.false_eq_true, if_false]
    exact exposes_onLarge (hunknown.bind _)
  cases hchecks with
  | reclaim => exact hreclaim.map _
  | reclaimSized size =>
      refine Exposes.map ?_ _
      simp only [reclaimSized, hlarge, Bool.false_eq_true, if_false]
      exact exposes_onLarge (hunknown.bind _)
  | allocatedSize =>
      refine Exposes.map ?_ _
      simp only [allocatedSize, hlarge, Bool.false_eq_true, if_false]
      exact exposes_onLarge hunknown
  | vacate opts =>
      refine Exposes.map ?_ _
      simp only [reallocate, if_true]
      exact hreclaim.bind _
  | reallocate hroute =>
      rename_i size opts target
      obtain ⟨hpos, -, -, -, -, -⟩ := route_eq_some hroute
      refine Exposes.map ?_ _
      simp only [reallocate, if_neg (Nat.pos_iff_ne_zero.1 hpos), hroute, hlarge,
        Bool.false_eq_true, if_false]
      have hmoved := (exposes_onLarge hunknown).bind fun old => moveTo t x old size opts
      cases target with
      | small c => exact hmoved
      | large rounded align =>
          simp only [resizeLarge]
          by_cases halign : x % align = 0
          · -- The length in pages is computed before the pointer is looked up.
            obtain ⟨len, hceil⟩ := exists_pageCeil? hroute
            rw [if_pos halign]
            exact (exposes_onLarge (LargeHeap.reports_resize hnone hceil)).bind _
          · rw [if_neg halign]
            exact hmoved

/-- A pointer that cannot be that of a block is found out by every request. -/
theorem exposes_faulty (hoffset : pageOffset x ≠ 0) (hfree : h.fallbackHeld = false)
    (hfault : h.kernel.memory.Faulty x fault) (hchecks : r.Checks x) (t : Nat) :
    h.Exposes fault (serve t r) := by
  have hcategory := Kernel.reports_blockCategory hfault
  have hsmall := isBlock_eq_true hoffset
  have hreclaim : h.Exposes fault (reclaim t (some x)) := by
    simp only [reclaim, hsmall, if_true]
    exact exposes_withCache hfree fun _ => (reports_within hcategory).bind _
  cases hchecks with
  | reclaim => exact hreclaim.map _
  | reclaimSized size =>
      refine Exposes.map ?_ _
      simp only [reclaimSized, hsmall, if_true]
      exact (exposes_onKernel (hcategory.bind _)).bind _
  | allocatedSize =>
      refine Exposes.map ?_ _
      simp only [allocatedSize, hsmall, if_true]
      exact exposes_onKernel (hcategory.bind _)
  | vacate opts =>
      refine Exposes.map ?_ _
      simp only [reallocate, if_true]
      exact hreclaim.bind _
  | reallocate hroute =>
      obtain ⟨hpos, -, -, -, -, -⟩ := route_eq_some hroute
      refine Exposes.map ?_ _
      simp only [reallocate, if_neg (Nat.pos_iff_ne_zero.1 hpos), hroute, hsmall, if_true]
      exact (exposes_onKernel hcategory).bind _

/-! ## Pointers that pass it -/

theorem blameless_reentered (threading : Threading) :
    (LockWord.reentered threading).Blameless := by
  cases threading with
  | exclusive => rfl
  | shared => rfl

theorem LockEnds.blameless {e : Ending} (hends : h.LockEnds e) : e.Blameless := by
  rw [hends.2]
  exact blameless_reentered _

theorem OutEnds.blameless {e : Ending} (hends : h.OutEnds e) : e.Blameless := by
  obtain ⟨-, size, rfl⟩ := hends
  rfl

/-- The pointers of the client pass. -/
theorem Sound.ensures_acquits (hsound : h.Sound spans live foreign) (hx : x ∈ live)
    (hn : h.Occupies x n) (hchecks : r.Checks x) (t : Nat) :
    Ensures (serve t r) h (fun _ _ => True) (fun e _ => r.Acquits x n e) := by
  have hpassed : r.passed? = some x := by
    cases hchecks with
    | _ => rfl
  apply (hsound.ensures_serve t r fun y hy => ?_).mono
  · exact fun _ _ _ => trivial
  · intro e _ hends
    cases hends with
    | stuck hends =>
        rcases hends with hlock | hout
        · exact .inl hlock.blameless
        · exact .inl hout.blameless
    | claim hpassed' hclaims hn' hlt =>
        rw [hpassed] at hpassed'
        obtain rfl := Option.some.inj hpassed'
        obtain rfl := hn.unique hn'
        cases hchecks with
        | reclaimSized given =>
            obtain rfl := Option.some.inj hclaims
            exact .inr ⟨_, rfl, hlt, rfl⟩
        | _ => exact absurd hclaims (by simp [HeapRequest.claims?])
    | shrink hrequest _ =>
        rw [hrequest] at hchecks
        cases hchecks
  · rw [hpassed] at hy
    exact Option.some.inj hy ▸ hx

theorem ensures_reclaim_blameless {c : Category} (hblock : IsBlock h.kernel.memory c x) (t : Nat) :
    Ensures (reclaim t (some x)) h (fun _ _ => True) (fun e _ => e.Blameless) := by
  simp only [reclaim, isBlock_eq_true hblock.offset_ne, if_true]
  apply (ensures_withCache_or fun _ => BlockHeap.ensures_free_blameless hblock).mono
  · exact fun _ _ _ => trivial
  · intro e _ hends
    rcases hends with hlock | hblameless
    · exact hlock.blameless
    · exact hblameless

/-! ## Claims -/

/-- Only where there is an allocation has it a size. -/
theorem occupies_of_allocatedSize {h' : Heap} (hrun : allocatedSize (some x) h = .ok n h') :
    h.Occupies x n := by
  have hself : ∀ {n' : Nat}, h.Occupies x n' → h.Occupies x n := by
    intro n' hn'
    have hasked : Ensures (allocatedSize (some x)) h (fun size _ => size = n') never :=
      ensures_allocatedSize hn' rfl
    rwa [hasked.of_ok hrun]
  by_cases hoffset : pageOffset x = 0
  · cases hsize : h.table.get? x with
    | none =>
        have hexposes := exposes_unknown hoffset hsize .allocatedSize 0
        rw [Exposes, serve, ensures_map] at hexposes
        exact (hexposes.of_ok hrun).elim
    | some n' => exact hself (.inl ⟨hoffset, hsize⟩)
  · rcases isBlock_or_faulty h.kernel.memory hoffset with ⟨c, hblock⟩ | ⟨fault, hfault⟩
    · exact hself (.inr ⟨c, hblock, rfl⟩)
    · simp only [allocatedSize, isBlock_eq_true hoffset, if_true] at hrun
      exact ((exposes_onKernel ((Kernel.reports_blockCategory hfault).bind _)).of_ok hrun).elim

theorem reports_claim {l : LargeHeap} (hsize : l.table.get? x = some n) (hlt : n < size) :
    Reports LargeHeap.kernelPart l (.sizeMismatch x size n) (LargeHeap.free x (some size)) := by
  rw [Reports, LargeHeap.free, ensures_bind]
  apply LargeHeap.ensures_sizeOf hsize
  simp only [LargeHeap.checkClaim, decide_eq_true hlt, onlyIf_true]
  exact (reports_within (Kernel.reports_corrupted _)).bind _

/-- A claim to more than is allocated is found out. -/
theorem exposes_claim (hn : h.Occupies x n) (hlt : n < size) (t : Nat) :
    h.Exposes (.sizeMismatch x size n) (serve t (.reclaimSized (some x) size)) := by
  refine Exposes.map ?_ _
  rcases hn with ⟨hoffset, hsize⟩ | ⟨c, hblock, rfl⟩
  · simp only [reclaimSized, isBlock_eq_false hoffset, Bool.false_eq_true, if_false]
    exact exposes_onLarge (reports_claim hsize hlt)
  · simp only [reclaimSized, isBlock_eq_true hblock.offset_ne, if_true, Exposes, onKernel,
      Kernel.blockSize, ensures_bind, ensures_within, ensures_pure]
    apply BlockHeap.ensures_blockCategory hblock
    rw [decide_eq_true hlt, onlyIf_true, ← ensures_bind]
    exact (exposes_onKernel (Kernel.reports_corrupted _)).bind _

/-- A claim that is not too high makes no difference. -/
theorem reclaimSized_eq_reclaim (hn : h.Occupies x n) (hle : size ≤ n) (t : Nat) :
    reclaimSized t (some x) size h = reclaim t (some x) h := by
  have hfits : decide (n < size) = false := decide_eq_false (Nat.not_lt.2 hle)
  rcases hn with ⟨hoffset, hsize⟩ | ⟨c, hblock, rfl⟩
  · have hfound : LargeHeap.sizeOf x h.largeHeap = .ok n h.largeHeap := by
      rw [LargeHeap.sizeOf, get_bind_apply, show h.largeHeap.table.get? x = some n from hsize]
      rfl
    have hfree : LargeHeap.free x (some size) h.largeHeap = LargeHeap.free x none h.largeHeap := by
      simp only [LargeHeap.free, bind, EStateM.bind, hfound, LargeHeap.checkClaim, hfits,
        onlyIf_false]
    simp only [reclaimSized, reclaim, isBlock_eq_false hoffset, Bool.false_eq_true, if_false,
      onLarge, within]
    rw [show largePart.read h = h.largeHeap from rfl, hfree]
  · have hfound : onKernel (Kernel.blockSize x) h = .ok c.blockSize h := by
      have hasked : Ensures (onKernel (Kernel.blockSize x)) h
          (fun n' h' => n' = c.blockSize ∧ h' = h) never := by
        simp only [onKernel, Kernel.blockSize, ensures_within, ensures_bind, ensures_pure]
        exact BlockHeap.ensures_blockCategory hblock ⟨rfl, rfl⟩
      obtain ⟨n', h', hrun, rfl, rfl⟩ := hasked.exists_ok
      exact hrun
    simp only [reclaimSized, reclaim, isBlock_eq_true hblock.offset_ne, if_true, bind, EStateM.bind,
      hfound, hfits, onlyIf_false]
    rfl

end Heap
end PagedHeap
