import PagedHeap.Proofs.Site.Steps

/-!
# All owners in order

In every site that is reached all owners are sound and have their bytes to themselves, and the
record of calls tells what they have of the arena.

For an owner at work, what the others have is foreign, and so it is left alone; what others do
leaves all owners alone.
-/

namespace PagedHeap
namespace Site

open SizeTable

/-- All owners are sound, and what one of them has no other has.  In the arena nothing is in use
besides, and the record tells that.  The break memory of an owner is in its region. -/
structure Orderly (p : Site) : Prop where
  sound : ∀ o, p.SoundFor (p.foreign o) o
  apart : ∀ o o', o ≠ o' → Disjoint (p.own o) (p.own o')
  others_apart : ∀ o, Disjoint (p.own o) p.others
  exact : ∀ x ∈ p.kernel.inUse, arenaBase ≤ x → x ∉ p.others → ∃ o, x ∈ p.own o
  tells : Call.Tells p.kernel p.others p.record
  charted : ∀ o, ∀ x ∈ p.own o, x < arenaBase → x < (p.paging o).supplier.region.stop
  floored : ∀ o, (p.paging o).supplier.region.floor = 0 → (p.paging o).supplier.region.stop = 0

variable {p p' : Site} {o : Owner} {passed : Set Nat}

/-! ## What order tells -/

theorem Orderly.own_used (h : p.Orderly) (o : Owner) : p.own o ⊆ p.kernel.inUse :=
  (h.sound o).parts.used.1

theorem Orderly.own_subset_foreign (h : p.Orderly) {o o' : Owner} (hne : o' ≠ o) :
    p.own o' ⊆ p.foreign o :=
  fun _ hx => ⟨h.own_used o' hx, fun hin => Set.disjoint_left.1 (h.apart o' o hne) hx hin⟩

theorem Orderly.others_subset_foreign (h : p.Orderly) (o : Owner) : p.others ⊆ p.foreign o :=
  fun _ hx => ⟨h.tells.others_used hx, fun hin => Set.disjoint_left.1 (h.others_apart o) hin hx⟩

/-- By the record, what is owned of the arena is what the owners have of it. -/
theorem Orderly.mem_owned (h : p.Orderly) (x : Nat) :
    x ∈ Call.owned p.record ↔ arenaBase ≤ x ∧ ∃ o, x ∈ p.own o := by
  rw [h.tells.mem_owned]
  constructor
  · intro hx
    obtain ⟨huse, hbase, hnot⟩ := hx
    exact ⟨hbase, h.exact x huse hbase hnot⟩
  · intro hx
    obtain ⟨hbase, o, hown⟩ := hx
    exact ⟨h.own_used o hown, hbase, fun hin => Set.disjoint_left.1 (h.others_apart o) hown hin⟩

/-! ## Steps -/

/-- What another owner has is foreign to the one that acts, so it is left alone. -/
theorem Acts.content {o' : Owner} (hacts : p.Acts o passed (p.foreign o) p') (h : p.Orderly)
    (hne : o' ≠ o) : ∀ y ∈ p.own o', p'.kernel.memory.byteAt y = p.kernel.memory.byteAt y := by
  intro y hy
  rw [← paging_kernel p o, ← paging_kernel p' o]
  exact hacts.keeps.byteAt y (.inr (h.own_subset_foreign hne hy))

/-- What the act of an owner does to all of them. -/
theorem Acts.owners (hacts : p.Acts o passed (p.foreign o) p') (h : p.Orderly) (o' : Owner) :
    p'.SoundFor (p'.foreign o') o' ∧ (o' ≠ o → p'.own o' = p.own o') := by
  have hparts := hacts.sound.parts
  by_cases hne : o' = o
  · obtain ⟨hsound, -⟩ := hacts.sound.unmoved (.refl p' o) hparts.valid hparts.used.1
      fun _ _ => rfl
    exact ⟨hne ▸ hsound, fun hnot => absurd hne hnot⟩
  · obtain ⟨hsound, hown⟩ := (h.sound o').unmoved (hacts.unmoved o' hne) hparts.valid
      ((h.own_subset_foreign hne).trans hparts.used.2) (hacts.content h hne)
    exact ⟨hsound, fun _ => hown⟩

/-- The calls of an act go on record. -/
theorem Acts.tells (hacts : p.Acts o passed (p.foreign o) p') (h : p.Orderly) :
    Call.Tells p'.kernel p'.others p'.record := by
  obtain ⟨made, hmade, htells⟩ :=
    hacts.keeps.passage.tells ((h.others_subset_foreign o).trans Set.subset_union_right)
  rw [paging_kernel, paging_kernel] at hmade htells
  rw [hacts.others_eq, hacts.record_eq, hmade, Call.since_append]
  exact htells p.record h.tells

/-- The break memory of the owner that acts is in its region. -/
theorem Acts.charted (hacts : p.Acts o passed (p.foreign o) p') (h : p.Orderly) {x : Nat}
    (hx : x ∈ p'.own o) (hlow : x < arenaBase) : x < (p'.paging o).supplier.region.stop := by
  have hstop := hacts.keeps.charts.stop x
  rw [paging_kernel, paging_kernel] at hstop
  -- What was in use before and is the owner's now was the owner's then.
  refine hstop (hacts.sound.parts.used.1 hx) hlow fun huse => h.charted o x ?_ hlow
  by_contra hnot
  exact Set.disjoint_left.1 hacts.sound.parts.apart hx ⟨huse, hnot⟩

/-- Where one owner acts, all stay in order. -/
theorem Acts.orderly (hacts : p.Acts o passed (p.foreign o) p') (h : p.Orderly) : p'.Orderly := by
  have howners := hacts.owners h
  have hapart : Disjoint (p'.own o) (p.foreign o) := hacts.sound.parts.apart
  have hstays : ∀ o', o' ≠ o → p'.own o' = p.own o' := fun o' => (howners o').2
  have haway : ∀ o', o' ≠ o → Disjoint (p'.own o) (p'.own o') := by
    intro o' hne
    rw [hstays o' hne]
    exact hapart.mono_right (h.own_subset_foreign hne)
  refine
    { sound := fun o' => (howners o').1
      apart := fun o₁ o₂ hne => ?apart
      others_apart := fun o' => ?others_apart
      exact := fun x hx hbase hnot => ?exact
      tells := hacts.tells h
      charted := fun o' x hx hlow => ?charted
      floored := fun o' => ?floored }
  case apart =>
    by_cases h₁ : o₁ = o
    · subst h₁
      exact haway o₂ hne.symm
    · by_cases h₂ : o₂ = o
      · subst h₂
        exact (haway o₁ hne).symm
      · rw [hstays o₁ h₁, hstays o₂ h₂]
        exact h.apart o₁ o₂ hne
  case others_apart =>
    rw [hacts.others_eq]
    by_cases ho : o' = o
    · rw [ho]
      exact hapart.mono_right (h.others_subset_foreign o)
    · rw [hstays o' ho]
      exact h.others_apart o'
  case exact =>
    rw [hacts.others_eq] at hnot
    rcases hacts.sound.parts.exact hx hbase with hown | hforeign
    · exact ⟨o, hown⟩
    · obtain ⟨o', ho'⟩ := h.exact x hforeign.1 hbase hnot
      have hne : o' ≠ o := fun heq => hforeign.2 (heq ▸ ho')
      exact ⟨o', (hstays o' hne).symm ▸ ho'⟩
  case charted =>
    by_cases ho : o' = o
    · subst ho
      exact hacts.charted h hx hlow
    · rw [(hacts.unmoved o' ho).supplier_eq]
      rw [hstays o' ho] at hx
      exact h.charted o' x hx hlow
  case floored =>
    by_cases ho : o' = o
    · subst ho
      exact hacts.keeps.charts.floor (h.floored o')
    · rw [(hacts.unmoved o' ho).supplier_eq]
      exact h.floored o'

/-- What an owner does at work is a trail of requests to its supplier.  The calls on it go on record;
they leave alone what is foreign, and what the owner's clients have besides what they passed. -/
theorem Work.trail (hwork : p.Work o passed p') (h : p.Orderly) :
    ∃ made, p'.kernel.calls = made ++ p.kernel.calls ∧ p'.record = made ++ p.record ∧
      (p.paging o).Trail (p.held o \ passed ∪ p.foreign o) made (p'.paging o) := by
  have hacts := hwork.acts (h.sound o)
  obtain ⟨made, htrail⟩ := hacts.keeps.trail
  have hmade := htrail.calls
  rw [paging_kernel, paging_kernel] at hmade
  refine ⟨made, hmade, ?_, htrail⟩
  rw [hacts.record_eq, hmade, Call.since_append]

/-- Others leave all in order. -/
theorem Orderly.environment {k : Kernel} {others : Set Nat} (h : p.Orderly) (hvalid : k.Valid)
    (huse : ∀ o, p.own o ⊆ k.inUse)
    (hsame : ∀ o, ∀ y ∈ p.own o, k.memory.byteAt y = p.kernel.memory.byteAt y)
    (hothers : others ⊆ k.inUse) (hapart : ∀ o, Disjoint (p.own o) others)
    (hexact : ∀ x ∈ k.inUse, arenaBase ≤ x → x ∉ others → ∃ o, x ∈ p.own o) :
    ({ p.withKernel k with others := others } : Site).Orderly := by
  have hunmoved : ∀ o, p.Unmoved { p.withKernel k with others := others } o :=
    unmoved_withKernel p k
  have howners := fun o => (h.sound o).unmoved (hunmoved o) hvalid (huse o) (hsame o)
  -- No call is made, so the record tells what it told.
  refine ⟨fun o => (howners o).1, fun o o' hne => ?_, fun o => ?_, fun x hx hbase hnot => ?_,
    ⟨hothers, fun x => (h.mem_owned x).trans ⟨fun hx => ?_, fun hx => ?_⟩, h.tells.lawful⟩,
    fun o x hx hlow => ?_, fun o => ?_⟩
  · rw [(howners o).2, (howners o').2]
    exact h.apart o o' hne
  · rw [(howners o).2]
    exact hapart o
  · obtain ⟨o, ho⟩ := hexact x hx hbase hnot
    exact ⟨o, (howners o).2.symm ▸ ho⟩
  · obtain ⟨hbase, o, ho⟩ := hx
    exact ⟨huse o ho, hbase, fun hin => Set.disjoint_left.1 (hapart o) ho hin⟩
  · obtain ⟨hin, hbase, hnot⟩ := hx
    exact ⟨hbase, hexact x hin hbase hnot⟩
  · rw [(hunmoved o).supplier_eq]
    rw [(howners o).2] at hx
    exact h.charted o x hx hlow
  · rw [(hunmoved o).supplier_eq]
    exact h.floored o

theorem Step.orderly (hstep : p.Step p') (h : p.Orderly) : p'.Orderly := by
  cases hstep with
  | work hwork => exact (hwork.acts (h.sound _)).orderly h
  | store hsame => exact (acts_store (h.sound _) hsame).orderly h
  | assign hempty => exact (acts_assign (h.sound .heap) hempty).orderly h
  | environment hvalid huse hsame hothers hapart hexact =>
      exact h.environment hvalid huse hsame hothers hapart hexact

/-! ## Runs -/

/-- A private supplier has done nothing at the start. -/
theorem privateHeap_new (build : Build) (k : Kernel) (suppliers : List PageConfig) (s : Nat) :
    ∃ config, (Machine.new build k suppliers).privateHeap s = PrivateHeap.new config := by
  have hfold : ∀ (entries : List (PageConfig × Nat)) (t : Std.TreeMap Nat PrivateHeap),
      (∃ config, (t[s]?).getD (PrivateHeap.new {}) = PrivateHeap.new config) →
      ∃ config, ((entries.foldl (fun m e => m.insert e.2 (PrivateHeap.new e.1)) t)[s]?).getD
        (PrivateHeap.new {}) = PrivateHeap.new config := by
    intro entries
    induction entries with
    | nil => exact fun _ ht => ht
    | cons entry entries ih =>
        intro t ht
        refine ih _ ?_
        rw [getD_insert]
        by_cases hs : s = entry.2
        · exact ⟨entry.1, if_pos hs⟩
        · rwa [if_neg hs]
  exact hfold suppliers.zipIdx ∅ ⟨{}, by simp⟩

/-- A client of suppliers of its own has nothing at the start. -/
theorem party_new (build : Build) (k : Kernel) (suppliers : List PageConfig) (s : Nat) :
    ∃ config, (new build k suppliers).party s =
      ⟨⟨k, PageSupplier.new config⟩, .empty, fun _ => .empty⟩ := by
  obtain ⟨config, hnew⟩ := privateHeap_new build k suppliers s
  have hcaches : (fun i => if (0 : Nat) = s
      then (Machine.new build k suppliers).privateCache i else .empty) = fun _ => .empty := by
    funext i
    have hempty : (Machine.new build k suppliers).privateCache i = .empty := by
      simp [Machine.privateCache, Machine.new]
    rw [hempty, ite_self]
  refine ⟨config, ?_⟩
  show (⟨⟨k, ((Machine.new build k suppliers).privateHeap s).supplier⟩,
    ((Machine.new build k suppliers).privateHeap s).table, fun i => if (0 : Nat) = s
      then (Machine.new build k suppliers).privateCache i else .empty⟩ : Party) = _
  rw [hcaches, hnew]
  rfl

/-- At the start all that is in use is foreign to the owners, and none of them has a region. -/
theorem soundFor_new (build : Build) {k : Kernel} (suppliers : List PageConfig) (hvalid : k.Valid)
    (o : Owner) : (new build k suppliers).SoundFor k.inUse o ∧
      ((new build k suppliers).paging o).supplier.region = {} := by
  cases o with
  | heap => exact ⟨⟨_, Heap.sound_new build hvalid⟩, rfl⟩
  | supplier s =>
      obtain ⟨config, hnew⟩ := party_new build k suppliers s
      rw [SoundFor, paging, hnew]
      exact ⟨⟨fun _ _ => [], Party.sound_new config hvalid⟩, rfl⟩

theorem orderly_new (build : Build) {k : Kernel} (suppliers : List PageConfig) (hvalid : k.Valid) :
    (new build k suppliers).Orderly := by
  have hsound := fun o => soundFor_new build suppliers hvalid o
  -- All that is in use is foreign to the owners, so they have nothing.
  have hown : ∀ o, (new build k suppliers).own o = ∅ := by
    intro o
    have hparts := (hsound o).1.parts
    refine Set.eq_empty_of_forall_notMem fun x hx => ?_
    exact Set.disjoint_left.1 hparts.apart hx (hparts.used.1 hx)
  have hnone : ∀ o, ∀ x, x ∉ (new build k suppliers).own o := by
    intro o x hx
    rw [hown] at hx
    exact hx
  refine
    { sound := fun o => ?sound
      apart := fun o o' _ => ?apart
      others_apart := fun o => ?others_apart
      exact := fun x hx _ hnot => absurd hx hnot
      tells := ⟨Set.Subset.refl _, fun x => ?tells, trivial⟩
      charted := fun o x hx => absurd hx (hnone o x)
      floored := fun o _ => ?floored }
  case sound =>
    rw [foreign, hown, Set.sdiff_empty]
    exact (hsound o).1
  case apart =>
    rw [hown]
    exact Set.empty_disjoint _
  case others_apart =>
    rw [hown]
    exact Set.empty_disjoint _
  case tells => exact ⟨fun hx => absurd hx (Set.notMem_empty x), fun hx => absurd hx.1 hx.2.2⟩
  case floored => rw [(hsound o).2]

theorem Reachable.orderly (hreach : p.Reachable) : p.Orderly := by
  induction hreach with
  | start build suppliers hvalid => exact orderly_new build suppliers hvalid
  | step _ hstep ih => exact hstep.orderly ih

end Site
end PagedHeap
