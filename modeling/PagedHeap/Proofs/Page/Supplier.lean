import PagedHeap.Proofs.Page.Obtaining

/-!
# What a page supplier does

Memory that a supplier hands out was in nobody's hands and is zero; memory that is handed
back is in nobody's hands afterwards, wherever it went.  What is out otherwise keeps its
content.  No operation ends the process, and each counts the bytes that it lends.
-/

namespace PagedHeap

theorem BreakRegion.lt_stop {b : BreakRegion} {address : Nat} (h : b.contains address = true) :
    address < b.stop := by
  rw [contains, Bool.and_eq_true, decide_eq_true_iff] at h
  exact h.2

theorem BreakRegion.floor_ne {b : BreakRegion} {address : Nat} (h : b.contains address = true) :
    b.floor ≠ 0 := by
  rw [contains, Bool.and_eq_true, Bool.and_eq_true] at h
  simpa using h.1.1

namespace Paging

open Ranges

variable {p p' : Paging} {out : Set Nat} {lent : Nat} {pending : List Range} {r : Range}
  {α : Type} {ends : Ending → Paging → Prop}

@[simp] theorem ensures_onCache {action : Action RangeCache α} {post : α → Paging → Prop} :
    Action.Ensures (onCache action) p post ends ↔
      Action.Ensures action p.supplier.cache
        (fun a c => post a { p with supplier := { p.supplier with cache := c } })
        (fun e c => ends e { p with supplier := { p.supplier with cache := c } }) :=
  Action.ensures_within

/-! ## Handing out -/

/-- What is cut out of the cache is pending. -/
theorem Holding.cut {c : RangeCache} (h : Holding p out lent pending)
    (hcuts : p.supplier.cache.Cuts r c) :
    Holding { p with supplier := { p.supplier with cache := c } } out lent (r :: pending) := by
  have hcount := hcuts.counted
  have hle := h.cache_le
  refine Holding.reshape h rfl hcuts.valid ?_ h.region h.counted ?_
  · show c.cachedBytes ≤ cacheLimit
    omega
  have hfirst : Reshapes (pending ++ p.cached) (pending ++ (r :: c.ranges)) :=
    ((Reshapes.of_perm List.perm_append_comm).trans (hcuts.reshapes.append_right pending)).trans
      (Reshapes.of_perm List.perm_append_comm)
  exact hfirst.trans (Reshapes.of_perm List.perm_middle)

theorem Holding.ensures_zero (h : Holding p (out ∪ r.bytes) lent pending)
    (hapart : Disjoint out r.bytes) :
    Action.Ensures (zero r.address r.len) p
      (fun _ p' => Holding p' (out ∪ r.bytes) lent pending ∧ Passes p out p' ∧
        ∀ x ∈ r.bytes, p'.byteAt x = 0) Action.never := by
  simp only [zero, ensures_call]
  obtain ⟨hholding, hpasses⟩ := h.rewrites_by (·.clear r.address r.len) Set.subset_union_right
    fun x hx => Memory.byteAt_clear_outside hx
  exact ⟨hholding, hpasses.mono (Set.subset_compl_iff_disjoint_right.2 hapart),
    fun x hx => Memory.byteAt_clear_inside hx⟩

theorem Holding.ensures_countLive (h : Holding p out lent pending) (size : Nat) :
    Action.Ensures (countLive size) p
      (fun _ p' => Holding p' out (lent + size) pending ∧ Passes p out p' ∧
        p'.kernel = p.kernel) Action.never := by
  simp only [countLive, ensures_update]
  refine ⟨Holding.congr h rfl rfl h.region ?_, Passes.of_kernel rfl rfl (fun _ => id) id rfl,
    trivial⟩
  show p.supplier.liveBytes + UInt64.ofNat size = _
  rw [h.counted, UInt64.ofNat_add]

/-- A range cut out of the cache is zeroed if it need be, and counted. -/
theorem Holding.ensures_handOut (h : Holding p out lent [r]) :
    Action.Ensures (handOut r) p
      (fun _ p' => Passes p out p' ∧ Supplies p' out (lent + r.len) r.address r.len)
      Action.never := by
  have hproper := h.proper List.mem_cons_self
  have hclean := h.honest.clean r (List.mem_append_left _ List.mem_cons_self)
  obtain ⟨hholding, hapart⟩ := h.hand_out
  have hzeroed : Action.Ensures (Action.onlyIf (!r.clean) (zero r.address r.len)) p
      (fun _ p' => Holding p' (out ∪ r.bytes) lent [] ∧ Passes p out p' ∧
        ∀ x ∈ r.bytes, p'.byteAt x = 0) Action.never := by
    rw [Action.ensures_onlyIf]
    split
    · exact hholding.ensures_zero hapart
    · rename_i hnot
      exact ⟨hholding, Passes.refl p out, hclean (by simpa using hnot)⟩
  simp only [handOut, Action.ensures_bind]
  apply hzeroed.weaken
  rintro _ p₁ ⟨hholding₁, hpasses₁, hzero⟩
  apply (hholding₁.ensures_countLive r.len).weaken
  rintro _ p₂ ⟨hholding₂, hpasses₂, hkernel⟩
  refine ⟨hpasses₁.trans (hpasses₂.mono Set.subset_union_left), hholding₂, hapart,
    hproper.address_mod, ?_⟩
  intro x hx
  rw [byteAt, hkernel]
  exact hzero x hx

/-- A supplier hands out zeroed memory that was in nobody's hands. -/
theorem Sound.passes_allocate (h : Sound p out lent) {size : Nat} (hpos : 0 < size)
    (hsize : size % pageSize = 0) :
    Action.Ensures (allocate size) p (Obtains p out lent (lent + size) size) Action.never := by
  simp only [allocate, Action.ensures_bind]
  apply Action.ensures_require (by simp [hpos, hsize, isPageMultiple])
  rw [ensures_onCache]
  apply (h.cache.ensures_take hpos hsize).weaken
  intro range? c hpost
  cases range? with
  | some taken =>
      obtain ⟨rfl, hcuts⟩ := hpost
      simp only [Action.ensures_bind, Action.ensures_pure]
      apply (Holding.cut h hcuts).ensures_handOut.weaken
      rintro _ p' ⟨hpasses, hsupplies⟩
      exact ⟨hpasses.after rfl rfl (fun _ => hcuts.coalesced) id rfl, hsupplies⟩
  | none =>
      obtain rfl := hpost
      simp only [Action.ensures_bind]
      apply (h.ensures_obtain hpos hsize).weaken
      intro address? p₁ hobtains
      cases address? with
      | none => exact .answer hobtains
      | some address =>
          obtain ⟨hpasses, hsupplies⟩ := hobtains
          simp only [countMap, countLive, Action.ensures_bind, ensures_update,
            Action.ensures_pure]
          refine ⟨hpasses.trans (Passes.of_kernel rfl rfl (fun _ => id) id rfl), ?_, hsupplies.apart,
            hsupplies.aligned, hsupplies.zero⟩
          refine Holding.congr hsupplies.sound rfl rfl hsupplies.sound.region ?_
          show p₁.supplier.liveBytes + UInt64.ofNat size = _
          rw [hsupplies.sound.counted, UInt64.ofNat_add]

/-! ## Giving back to the kernel -/

/-- The break was moved down to the start of a pending range, and that was put on record. -/
theorem Holding.drops {p' : Paging} (h : Holding p out lent (r :: pending))
    (htop : p.kernel.programBreak = r.address + r.len) (hregion : r.address ≤ arenaBase)
    (hend : p.supplier.region.stop = r.address + r.len)
    (hsome : (p.kernel.moveBreak (-(r.len : Int))).1 = some p.kernel.programBreak)
    (hshrinks : p.kernel.Shrinks (p.kernel.moveBreak (-(r.len : Int))).2
      (bytesAt (p.kernel.programBreak - r.len) r.len))
    (hp' : p' = ⟨(p.kernel.moveBreak (-(r.len : Int))).2, { p.supplier with
      region := { p.supplier.region with stop := r.address } }⟩) :
    Passes p out p' True ∧ Holding p' out lent pending := by
  subst hp'
  have hpos := (h.proper List.mem_cons_self).len_pos
  have hcalls := p.kernel.calls_moveBreak (show -(r.len : Int) ≠ 0 by omega)
  have hlowered := Call.lowered_moveBreak_down (show r.len ≤ p.kernel.programBreak by omega)
  have hbytes : (Call.moveBreak (-(r.len : Int)) (some p.kernel.programBreak)).lowered =
      r.bytes := by
    rw [hlowered, htop, Nat.add_sub_cancel]
    rfl
  rw [hsome] at hcalls
  rw [← hlowered] at hshrinks
  obtain ⟨hheld, hapart⟩ := h.hand_out
  obtain ⟨hholding, hpasses⟩ := hheld.shrinks True hapart hshrinks hcalls
    (Call.gained_moveBreak_down _ _) hbytes.subset
    (fun x hx hnot => absurd (hbytes.symm.subset hx) hnot) (.inr trivial)
  refine ⟨⟨rfl, hpasses.byteAt, .quiet hpasses.passage rfl rfl, ⟨fun x hx hlow _ => ?_,
    fun hfloor hzero => ?_⟩, fun _ hcoalesced => hcoalesced, id⟩,
    Holding.congr hholding rfl rfl hregion h.counted⟩
  · -- What is still in use was below the break, and is not in the range.
    rw [hshrinks.inUse_eq] at hx
    have hbelow := Kernel.lt_programBreak hx.1 hlow
    have hout : x ∉ r.bytes := fun hin => hx.2 (hbytes ▸ hin)
    rw [Range.bytes, mem_bytesAt] at hout
    show x < r.address
    omega
  · have hnone := hfloor hzero
    omega

theorem Holding.ensures_dropBreak (h : Holding p out lent (r :: pending))
    (htop : p.kernel.programBreak = r.address + r.len) (hregion : r.address ≤ arenaBase)
    (hend : p.supplier.region.stop = r.address + r.len) :
    Action.Ensures (dropBreak r) p
      (fun dropped p' => Passes p out p' True ∧
        Holding p' out lent (if dropped = true then pending else r :: pending)) Action.never := by
  have hpos := (h.proper List.mem_cons_self).len_pos
  simp only [dropBreak, moveBreak, Action.ensures_bind, ensures_call]
  rcases h.kernel.lowerBreak hpos with ⟨hnone, hgrows⟩ | ⟨hsome, -, hshrinks⟩
  · rw [hnone]
    exact .answer (h.passes_refused (by omega) hnone hgrows).symm
  · rw [hsome]
    simp only [ensures_update, Action.ensures_bind, Action.ensures_pure]
    exact h.drops htop hregion hend hsome hshrinks rfl

theorem Holding.ensures_lowerBreakOver (h : Holding p out lent (r :: pending)) :
    Action.Ensures (lowerBreakOver r) p
      (fun dropped p' => Passes p out p' True ∧
        Holding p' out lent (if dropped = true then pending else r :: pending)) Action.never := by
  have hproper := h.proper List.mem_cons_self
  have hnothing : Passes p out p True ∧
      Holding p out lent (if false = true then pending else r :: pending) := ⟨Passes.refl p out, h⟩
  simp only [lowerBreakOver, Action.ensures_ite]
  split
  · simp only [hproper.stop?_eq, Action.ensures_bind, Action.ensures_checked_some,
      Action.ensures_get, ensures_programBreak, Action.ensures_ite]
    split
    · rename_i htop
      have hregion := h.region
      apply h.ensures_dropBreak _ _ htop.1.symm
      · rw [htop.2, ← htop.1]
      · omega
    · exact .answer hnothing
  · exact .answer hnothing

/-- The break is lowered over some of the ranges, and the others remain. -/
theorem Holding.ensures_shrinkBreak {ranges : List Range}
    (h : Holding p out lent (pending ++ ranges)) :
    Action.Ensures (shrinkBreak ranges) p
      (fun remaining p' => Passes p out p' True ∧ Holding p' out lent (pending ++ remaining))
      Action.never := by
  -- A range that remains waits with the pending ones while the rest is tried.
  induction ranges generalizing p pending with
  | nil => exact .answer ⟨Passes.refl p out, h⟩
  | cons r rest ih =>
      simp only [shrinkBreak, Action.ensures_bind]
      apply (h.perm List.perm_middle).ensures_lowerBreakOver.weaken
      rintro dropped p₁ ⟨hpasses, hholding⟩
      cases dropped with
      | true =>
          apply (ih hholding).weaken
          rintro remaining p' ⟨hpasses', hholding'⟩
          exact ⟨hpasses.trans hpasses', hholding'⟩
      | false =>
          simp only [Bool.false_eq_true, if_false, Action.ensures_bind, Action.ensures_pure]
            at hholding ⊢
          have hkept : Holding p₁ out lent ((r :: pending) ++ rest) := hholding
          apply (ih hkept).weaken
          rintro remaining p' ⟨hpasses', hholding'⟩
          exact ⟨hpasses.trans hpasses', hholding'.perm List.perm_middle.symm⟩

theorem Holding.ensures_release (h : Holding p out lent (r :: pending)) :
    Action.Ensures (release r) p
      (fun _ p' => Passes p out p' True ∧ Holding p' out lent pending) Action.never := by
  have hproper := h.proper List.mem_cons_self
  have hbelow := h.honest.below r (List.mem_append_left _ List.mem_cons_self)
  obtain ⟨hheld, hapart⟩ := h.hand_out
  simp only [release, surrender, countUnmap, Action.ensures_bind, Action.ensures_ite]
  split
  · rename_i hkind
    simp only [advise, ensures_call, ensures_update]
    obtain ⟨hholding, hpasses⟩ := hheld.advises True r.address r.len .dontneed hapart
      (Set.Subset.refl _)
    exact ⟨hpasses.trans (Passes.of_kernel rfl rfl (fun _ => id) id rfl),
      Holding.congr (hholding.forgets (hbelow hkind)) rfl rfl h.region h.counted⟩
  · simp only [unmap, ensures_call, ensures_update]
    obtain ⟨hholding, hpasses⟩ := hheld.unmaps True hapart hproper.address_mod
      hproper.len_mod
    exact ⟨hpasses.trans (Passes.of_kernel rfl rfl (fun _ => id) id rfl),
      Holding.congr hholding rfl rfl h.region h.counted⟩

theorem Holding.ensures_releaseAll (h : Holding p out lent pending) :
    Action.Ensures (releaseAll pending) p
      (fun _ p' => Passes p out p' True ∧ Sound p' out lent) Action.never := by
  induction pending generalizing p with
  | nil => exact .answer ⟨Passes.refl p out, h⟩
  | cons r rest ih =>
      simp only [releaseAll, Action.ensures_bind]
      apply h.ensures_release.weaken
      rintro _ p₁ ⟨hpasses, hholding⟩
      apply (ih hholding).weaken
      rintro _ p' ⟨hpasses', hsound⟩
      exact ⟨hpasses.trans hpasses', hsound⟩

/-- What is evicted goes back to the kernel, one way or the other. -/
theorem Holding.ensures_giveBack (h : Holding p out lent pending) :
    Action.Ensures (do releaseAll (← shrinkBreak pending)) p
      (fun _ p' => Passes p out p' True ∧ Sound p' out lent) Action.never := by
  simp only [Action.ensures_bind]
  have hall : Holding p out lent ([] ++ pending) := h
  apply hall.ensures_shrinkBreak.weaken
  rintro remaining p₁ ⟨hpasses, hholding⟩
  apply hholding.ensures_releaseAll.weaken
  rintro _ p' ⟨hpasses', hsound⟩
  exact ⟨hpasses.trans hpasses', hsound⟩

/-! ## Taking back -/

/-- The options keep bytes that are handed back apart from cached ones that they may touch: where
the bytes start or end, memory is not known to be out. -/
def Parts (opts : ReclaimOptions) (out : Set Nat) (address size : Nat) : Prop :=
  (opts.noMergeLeft = true ∧ ∀ y ∈ out, y + 1 ≠ address) ∨
    (opts.noMergeRight = true ∧ address + size ∉ out)

section Parts

variable {opts : ReclaimOptions} {address size : Nat}

theorem Parts.mono {out' : Set Nat} (h : Parts opts out' address size) (hsub : out ⊆ out') :
    Parts opts out address size :=
  h.imp (fun hleft => ⟨hleft.1, fun y hy => hleft.2 y (hsub hy)⟩)
    fun hright => ⟨hright.1, fun hy => hright.2 (hsub hy)⟩

theorem not_parts_of_merges (hleft : opts.noMergeLeft = false)
    (hright : opts.noMergeRight = false) : ¬Parts opts out address size := by
  simp [Parts, hleft, hright]

/-- What is in front is out. -/
theorem not_parts_of_before {y : Nat} (hright : opts.noMergeRight = false) (hy : y ∈ out)
    (hnext : y + 1 = address) : ¬Parts opts out address size := by
  rintro (hleft | hparts)
  · exact hleft.2 y hy hnext
  · simp [hright] at hparts

/-- What is behind is out. -/
theorem not_parts_of_behind (hleft : opts.noMergeLeft = false) (hy : address + size ∈ out) :
    ¬Parts opts out address size := by
  rintro (hparts | hright)
  · simp [hleft] at hparts
  · exact hright.2 hy

end Parts

/-- What is out keeps a range apart from the cached ones. -/
theorem Holding.unparted {range : Range} {opts : ReclaimOptions} (h : Holding p out lent pending)
    (hparts : ¬Parts opts out range.address range.len) :
    p.supplier.cache.Unparted range opts where
  before hleft r hr hstop := by
    refine hparts (.inl ⟨hleft, fun y hy hnext => ?_⟩)
    -- The byte before would be the last of a cached range.
    have hpos := (h.cache.tidy.proper r hr).len_pos
    have hcached : y ∈ bytes (pending ++ p.cached) :=
      ⟨r, List.mem_append_right _ hr, mem_bytesAt.2 (by omega)⟩
    exact Set.disjoint_left.1 h.apart hy hcached
  behind hright r hr hstop := by
    refine hparts (.inr ⟨hright, fun hy => ?_⟩)
    have hpos := (h.cache.tidy.proper r hr).len_pos
    have hcached : range.address + range.len ∈ bytes (pending ++ p.cached) :=
      ⟨r, List.mem_append_right _ hr, mem_bytesAt.2 (by omega)⟩
    exact Set.disjoint_left.1 h.apart hy hcached

/-- What is handed back is not counted as lent any more; advice against huge pages leaves it as it
is. -/
theorem Sound.ensures_handedBack {address size : Nat} (opts : ReclaimOptions)
    (h : Sound p (out ∪ bytesAt address size) lent) (hapart : Disjoint out (bytesAt address size))
    (hlent : size ≤ lent) :
    Action.Ensures (do
        countReturned size
        Action.onlyIf opts.noHuge (advise address size .nohuge)) p
      (fun _ p' => Passes p out p' ∧ p'.kernel.memory = p.kernel.memory ∧
        Sound p' (out ∪ bytesAt address size) (lent - size)) Action.never := by
  simp only [countReturned, Action.ensures_bind, ensures_update]
  have hcounted : Sound { p with supplier := { p.supplier with
      liveBytes := p.supplier.liveBytes - UInt64.ofNat size } }
      (out ∪ bytesAt address size) (lent - size) := by
    refine Holding.congr h rfl rfl h.region ?_
    show p.supplier.liveBytes - UInt64.ofNat size = _
    rw [h.counted, UInt64.ofNat_sub hlent]
  rw [Action.ensures_onlyIf]
  split
  · simp only [advise, ensures_call]
    obtain ⟨hholding, hpasses⟩ := Holding.advises hcounted False address size .nohuge hapart
      (Set.empty_subset _)
    exact ⟨hpasses.after rfl rfl (fun _ => id) id rfl, rfl, hholding⟩
  · exact ⟨Passes.of_kernel rfl rfl (fun _ => id) id rfl, rfl, hcounted⟩

/-- What the cache has no room for is pending, and nothing is lost. -/
theorem Sound.ensures_takeIn {address size : Nat} {opts : ReclaimOptions}
    (h : Sound p (out ∪ bytesAt address size) lent) (hapart : Disjoint out (bytesAt address size))
    (hpos : 0 < size) (haddress : address % pageSize = 0) (hsize : size % pageSize = 0)
    (hclean : opts.clean = true → ∀ x ∈ bytesAt address size, p.byteAt x = 0) :
    Action.Ensures (RangeCache.takeIn
        ⟨address, size, opts.clean, p.supplier.region.contains address⟩ opts) p.supplier.cache
      (fun evicted c => Holding (p.withCache c) out lent evicted ∧
        (¬Parts opts out address size → Coalesced p.cached → Coalesced c.ranges) ∧
        p.supplier.cache.TakesIn
          ⟨address, size, opts.clean, p.supplier.region.contains address⟩ opts evicted c)
      Action.never := by
  have hlast := h.lt_signedLimit
    (show address + (size - 1) ∈ out ∪ bytesAt address size from .inr (by
      rw [mem_bytesAt]
      omega))
  -- Memory of the break ends before the arena begins.
  have hpending : Holding p out lent
      [⟨address, size, opts.clean, p.supplier.region.contains address⟩] := by
    refine Holding.hand_in h ⟨haddress, hsize, hpos, by show address + size ≤ _; omega⟩
      hapart hclean ?_
    intro hkind x hx
    have hregion := h.region
    have hlow : address < p.supplier.region.stop := BreakRegion.lt_stop hkind
    rcases h.kernel.below_or_above
      (fun x hx => h.out_used (.inr hx) : bytesAt address size ⊆ _) with hbelow | habove
    · exact Nat.lt_of_lt_of_le (mem_bytesAt.1 hx).2 hbelow
    · omega
  apply (hpending.cache.ensures_takeIn hpending.tidy hpending.cache_le opts).weaken
  intro evicted c htakes
  exact ⟨hpending.reshape rfl (htakes.valid hpending.cache)
    (htakes.cachedBytes_le hpending.cache_le) hpending.region hpending.counted htakes.reshapes,
    fun hparts => htakes.keeps_coalesced (hpending.unparted hparts), htakes⟩

/-- A range that is handed back is cached or goes back to the kernel, and what has to leave
the cache for it goes there too. -/
theorem Sound.passes_reclaim {address size : Nat} {opts : ReclaimOptions}
    (h : Sound p (out ∪ bytesAt address size) lent) (hapart : Disjoint out (bytesAt address size))
    (hpos : 0 < size) (haddress : address % pageSize = 0) (hsize : size % pageSize = 0)
    (hclean : opts.clean = true → ∀ x ∈ bytesAt address size, p.byteAt x = 0)
    (hlent : size ≤ lent) :
    Action.Ensures (reclaim address size opts) p
      (fun _ p' => Passes p out p' True (Parts opts out address size) ∧ Sound p' out (lent - size))
      Action.never := by
  rw [reclaim, Action.ensures_bind]
  apply Action.ensures_require (by simp [hpos, hsize, haddress, isPageMultiple])
  rw [← bind_assoc, Action.ensures_bind]
  apply (h.ensures_handedBack opts hapart hlent).weaken
  rintro _ p₁ ⟨hquiet, hmemory, hsound⟩
  have hzero : opts.clean = true → ∀ x ∈ bytesAt address size, p₁.byteAt x = 0 := by
    intro hzeroed x hx
    rw [byteAt, hmemory]
    exact hclean hzeroed x hx
  simp only [Action.ensures_bind, Action.ensures_get, ensures_onCache]
  apply (hsound.ensures_takeIn hapart hpos haddress hsize hzero).weaken
  rintro evicted c ⟨hevicted, hcoalesced, -⟩
  rw [← Action.ensures_bind]
  apply hevicted.ensures_giveBack.weaken
  rintro _ p' ⟨hpasses, hsound'⟩
  refine ⟨(hquiet.weaken False.elim False.elim).trans ?_, hsound'⟩
  exact (hpasses.weaken id False.elim).after rfl rfl hcoalesced id rfl

/-- What is evicted is pending. -/
theorem Sound.ensures_evictDownTo (h : Sound p out lent) (limit : Nat) :
    Action.Ensures (RangeCache.evictDownTo limit []) p.supplier.cache
      (fun evicted c => Holding (p.withCache c) out lent evicted ∧
        p.supplier.cache.Evictions limit evicted c) Action.never := by
  apply (h.cache.ensures_evictDownTo (Nat.zero_le _)).weaken
  rintro evicted c ⟨_, rfl, hevictions⟩
  have hcount := hevictions.cachedBytes_add h.cache
  have hle : c.cachedBytes ≤ cacheLimit :=
    Nat.le_trans (by omega) h.cache_le
  exact ⟨h.reshape rfl (hevictions.valid h.cache) hle h.region h.counted
    (Reshapes.of_perm hevictions.perm), hevictions⟩

theorem Sound.passes_trim (h : Sound p out lent) (pad : Nat) :
    Action.Ensures (trim pad) p (fun _ p' => Passes p out p' True ∧ Sound p' out lent)
      Action.never := by
  simp only [trim, Action.ensures_bind, ensures_onCache]
  apply (h.ensures_evictDownTo pad).weaken
  rintro evicted c ⟨hevicted, hevictions⟩
  have hall : Holding (p.withCache c) out lent ([] ++ evicted) := hevicted
  apply hall.ensures_shrinkBreak.weaken
  rintro remaining p₁ ⟨hpasses, hholding⟩
  apply hholding.ensures_releaseAll.weaken
  rintro _ p' ⟨hpasses', hsound⟩
  refine .answer ⟨?_, hsound⟩
  exact (hpasses.trans hpasses').after rfl rfl
    (fun _ hcoalesced => hcoalesced.of_subset hevictions.subset) id rfl

/-! ## Growing in place -/

/-- What an attempt to grow a range by the `delta` bytes at `tail` may come to. -/
def Extends (p : Paging) (out : Set Nat) (lent tail delta : Nat) (grown : Bool) (p' : Paging) :
    Prop :=
  Obtains p out lent (lent + delta) delta (if grown = true then some tail else none) p'

theorem Sound.ensures_extendBreak (h : Sound p out lent) {tail delta : Nat} (hpos : 0 < delta)
    (htail : tail % pageSize = 0) (hfloor : p.supplier.region.floor ≠ 0) :
    Action.Ensures (extendBreak tail delta) p (Extends p out lent tail delta) Action.never := by
  have hnothing : Extends p out lent tail delta false p := ⟨Passes.refl p out, h⟩
  unfold extendBreak
  cases hstop : Word.add? tail delta with
  | none => exact .answer hnothing
  | some stop =>
      obtain ⟨rfl, -⟩ := Word.add?_eq_some_iff.1 hstop
      simp only [Action.ensures_bind, Action.ensures_get, ensures_programBreak,
        Action.ensures_ite]
      split
      · rename_i hcan
        obtain ⟨-, -, hbreak⟩ := hcan
        simp only [moveBreak, ensures_call]
        rcases h.kernel.raiseBreak hpos with ⟨hnone, hgrows⟩ | ⟨hsome, hgrows, hlt, hzero⟩
        · rw [hnone]
          exact .answer (Holding.passes_refused h (by omega) hnone hgrows).symm
        · rw [hsome]
          -- The break is where the range ends, so the new bytes are those behind it.
          have hraised := fun p' => Holding.passes_raised h p' hpos hsome hgrows
          rw [hbreak] at hgrows hlt hzero hraised
          obtain ⟨hholding, hapart⟩ := h.grows hgrows (Set.Subset.refl _)
            fun x hx hnot => absurd hx hnot
          simp only [countLive, ensures_update, Action.ensures_bind, Action.ensures_pure]
          refine ⟨hraised _ rfl rfl rfl rfl rfl hfloor, ?_, hapart, htail, ?_⟩
          · refine Holding.congr hholding rfl rfl (Nat.le_of_lt hlt) ?_
            show p.supplier.liveBytes + UInt64.ofNat delta = _
            rw [h.counted, UInt64.ofNat_add]
          · intro x hx
            rw [mem_bytesAt] at hx
            apply hzero x hx.2
            rw [Kernel.pagesFor_mul htail]
            exact hx.1
      · exact .answer hnothing

theorem Sound.ensures_mapExact (h : Sound p out lent) {address len : Nat}
    (hlen : len % pageSize = 0) :
    Action.Ensures (mapExact address len) p
      (fun mapped p' => Obtains p out lent lent len
        (if mapped = true then some address else none) p') Action.never := by
  simp only [mapExact, Action.ensures_bind, ensures_call]
  have hobtains := h.obtains_of_maps (h.kernel.mapExact address hlen)
    (p.kernel.calls_mapExact address len) (Call.gained_mapExact address len _) rfl
  cases hgot : (p.kernel.mapExact address len).1 with
  | none =>
      rw [hgot] at hobtains
      exact .answer hobtains
  | some got =>
      rw [hgot] at hobtains
      obtain ⟨hpasses, hsupplies⟩ := hobtains
      simp only [Action.ensures_ite]
      split
      · rename_i hplace
        subst hplace
        exact .answer ⟨hpasses, hsupplies⟩
      · -- A mapping that came out elsewhere is undone.
        simp only [Action.ensures_bind, Action.ensures_pure]
        apply (hsupplies.sound.ensures_unmap hsupplies.apart hsupplies.aligned hlen).weaken
        rintro _ p' ⟨hpasses', hsound⟩
        exact ⟨hpasses.trans hpasses', hsound⟩

theorem Sound.ensures_growMapping (h : Sound p out lent) {address old new : Nat}
    (hgrows : old < new) (hdelta : (new - old) % pageSize = 0) :
    Action.Ensures (growMapping address old new (address + old) (new - old)) p
      (fun grown p' => Obtains p out lent lent (new - old)
        (if grown = true then some (address + old) else none) p') Action.never := by
  simp only [growMapping, Action.ensures_bind, ensures_call, Action.ensures_ite]
  have hobtains := h.obtains_of_maps (h.kernel.remap address hgrows hdelta)
    (p.kernel.calls_remap address old new) (Call.gained_remap address old new _) rfl
  split
  · rename_i hgrown
    rw [if_pos hgrown] at hobtains
    exact .answer hobtains
  · rename_i hnot
    rw [if_neg hnot] at hobtains
    obtain ⟨hpasses, hsound⟩ := hobtains
    apply (hsound.ensures_mapExact hdelta).weaken
    intro mapped p' hmapped
    exact hmapped.of_passes hpasses

theorem Sound.ensures_extendMapping (h : Sound p out lent) {address old new : Nat}
    (hgrows : old < new) (hdelta : (new - old) % pageSize = 0) :
    Action.Ensures (extendMapping address old new (address + old) (new - old)) p
      (Extends p out lent (address + old) (new - old)) Action.never := by
  simp only [extendMapping, Action.ensures_bind]
  apply (h.ensures_growMapping hgrows hdelta).weaken
  intro grown p₁ hobtains
  cases grown with
  | false =>
      simp only [Action.onlyIf_false, Action.ensures_pure]
      exact hobtains
  | true =>
      obtain ⟨hpasses, hsupplies⟩ := hobtains
      simp only [Action.onlyIf_true, countMap, countLive, Action.ensures_bind, ensures_update,
        Action.ensures_pure]
      refine ⟨hpasses.trans (Passes.of_kernel rfl rfl (fun _ => id) id rfl), ?_, hsupplies.apart,
        hsupplies.aligned, hsupplies.zero⟩
      refine Holding.congr hsupplies.sound rfl rfl hsupplies.sound.region ?_
      show p₁.supplier.liveBytes + UInt64.ofNat (new - old) = _
      rw [hsupplies.sound.counted, UInt64.ofNat_add]

/-- The end of a range that is out is a word. -/
theorem Sound.add?_stop (h : Sound p out lent) {address old : Nat}
    (hown : bytesAt address old ⊆ out) (hpos : 0 < old) :
    Word.add? address old = some (address + old) := by
  have hlast := h.lt_signedLimit (hown (show address + (old - 1) ∈ bytesAt address old by
    rw [mem_bytesAt]
    omega))
  rw [Word.add?_eq_some_iff]
  refine ⟨rfl, ?_⟩
  simp only [Word.signedLimit, Word.limit] at hlast ⊢
  omega

/-- A range grows in place by memory that was in nobody's hands and is zero, or not at all. -/
theorem Sound.passes_extendInPlace (h : Sound p out lent) {address old new : Nat}
    (hown : bytesAt address old ⊆ out) (hpos : 0 < old) (hgrows : old < new)
    (haddress : address % pageSize = 0) (hold : old % pageSize = 0)
    (hnew : new % pageSize = 0) :
    Action.Ensures (extendInPlace address old new) p
      (Extends p out lent (address + old) (new - old)) Action.never := by
  have hdelta : (new - old) % pageSize = 0 := by
    simp only [pageSize] at hold hnew ⊢
    omega
  have htail : (address + old) % pageSize = 0 := by
    simp only [pageSize] at haddress hold ⊢
    omega
  have hword : Word.add? address old = some (address + old) := h.add?_stop hown hpos
  simp only [extendInPlace, Action.ensures_ite]
  rw [if_neg (by omega)]
  simp only [hword, Action.ensures_bind, Action.ensures_checked_some, ensures_onCache]
  apply (h.cache.ensures_takeAt (show 0 < new - old by omega) hdelta).weaken
  intro range? c hpost
  cases range? with
  | some taken =>
      -- The bytes behind were in the cache.
      obtain ⟨hplace, hlen, hcuts⟩ := hpost
      simp only [Action.ensures_bind, Action.ensures_pure]
      apply (Holding.cut h hcuts).ensures_handOut.weaken
      rintro _ p' ⟨hpasses, hsupplies⟩
      rw [hplace, hlen] at hsupplies
      exact ⟨hpasses.after rfl rfl (fun _ => hcuts.coalesced) id rfl, hsupplies⟩
  | none =>
      obtain rfl := hpost
      simp only [Action.ensures_bind, Action.ensures_get, Action.ensures_ite]
      split
      · rename_i hknown
        exact h.ensures_extendBreak (by omega) htail (BreakRegion.floor_ne hknown)
      · exact h.ensures_extendMapping hgrows hdelta

end Paging
end PagedHeap
