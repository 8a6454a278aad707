import PagedHeap.Proofs.Page.Coalescing
import PagedHeap.Proofs.Page.Passage

/-!
# When a page supplier is sound

The bytes in use are those in somebody's hands, `out`, and those of the ranges that the
supplier holds: the cached ones, and while ranges are on their way, the `pending` ones.
`Holding` says that nothing is in two hands, that nothing in the arena is in none, and that
what counts as zero is zero.  Break memory may be in nobody's hands: it stays in use after
its content was discarded.

Who owns the bytes of `out` makes no difference to the supplier.  They may be ranges that it
handed out, memory mapped apart from it, or memory of others.
-/

namespace PagedHeap

/-- The mapping for huge pages that is on record starts and ends at multiples of their size. -/
def HugeHint.Aligned (h : HugeHint) : Prop :=
  h.low % hugePageSize = 0 ∧ h.high % hugePageSize = 0

namespace Paging

open Ranges

/-- Where the bytes of some ranges are: below the arena if they are break memory, and zero if
they are known to be. -/
structure Honest (p : Paging) (ranges : List Range) : Prop where
  clean : ∀ r ∈ ranges, r.clean = true → ∀ x ∈ r.bytes, p.byteAt x = 0
  below : ∀ r ∈ ranges, r.ofBreak = true → ∀ x ∈ r.bytes, x < arenaBase

/-- The supplier holds the `pending` ranges and the cached ones, and nothing of `out`.  It has
lent `lent` bytes; its count of them wraps around. -/
structure Holding (p : Paging) (out : Set Nat) (lent : Nat) (pending : List Range) : Prop where
  kernel : p.kernel.Valid
  cache : p.supplier.cache.Valid
  cache_le : p.supplier.cache.cachedBytes ≤ cacheLimit
  region : p.supplier.region.stop ≤ arenaBase
  tidy : Tidy (pending ++ p.cached)
  used : out ∪ bytes (pending ++ p.cached) ⊆ p.kernel.inUse
  apart : Disjoint out (bytes (pending ++ p.cached))
  exact : ∀ x ∈ p.kernel.inUse, arenaBase ≤ x → x ∈ out ∪ bytes (pending ++ p.cached)
  honest : Honest p (pending ++ p.cached)
  counted : p.supplier.liveBytes = UInt64.ofNat lent

/-- Nothing is pending. -/
def Sound (p : Paging) (out : Set Nat) (lent : Nat) : Prop := Holding p out lent []

/-- Break memory that came into use lies below the end of the region that the supplier has on
record, and so does what did before.  Without a floor nothing is on record. -/
structure Charts (p p' : Paging) : Prop where
  stop : ∀ x ∈ p'.kernel.inUse, x < arenaBase →
    (x ∈ p.kernel.inUse → x < p.supplier.region.stop) → x < p'.supplier.region.stop
  floor : (p.supplier.region.floor = 0 → p.supplier.region.stop = 0) →
    p'.supplier.region.floor = 0 → p'.supplier.region.stop = 0

/-- The supplier is configured as before, memory holds what it did, and nothing that was done was
directed at it.  Unless the supplier `sinks`, the break was not lowered; unless ranges were `parted`
that touch, none that are cached come to touch.  The mapping for huge pages that is on record is
aligned if it was. -/
structure Passes (p : Paging) (kept : Set Nat) (p' : Paging) (sinks : Prop := False)
    (parted : Prop := False) : Prop where
  config : p'.supplier.config = p.supplier.config
  byteAt : ∀ x ∈ kept, p'.byteAt x = p.byteAt x
  passage : Passage p kept sinks p'
  charts : Charts p p'
  coalesced : ¬parted → Coalesced p.cached → Coalesced p'.cached
  hinted : p.supplier.hint.Aligned → p'.supplier.hint.Aligned

variable {p p' p'' : Paging} {out kept : Set Nat} {lent : Nat} {pending : List Range}
  {sinks sinks' parted parted' : Prop}

theorem Charts.refl (p : Paging) : Charts p p := by
  refine ⟨fun x hx _ hstop => hstop hx, fun hfloor => hfloor⟩

theorem Charts.trans (h : Charts p p') (h' : Charts p' p'') : Charts p p'' :=
  ⟨fun x hx hlow hstop => h'.stop x hx hlow fun hx' => h.stop x hx' hlow hstop,
    fun hfloor => h'.floor (h.floor hfloor)⟩

/-- No break memory came into use, and the region is as before. -/
theorem Charts.of_region (hregion : p'.supplier.region = p.supplier.region)
    (huse : ∀ x ∈ p'.kernel.inUse, x < arenaBase → x ∈ p.kernel.inUse) : Charts p p' := by
  refine ⟨fun x hx hlow hstop => ?_, fun hfloor => ?_⟩
  · rw [hregion]
    exact hstop (huse x hx hlow)
  · rw [hregion]
    exact hfloor

theorem Passes.refl (p : Paging) (kept : Set Nat) : Passes p kept p sinks parted :=
  ⟨rfl, fun _ _ => rfl, .start, Charts.refl p, fun _ hcoalesced => hcoalesced, id⟩

theorem Passes.trans (h : Passes p kept p' sinks parted) (h' : Passes p' kept p'' sinks parted) :
    Passes p kept p'' sinks parted :=
  ⟨h'.config.trans h.config, fun x hx => (h'.byteAt x hx).trans (h.byteAt x hx),
    h.passage.append h'.passage, h.charts.trans h'.charts,
    fun hnot hcoalesced => h'.coalesced hnot (h.coalesced hnot hcoalesced),
    fun haligned => h'.hinted (h.hinted haligned)⟩

theorem Passes.mono {kept' : Set Nat} (h : Passes p kept p' sinks parted) (hsub : kept' ⊆ kept) :
    Passes p kept' p' sinks parted :=
  ⟨h.config, fun x hx => h.byteAt x (hsub hx), h.passage.mono hsub id, h.charts, h.coalesced,
    h.hinted⟩

/-- The break may have been lowered, and more ranges may have been parted. -/
theorem Passes.weaken (h : Passes p kept p' sinks parted) (hsinks : sinks → sinks')
    (hparted : parted → parted') : Passes p kept p' sinks' parted' :=
  ⟨h.config, h.byteAt, h.passage.mono (Set.Subset.refl kept) hsinks, h.charts,
    fun hnot => h.coalesced fun hparts => hnot (hparted hparts), h.hinted⟩

/-- No call was made. -/
theorem Passes.of_quiet (hconfig : p'.supplier.config = p.supplier.config)
    (hregion : p'.supplier.region = p.supplier.region)
    (hcoalesced : ¬parted → Coalesced p.cached → Coalesced p'.cached)
    (hhinted : p.supplier.hint.Aligned → p'.supplier.hint.Aligned)
    (hcalls : p'.kernel.calls = p.kernel.calls) (huse : p'.kernel.inUse = p.kernel.inUse)
    (hbytes : ∀ x ∈ kept, p'.byteAt x = p.byteAt x) : Passes p kept p' sinks parted := by
  refine ⟨hconfig, hbytes, .quiet .start hcalls huse, .of_region hregion ?_, hcoalesced, hhinted⟩
  rw [huse]
  exact fun x hx _ => hx

/-- The kernel was not asked for anything. -/
theorem Passes.of_kernel (hconfig : p'.supplier.config = p.supplier.config)
    (hregion : p'.supplier.region = p.supplier.region)
    (hcoalesced : ¬parted → Coalesced p.cached → Coalesced p'.cached)
    (hhinted : p.supplier.hint.Aligned → p'.supplier.hint.Aligned)
    (hkernel : p'.kernel = p.kernel) : Passes p kept p' sinks parted := by
  apply Passes.of_quiet hconfig hregion hcoalesced hhinted
  · rw [hkernel]
  · rw [hkernel]
  · exact fun x _ => congrArg (fun k => k.memory.byteAt x) hkernel

/-- The books of the supplier were changed before. -/
theorem Passes.after (h : Passes p' kept p'' sinks parted)
    (hconfig : p'.supplier.config = p.supplier.config)
    (hregion : p'.supplier.region = p.supplier.region)
    (hcoalesced : ¬parted → Coalesced p.cached → Coalesced p'.cached)
    (hhinted : p.supplier.hint.Aligned → p'.supplier.hint.Aligned)
    (hkernel : p'.kernel = p.kernel) : Passes p kept p'' sinks parted :=
  (Passes.of_kernel hconfig hregion hcoalesced hhinted hkernel).trans h

/-- One call was made, which did not bring break memory into use. -/
theorem Passes.of_call {k : Kernel} {call : Call}
    (hmakes : p.Makes kept sinks call { p with kernel := k })
    (hlow : ∀ x ∈ call.gained, arenaBase ≤ x)
    (hbytes : ∀ x ∈ kept, k.memory.byteAt x = p.byteAt x) :
    Passes p kept { p with kernel := k } sinks parted := by
  refine ⟨rfl, hbytes, .call .start hmakes, .of_region rfl fun x hx hbelow => ?_,
    fun _ hcoalesced => hcoalesced, id⟩
  rw [hmakes.inUse_eq] at hx
  rcases hx with hx | hx
  · exact hx.1
  · exact absurd (hlow x hx) (Nat.not_le.2 hbelow)

/-- Ranges that are cut out of honest ones and joined from them are honest. -/
theorem Honest.reshape {old new : List Range} (h : Honest p old) (hreshapes : Reshapes old new) :
    Honest p new where
  clean r hr hclean x hx := by
    obtain ⟨r', hr', hx', -, hclean'⟩ := hreshapes.refines r hr x hx
    exact h.clean r' hr' (hclean' hclean) x hx'
  below r hr hkind x hx := by
    obtain ⟨r', hr', hx', hkind', -⟩ := hreshapes.refines r hr x hx
    exact h.below r' hr' (hkind'.trans hkind) x hx'

theorem Honest.of_byteAt {ranges : List Range} (h : Honest p ranges)
    (hbytes : ∀ x ∈ bytes ranges, p'.byteAt x = p.byteAt x) : Honest p' ranges where
  clean r hr hclean x hx := by
    rw [hbytes x (bytes_subset_of_mem hr hx)]
    exact h.clean r hr hclean x hx
  below := h.below

theorem Honest.of_subset {old new : List Range} (h : Honest p old) (hsub : new ⊆ old) :
    Honest p new :=
  ⟨fun r hr => h.clean r (hsub hr), fun r hr => h.below r (hsub hr)⟩

/-- The ranges may be held in any form. -/
theorem Holding.reshape {pending' : List Range} {lent' : Nat} (h : Holding p out lent pending)
    (hkernel : p'.kernel = p.kernel) (hcache : p'.supplier.cache.Valid)
    (hle : p'.supplier.cache.cachedBytes ≤ cacheLimit)
    (hregion : p'.supplier.region.stop ≤ arenaBase)
    (hcounted : p'.supplier.liveBytes = UInt64.ofNat lent')
    (hreshapes : Reshapes (pending ++ p.cached) (pending' ++ p'.cached)) :
    Holding p' out lent' pending' where
  kernel := hkernel ▸ h.kernel
  cache := hcache
  cache_le := hle
  region := hregion
  tidy := hreshapes.tidy h.tidy
  used := by
    rw [hkernel, hreshapes.bytes_eq]
    exact h.used
  apart := by
    rw [hreshapes.bytes_eq]
    exact h.apart
  exact := by
    rw [hkernel, hreshapes.bytes_eq]
    exact h.exact
  honest := by
    apply Honest.reshape _ hreshapes
    apply h.honest.of_byteAt
    intro x _
    rw [byteAt, byteAt, hkernel]
  counted := hcounted

theorem Holding.perm {pending' : List Range} (h : Holding p out lent pending)
    (hperm : pending.Perm pending') : Holding p out lent pending' :=
  h.reshape rfl h.cache h.cache_le h.region h.counted (Reshapes.of_perm (hperm.append_right _))

/-- Only what is neither memory nor cache has changed. -/
theorem Holding.congr {lent' : Nat} (h : Holding p out lent pending)
    (hkernel : p'.kernel = p.kernel) (hcache : p'.supplier.cache = p.supplier.cache)
    (hregion : p'.supplier.region.stop ≤ arenaBase)
    (hcounted : p'.supplier.liveBytes = UInt64.ofNat lent') : Holding p' out lent' pending := by
  refine h.reshape hkernel (hcache ▸ h.cache) (hcache ▸ h.cache_le) hregion hcounted ?_
  rw [show p'.cached = p.cached from congrArg RangeCache.ranges hcache]
  exact Reshapes.refl _

theorem Holding.proper (h : Holding p out lent pending) {r : Range} (hr : r ∈ pending) : r.Proper :=
  h.tidy.proper r (List.mem_append_left _ hr)

theorem Holding.out_used (h : Holding p out lent pending) : out ⊆ p.kernel.inUse :=
  fun _ hx => h.used (.inl hx)

theorem Sound.lt_signedLimit (h : Sound p out lent) {x : Nat} (hx : x ∈ out) :
    x < Word.signedLimit :=
  h.kernel.lt_signedLimit (h.out_used hx)

/-- Nothing is cached at the start. -/
theorem sound_new (config : PageConfig) {k : Kernel} (hvalid : k.Valid) :
    Sound ⟨k, PageSupplier.new config⟩ k.inUse 0 := by
  have hnone : bytes ([] ++ cached ⟨k, PageSupplier.new config⟩) = ∅ := bytes_nil
  refine ⟨hvalid, RangeCache.valid_empty, Nat.zero_le _, Nat.zero_le _, tidy_nil, ?_, ?_, ?_,
    ⟨fun r hr => absurd hr List.not_mem_nil, fun r hr => absurd hr List.not_mem_nil⟩, rfl⟩
  · rw [hnone, Set.union_empty]
  · rw [hnone]
    exact Set.disjoint_empty _
  · exact fun x hx _ => .inl hx

/-! ## Kernel calls -/

/-- A call that failed, or only brought memory into use. -/
theorem Makes.of_grows {k : Kernel} {call : Call} {new : Set Nat} (hgrows : p.kernel.Grows k new)
    (hcalls : k.calls = call :: p.kernel.calls) (hgained : call.gained = new)
    (hstruck : call.struck = ∅) : p.Makes kept sinks call { p with kernel := k } := by
  have hlost : call.lost = ∅ := Set.subset_eq_empty call.lost_subset_struck hstruck
  refine ⟨rfl, hcalls, ?_, ?_, ?_, ?_,
    .inl (Set.subset_eq_empty call.lowered_subset_struck hstruck)⟩
  · rw [hlost, hgained, Set.sdiff_empty]
    exact hgrows.inUse_eq
  · rw [hgained]
    exact hgrows.fresh.symm
  · rw [hstruck]
    exact Set.empty_subset _
  · rw [hstruck]
    exact Set.empty_disjoint _

/-- A call that only took memory out of use, or dropped what it held. -/
theorem Makes.of_shrinks {k : Kernel} {call : Call} (huse : k.inUse = p.kernel.inUse \ call.lost)
    (hcalls : k.calls = call :: p.kernel.calls) (hgained : call.gained = ∅)
    (hused : call.struck ⊆ p.kernel.inUse) (hspares : Disjoint call.struck (kept ∪ bytes p.cached))
    (hstays : call.lowered = ∅ ∨ sinks) :
    p.Makes kept sinks call { p with kernel := k } := by
  refine ⟨rfl, hcalls, ?_, ?_, hused, hspares, hstays⟩
  · rw [hgained, Set.union_empty]
    exact huse
  · rw [hgained]
    exact Set.empty_disjoint _

/-- Bytes that came into use are in the hands of who asked for them; break memory need not
be. -/
theorem Holding.grows {k : Kernel} {new taken : Set Nat} (h : Holding p out lent pending)
    (hgrows : p.kernel.Grows k new) (htaken : taken ⊆ new)
    (hrest : ∀ x ∈ new, x ∉ taken → x < arenaBase) :
    Holding { p with kernel := k } (out ∪ taken) lent pending ∧ Disjoint out taken where
  left :=
    { kernel := hgrows.valid
      cache := h.cache
      cache_le := h.cache_le
      region := h.region
      tidy := h.tidy
      used := by
        show _ ⊆ k.inUse
        rw [hgrows.inUse_eq, Set.union_right_comm]
        exact Set.union_subset_union h.used htaken
      apart := by
        rw [Set.disjoint_union_left]
        refine ⟨h.apart, ?_⟩
        have hheld := hgrows.fresh.mono_left (Set.subset_union_right.trans h.used)
        exact (hheld.mono_right htaken).symm
      exact := by
        intro x hx hbase
        rw [show ({ p with kernel := k } : Paging).kernel.inUse = k.inUse from rfl,
          hgrows.inUse_eq] at hx
        rcases hx with hx | hx
        · rcases h.exact x hx hbase with hout | hheld
          · exact .inl (.inl hout)
          · exact .inr hheld
        · by_cases hin : x ∈ taken
          · exact .inl (.inr hin)
          · exact absurd (hrest x hx hin) (Nat.not_lt.2 hbase)
      honest := h.honest.of_byteAt fun x hx => hgrows.kept x (h.used (.inr hx))
      counted := h.counted }
  right := (hgrows.fresh.mono_left h.out_used).mono_right htaken

/-- Pages of the arena came into use by a call. -/
theorem Holding.passes_grows {k : Kernel} {call : Call} {new : Set Nat}
    (h : Holding p out lent pending) (sinks : Prop) (hgrows : p.kernel.Grows k new)
    (hcalls : k.calls = call :: p.kernel.calls) (hgained : call.gained = new)
    (hstruck : call.struck = ∅) (hbase : ∀ x ∈ new, arenaBase ≤ x) :
    Passes p out { p with kernel := k } sinks := by
  apply Passes.of_call (Makes.of_grows hgrows hcalls hgained hstruck)
  · rw [hgained]
    exact hbase
  · exact fun x hx => hgrows.kept x (h.out_used hx)

/-- A call that failed. -/
theorem Holding.grows_nothing {k : Kernel} {call : Call} (h : Holding p out lent pending)
    (hgrows : p.kernel.Grows k ∅) (hcalls : k.calls = call :: p.kernel.calls)
    (hgained : call.gained = ∅) (hstruck : call.struck = ∅) :
    Holding { p with kernel := k } out lent pending ∧
      Passes p out { p with kernel := k } sinks := by
  obtain ⟨hholding, -⟩ :=
    h.grows hgrows (Set.Subset.refl ∅) fun x hx => absurd hx (Set.notMem_empty x)
  rw [Set.union_empty] at hholding
  exact ⟨hholding, h.passes_grows sinks hgrows hcalls hgained hstruck
    fun x hx => absurd hx (Set.notMem_empty x)⟩

/-- Bytes that went out of use are in nobody's hands any more; break memory may still be in
use. -/
theorem Holding.shrinks {k : Kernel} {call : Call} {gone : Set Nat}
    (h : Holding p (out ∪ gone) lent pending) (sinks : Prop) (hgone : Disjoint out gone)
    (hshrinks : p.kernel.Shrinks k call.lost) (hcalls : k.calls = call :: p.kernel.calls)
    (hgained : call.gained = ∅) (hstruck : call.struck ⊆ gone)
    (hrest : ∀ x ∈ gone, x ∉ call.lost → x < arenaBase)
    (hstays : call.lowered = ∅ ∨ sinks) :
    Holding { p with kernel := k } out lent pending ∧
      Passes p out { p with kernel := k } sinks := by
  have hlost := call.lost_subset_struck.trans hstruck
  have hheld : Disjoint gone (bytes (pending ++ p.cached)) :=
    h.apart.mono_left Set.subset_union_right
  have hused : out ∪ bytes (pending ++ p.cached) ⊆ k.inUse := by
    intro x hx
    rw [hshrinks.inUse_eq]
    rcases hx with hx | hx
    · exact ⟨h.used (.inl (.inl hx)), fun hin => Set.disjoint_left.1 hgone hx (hlost hin)⟩
    · exact ⟨h.used (.inr hx), fun hin => Set.disjoint_left.1 hheld (hlost hin) hx⟩
  have hspares : Disjoint call.struck (out ∪ bytes p.cached) := by
    rw [bytes_append, Set.disjoint_union_right] at hheld
    rw [Set.disjoint_union_right]
    exact ⟨hgone.symm.mono_left hstruck, hheld.2.mono_left hstruck⟩
  have hstrikes : call.struck ⊆ p.kernel.inUse :=
    hstruck.trans fun x hx => h.used (.inl (.inr hx))
  refine ⟨⟨hshrinks.valid, h.cache, h.cache_le, h.region, h.tidy, hused, ?_, ?_, ?_, h.counted⟩, ?_⟩
  · exact h.apart.mono_left Set.subset_union_left
  · intro x hx hbase
    rw [show ({ p with kernel := k } : Paging).kernel.inUse = k.inUse from rfl,
      hshrinks.inUse_eq] at hx
    rcases h.exact x hx.1 hbase with (hout | hin) | hheld
    · exact .inl hout
    · exact absurd (hrest x hin hx.2) (Nat.not_lt.2 hbase)
    · exact .inr hheld
  · exact h.honest.of_byteAt fun x hx => hshrinks.kept x (hused (.inr hx))
  · apply Passes.of_call (Makes.of_shrinks hshrinks.inUse_eq hcalls hgained hstrikes hspares hstays)
    · rw [hgained]
      exact fun x hx => absurd hx (Set.notMem_empty x)
    · exact fun x hx => hshrinks.kept x (hused (.inl hx))

/-- A change of memory alone, inside of what is out. -/
theorem Holding.rewrites {k : Kernel} {gone : Set Nat} (h : Holding p out lent pending)
    (hgone : gone ⊆ out) (hvalid : k.Valid) (huse : k.inUse = p.kernel.inUse)
    (hmemory : ∀ x, x ∉ gone → k.memory.byteAt x = p.kernel.memory.byteAt x) :
    Holding { p with kernel := k } out lent pending := by
  refine ⟨hvalid, h.cache, h.cache_le, h.region, h.tidy, ?_, h.apart, ?_, ?_, h.counted⟩
  · show _ ⊆ k.inUse
    rw [huse]
    exact h.used
  · show ∀ x ∈ k.inUse, _
    rw [huse]
    exact h.exact
  · apply h.honest.of_byteAt
    intro x hx
    exact hmemory x fun hin => Set.disjoint_left.1 h.apart (hgone hin) hx

/-- Advice is given about bytes that are out. -/
theorem Holding.advises {gone : Set Nat} (h : Holding p (out ∪ gone) lent pending)
    (sinks : Prop) (address len : Nat) (advice : Advice) (hgone : Disjoint out gone)
    (hstruck : (Call.advise address len advice).struck ⊆ gone) :
    Holding { p with kernel := p.kernel.advise address len advice } (out ∪ gone) lent pending ∧
      Passes p out { p with kernel := p.kernel.advise address len advice } sinks := by
  obtain ⟨hvalid, huse⟩ := h.kernel.advise address len advice
  have hmemory : ∀ x, x ∉ gone →
      (p.kernel.advise address len advice).memory.byteAt x = p.kernel.memory.byteAt x :=
    fun x hx => Kernel.byteAt_advise p.kernel fun hin => hx (hstruck hin)
  have hheld : Disjoint gone (bytes (pending ++ p.cached)) :=
    h.apart.mono_left Set.subset_union_right
  rw [bytes_append, Set.disjoint_union_right] at hheld
  have hlost : (Call.advise address len advice).lost = ∅ := rfl
  have hmakes : p.Makes out sinks (.advise address len advice)
      { p with kernel := p.kernel.advise address len advice } := by
    apply Makes.of_shrinks _ rfl rfl
    · exact hstruck.trans fun x hx => h.used (.inl (.inr hx))
    · rw [Set.disjoint_union_right]
      exact ⟨hgone.symm.mono_left hstruck, hheld.2.mono_left hstruck⟩
    · exact .inl rfl
    · rw [hlost, Set.sdiff_empty]
      exact huse
  refine ⟨h.rewrites Set.subset_union_right hvalid huse hmemory, Passes.of_call hmakes ?_ ?_⟩
  · exact fun x hx => absurd hx (Set.notMem_empty x)
  · exact fun x hx => hmemory x fun hin => Set.disjoint_left.1 hgone hx hin

/-- A function of memory is applied to it. -/
theorem Holding.rewrites_by {gone : Set Nat} (h : Holding p out lent pending)
    (f : Memory → Memory) (hgone : gone ⊆ out)
    (hmemory : ∀ x, x ∉ gone → (f p.kernel.memory).byteAt x = p.kernel.memory.byteAt x) :
    Holding { p with kernel := { p.kernel with memory := f p.kernel.memory } } out lent pending ∧
      Passes p goneᶜ { p with kernel := { p.kernel with memory := f p.kernel.memory } } := by
  have hvalid : Kernel.Valid { p.kernel with memory := f p.kernel.memory } :=
    h.kernel.congr rfl rfl rfl
  have huse : Kernel.inUse { p.kernel with memory := f p.kernel.memory } = p.kernel.inUse :=
    Kernel.inUse_congr rfl rfl rfl
  exact ⟨h.rewrites hgone hvalid huse hmemory,
    Passes.of_quiet rfl rfl (fun _ => id) id rfl huse hmemory⟩

/-- Others use what memory they like, save for the cached ranges. -/
theorem Sound.environment {k : Kernel} {out' : Set Nat} (h : Sound p out lent) (hvalid : k.Valid)
    (hapart : Disjoint out' (bytes p.cached)) (huse : k.inUse = out' ∪ bytes p.cached)
    (hsame : ∀ x ∈ bytes p.cached, k.memory.byteAt x = p.kernel.memory.byteAt x) :
    Sound { p with kernel := k } out' lent where
  kernel := hvalid
  cache := h.cache
  cache_le := h.cache_le
  region := h.region
  tidy := h.tidy
  used := by
    show out' ∪ bytes p.cached ⊆ k.inUse
    rw [huse]
  apart := hapart
  exact := by
    intro x hx _
    show x ∈ out' ∪ bytes p.cached
    rwa [← huse]
  honest := h.honest.of_byteAt hsame
  counted := h.counted

/-! ## Changing hands -/

/-- A pending range is as good as one that is out. -/
theorem Holding.hand_out {r : Range} (h : Holding p out lent (r :: pending)) :
    Holding p (out ∪ r.bytes) lent pending ∧ Disjoint out r.bytes := by
  have htidy := h.tidy
  rw [List.cons_append, tidy_cons] at htidy
  have hused := h.used
  have hexact := h.exact
  have hapart := h.apart
  rw [List.cons_append, bytes_cons] at hused hexact hapart
  rw [Set.disjoint_union_right] at hapart
  refine ⟨⟨h.kernel, h.cache, h.cache_le, h.region, htidy.2.2, ?_, ?_, ?_, ?_, h.counted⟩, hapart.1⟩
  · rw [Set.union_assoc]
    exact hused
  · exact Set.disjoint_union_left.2 ⟨hapart.2, htidy.2.1⟩
  · intro x hx hbase
    rw [Set.union_assoc]
    exact hexact x hx hbase
  · exact h.honest.of_subset (List.subset_cons_self _ _)

/-- Break memory may be in nobody's hands. -/
theorem Holding.forgets {gone : Set Nat} (h : Holding p (out ∪ gone) lent pending)
    (hlow : ∀ x ∈ gone, x < arenaBase) : Holding p out lent pending where
  kernel := h.kernel
  cache := h.cache
  cache_le := h.cache_le
  region := h.region
  tidy := h.tidy
  used := (Set.union_subset_union_left _ Set.subset_union_left).trans h.used
  apart := h.apart.mono_left Set.subset_union_left
  exact x hx hbase := by
    rcases h.exact x hx hbase with (hout | hgone) | hheld
    · exact .inl hout
    · exact absurd (hlow x hgone) (Nat.not_lt.2 hbase)
    · exact .inr hheld
  honest := h.honest
  counted := h.counted

/-- A range that is handed back becomes pending. -/
theorem Holding.hand_in {r : Range} (h : Holding p (out ∪ r.bytes) lent pending)
    (hproper : r.Proper) (hout : Disjoint out r.bytes)
    (hclean : r.clean = true → ∀ x ∈ r.bytes, p.byteAt x = 0)
    (hbelow : r.ofBreak = true → ∀ x ∈ r.bytes, x < arenaBase) :
    Holding p out lent (r :: pending) := by
  have hapart := Set.disjoint_union_left.1 h.apart
  refine ⟨h.kernel, h.cache, h.cache_le, h.region, ?_, ?_, ?_, ?_, ⟨?_, ?_⟩, h.counted⟩
  · rw [List.cons_append, tidy_cons]
    exact ⟨hproper, hapart.2, h.tidy⟩
  · rw [List.cons_append, bytes_cons, ← Set.union_assoc]
    exact h.used
  · rw [List.cons_append, bytes_cons, Set.disjoint_union_right]
    exact ⟨hout, hapart.1⟩
  · rw [List.cons_append, bytes_cons, ← Set.union_assoc]
    exact h.exact
  · intro r' hr'
    rcases List.mem_cons.1 hr' with rfl | hr'
    · exact hclean
    · exact h.honest.clean r' hr'
  · intro r' hr'
    rcases List.mem_cons.1 hr' with rfl | hr'
    · exact hbelow
    · exact h.honest.below r' hr'

end Paging
end PagedHeap
