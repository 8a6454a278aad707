import PagedHeap.Proofs.Block.Stacks
import PagedHeap.Proofs.Heap.Serving
import PagedHeap.Proofs.Private.Party

/-!
# Serving the clients of a private supplier

The clients of a private supplier keep the rules if they ask for whole pages and pass only what
they have.  Whatever is asked for then, the party is sound afterwards, and nothing was directed
at what the clients have besides what they passed, or at what is foreign.
-/

namespace PagedHeap

/-! ## The rules -/

/-- The block that a request passes. -/
def BlockRequest.passed? : BlockRequest → Option Nat
  | .free block | .size block | .category block => some block
  | .allocate _ | .flush _ | .flushAll | .count _ => none

/-- The number of the category that a request names. -/
def BlockRequest.number? : BlockRequest → Option Nat
  | .allocate number | .flush number | .count number => some number
  | .free _ | .flushAll | .size _ | .category _ => none

/-- A request names a category that does not exist. -/
def BlockRequest.Unknown (r : BlockRequest) : Prop :=
  ∃ number, r.number? = some number ∧ Category.ofNat? number = none

/-- Whether a request gives up the block that it passes. -/
def BlockRequest.frees : BlockRequest → Bool
  | .free _ => true
  | .allocate _ | .flush _ | .flushAll | .count _ | .size _ | .category _ => false

/-- The large allocation that a request passes. -/
def LargeRequest.passed? : LargeRequest → Option Nat
  | .resize address _ _ | .free address _ | .size address => some address
  | .allocate _ _ | .trim _ => none

/-- The size and the alignment that a request asks for. -/
def LargeRequest.wants? : LargeRequest → Option (Nat × Nat)
  | .allocate len align | .resize _ len align => some (len, align)
  | .free _ _ | .size _ | .trim _ => none

/-- A request asks for pages and gets none. -/
inductive PageRequest.Refused : PageRequest → Answer → Prop where
  | allocate {size : Nat} : Refused (.allocate size) (.pointer none)
  | extend {address old new : Nat} : Refused (.extend address old new) (.flag false)

/-- A request asks for a block and gets none. -/
inductive BlockRequest.Refused : BlockRequest → Answer → Prop where
  | allocate {number : Nat} : Refused (.allocate number) (.pointer none)

/-- A request asks for a large allocation and gets none. -/
inductive LargeRequest.Refused : LargeRequest → Answer → Prop where
  | allocate {size align : Nat} : Refused (.allocate size align) (.pointer none)
  | resize {address size align : Nat} : Refused (.resize address size align) (.pointer none)

/-- What is passed has an entry in the table, and what is asked for is possible. -/
structure LargeRequest.Allowed (t : SizeTable) (r : LargeRequest) : Prop where
  present : ∀ x, r.passed? = some x → ∃ len, t.get? x = some len
  possible : ∀ len align, r.wants? = some (len, align) →
    0 < len ∧ Word.isPowerOfTwo align = true

/-- What is refused passes nothing, and is granted nothing. -/
theorem PageRequest.Refused.nothing {r : PageRequest} {a : Answer} (h : r.Refused a) :
    r.passed = ∅ ∧ r.granted a = ∅ ∧ ¬r.Parts := by
  cases h with
  | allocate => exact ⟨rfl, rfl, id⟩
  | extend => exact ⟨rfl, rfl, id⟩

namespace Party

open SizeTable

/-- The bytes of the block that a request passes. -/
def blockPassed (n : Party) (r : BlockRequest) : Set Nat :=
  {y | ∃ x, r.passed? = some x ∧ ∃ c, IsBlock n.memory c x ∧ y ∈ bytesAt x c.blockSize}

/-- The bytes of the large allocation that a request passes. -/
def largePassed (n : Party) (r : LargeRequest) : Set Nat :=
  {y | ∃ x len, r.passed? = some x ∧ n.table.get? x = some len ∧ y ∈ bytesAt x len}

/-- The clients have other blocks and pages, and nothing was directed at what they have besides
what they `passed`, or at what is foreign.  Ranges that touch may have been `parted`. -/
structure Evolves (n : Party) (blocks pages foreign passed : Set Nat) (n' : Party)
    (spans' : Nat → Category → List Span) (blocks' pages' : Set Nat) (parted : Prop := False) :
    Prop where
  sound : n'.Sound spans' blocks' pages' foreign
  keeps : n.paging.Keeps (n.held blocks pages \ passed ∪ foreign) n'.paging parted

/-- The supplier alone has changed, and nothing that is out of its hands. -/
structure Rests (n : Party) (spans : Nat → Category → List Span) (blocks pages foreign : Set Nat)
    (n' : Party) : Prop where
  large : n.largeHeap.Rests (runBytes (cachedIn spans ∪ blocks) ∪ (pages ∪ foreign))
    ((pagesOf (cachedIn spans ∪ blocks)).ncard * pageSize + pages.ncard) n'.largeHeap
  caches_eq : n'.caches = n.caches

variable {n n' : Party} {spans : Nat → Category → List Span}
  {blocks pages foreign passed : Set Nat} {i x : Nat} {a : Answer} {b : BlockHeap}
  {l : LargeHeap} {c : Category}

/-- Nothing has changed. -/
theorem Sound.evolves_self (h : n.Sound spans blocks pages foreign) (passed : Set Nat) :
    n.Evolves blocks pages foreign passed n spans blocks pages :=
  ⟨h, .refl n.paging _⟩

theorem Sound.evolves_large {sizes : Nat → Option Nat}
    (h : n.Sound spans blocks pages foreign)
    (hl : l.Sound (runBytes (cachedIn spans ∪ blocks) ∪ (pages ∪ foreign))
      ((pagesOf (cachedIn spans ∪ blocks)).ncard * pageSize + pages.ncard))
    (hkeeps : n.paging.Keeps
      (extent sizes ∪ (runBytes (cachedIn spans ∪ blocks) ∪ (pages ∪ foreign))) l.paging)
    (hsizes : extent n.table.get? \ passed ⊆ extent sizes) :
    n.Evolves blocks pages foreign passed (n.withLarge l) spans blocks pages := by
  have hsound := h.of_large hl (hkeeps.mono fun y hy => .inr (.inl hy))
  refine ⟨hsound, hkeeps.mono fun y hy => ?_⟩
  rcases hy with ⟨hheld | hheld | ⟨x, hx, c, hblock, hbody⟩, hnot⟩ | hforeign
  · exact .inr (.inr (.inl hheld))
  · exact .inl (hsizes ⟨hheld, hnot⟩)
  · exact .inr (.inl (body_subset_runBytes spans hx hblock hbody))
  · exact .inr (.inr (.inr hforeign))

/-- The party is as it was but for its supplier. -/
theorem Rests.eq (hrests : n.Rests spans blocks pages foreign n') : n' = n.withLarge n'.largeHeap := by
  rw [withLarge, ← hrests.caches_eq]
  rfl

theorem Rests.sound (hrests : n.Rests spans blocks pages foreign n')
    (h : n.Sound spans blocks pages foreign) : n'.Sound spans blocks pages foreign := by
  rw [hrests.eq]
  exact h.of_large hrests.large.sound (hrests.large.keeps.mono fun y hy => .inr (.inl hy))

theorem Rests.evolves (hrests : n.Rests spans blocks pages foreign n')
    (h : n.Sound spans blocks pages foreign) (passed : Set Nat) :
    n.Evolves blocks pages foreign passed n' spans blocks pages := by
  rw [hrests.eq]
  exact h.evolves_large hrests.large.sound hrests.large.keeps Set.sdiff_subset

theorem rests_large
    (hrests : n.largeHeap.Rests (runBytes (cachedIn spans ∪ blocks) ∪ (pages ∪ foreign))
      ((pagesOf (cachedIn spans ∪ blocks)).ncard * pageSize + pages.ncard) l) :
    n.Rests spans blocks pages foreign (n.withLarge l) :=
  ⟨hrests, rfl⟩

/-! ## Pages -/

theorem held_subset_out (n : Party) (spans : Nat → Category → List Span)
    (blocks pages foreign : Set Nat) :
    n.held blocks pages ∪ foreign ⊆ n.apartFromPages spans blocks foreign ∪ pages := by
  intro y hy
  rcases hy with (hy | hy | ⟨x, hx, c, hblock, hy⟩) | hy
  · exact .inr hy
  · exact .inl (.inr (.inl hy))
  · exact .inl (.inr (.inr (.inl (body_subset_runBytes spans hx hblock hy))))
  · exact .inl (.inr (.inr (.inr hy)))

/-- Whatever the clients do with pages, the supplier knows of what else it has lent. -/
theorem Sound.ensures_servePages {r : PageRequest} (h : n.Sound spans blocks pages foreign)
    (hallowed : r.Allowed n.paging pages) :
    Action.Ensures (Paging.serve r) n.paging
      (fun a p => n.Evolves blocks pages foreign r.passed { n with paging := p } spans blocks
        (pages \ r.passed ∪ r.granted a) r.Parts) Action.never := by
  apply (h.paging.ensures_serve h.apartFromPages_apart hallowed).weaken
  intro a p hserves
  have hsound := h.repage hserves.sound hserves.apart (hserves.keeps.mono Set.subset_union_left)
  refine ⟨hsound, hserves.keeps.mono fun y hy => ?_⟩
  rcases hy with ⟨hheld, hnot⟩ | hforeign
  · rcases n.held_subset_out spans blocks pages foreign (.inl hheld) with hother | hpage
    · exact .inl hother
    · exact .inr ⟨hpage, hnot⟩
  · exact .inl (.inr (.inr (.inr hforeign)))

/-! ## Blocks -/

theorem Sound.evolves_blocks {new : Category → List Span} {blocks' : Set Nat}
    (h : n.Sound spans blocks pages foreign)
    (hblocks : b.Sound new (elsewhere i spans blocks') (n.beside pages foreign)
      (n.table.total + pages.ncard))
    (hkeeps : n.paging.Keeps
      (reserved n.memory (elsewhere i spans (blocks ∩ blocks')) ∪ n.beside pages foreign) b.paging)
    (hothers : ∀ x ∈ cachedOff i spans, x ∉ blocks')
    (hpassed : ∀ x ∈ blocks, x ∉ blocks' → ∀ c, IsBlock n.memory c x →
      bytesAt x c.blockSize ⊆ passed) :
    n.Evolves blocks pages foreign passed (n.withBlocks i b) (Function.update spans i new) blocks'
      pages := by
  have hcached : reserved n.memory (cachedOff i spans) ⊆
      reserved n.memory (elsewhere i spans (blocks ∩ blocks')) :=
    reserved_mono Set.subset_union_left
  have hsound := h.of_blocks hblocks
    (hkeeps.mono (Set.union_subset_union_left _ hcached)) hothers
  refine ⟨hsound, hkeeps.mono fun y hy => ?_⟩
  rcases hy with ⟨hheld | hheld | ⟨x, hx, c, hblock, hbody⟩, hnot⟩ | hforeign
  · exact .inr (.inr (.inr (.inl hheld)))
  · exact .inr (.inr (.inl hheld))
  · -- A block that the clients do not have afterwards is one that they passed.
    by_cases hin : x ∈ blocks'
    · exact .inl (body_subset_reserved hblock (.inr ⟨hx, hin⟩) hbody)
    · exact absurd (hpassed x hx hin c hblock hbody) hnot
  · exact .inr (.inr (.inr (.inr hforeign)))

/-- The clients have the blocks that they had. -/
theorem Sound.evolves_kept {new : Category → List Span}
    (h : n.Sound spans blocks pages foreign)
    (hblocks : b.Sound new (elsewhere i spans blocks) (n.beside pages foreign)
      (n.table.total + pages.ncard))
    (hkeeps : n.paging.Keeps
      (reserved n.memory (elsewhere i spans blocks) ∪ n.beside pages foreign) b.paging) :
    n.Evolves blocks pages foreign passed (n.withBlocks i b) (Function.update spans i new) blocks
      pages := by
  rw [← Set.inter_self blocks] at hkeeps
  exact h.evolves_blocks hblocks hkeeps
    (fun x hx => h.cached_notMem x (cachedOff_subset i spans hx))
    fun x hx hnot => absurd hx hnot

/-- No block was taken from a cache. -/
theorem Sound.rests_block (h : n.Sound spans blocks pages foreign)
    (hrests : (n.blockHeap i).Rests
      (BlockHeap.cachedBlocks (spans i) ∪ elsewhere i spans blocks) (n.beside pages foreign)
      (n.table.total + pages.ncard) b) :
    n.Rests spans blocks pages foreign (n.withBlocks i b) := by
  have hcache : Function.update n.caches i b.cache = n.caches := by
    rw [hrests.cache_eq]
    exact Function.update_eq_self i n.caches
  rw [← Party.used_eq i] at hrests
  exact ⟨h.large.rests_of_blocks rfl hrests, hcache⟩

/-- The clients of a cache are served as by stacks, and the other caches have what they had. -/
def Stacked (n : Party) (spans : Nat → Category → List Span) (blocks pages foreign : Set Nat)
    (i : Nat) (r : BlockRequest) (a : Answer) (b : BlockHeap) : Prop :=
  ∃ new, n.Evolves blocks pages foreign (n.blockPassed r) (n.withBlocks i b)
    (Function.update spans i new) (after r.passed? r.frees a.granted? blocks) pages ∧
    Stacks.Step (IsBlock n.memory) (Stacks.ofSpans (spans i)) r a (Stacks.ofSpans new)

theorem Sound.ensures_allocateBlock (h : n.Sound spans blocks pages foreign) (i : Nat)
    (c : Category) :
    Action.Ensures (BlockHeap.allocate c) (n.blockHeap i)
      (fun x? b => n.Stacked spans blocks pages foreign i (.allocate c.val) (.pointer x?) b)
      Action.never := by
  apply ((h.blockHeap i).ensures_allocate c).weaken
  intro x? b hgives
  cases x? with
  | none =>
      obtain ⟨hrests, hempty⟩ := hgives
      have hevolves := (h.rests_block hrests).evolves h (n.blockPassed (.allocate c.val))
      rw [← Function.update_eq_self i spans] at hevolves
      refine ⟨spans i, hevolves, .dry ?_⟩
      rw [Stacks.ofSpans, hempty, blocksOf_nil]
  | some x =>
      -- The new block was in no other cache, and with no client.
      obtain ⟨new, hblocks, hkeeps, hnew, -, -, hdraws⟩ := hgives
      refine ⟨_, ?_, Stacks.step_of_draws hdraws⟩
      have hlive : after none false (some x) blocks = insert x blocks := by
        rw [after, Heap.others_none]
      show n.Evolves _ _ _ _ _ _ (after none false (some x) blocks) _
      rw [hlive]
      rw [elsewhere, ← Set.union_insert] at hblocks
      refine h.evolves_blocks hblocks ?_ (fun y hy hin => ?_) fun y hy hnot =>
        absurd (Set.mem_insert_of_mem x hy) hnot
      · rwa [Set.inter_eq_self_of_subset_left (Set.subset_insert x blocks)]
      · rcases Set.mem_insert_iff.1 hin with rfl | hin
        · exact hnew (.inl hy)
        · exact h.cached_notMem y (cachedOff_subset i spans hy) hin

theorem Sound.ensures_freeBlock (h : n.Sound spans blocks pages foreign) (i : Nat)
    (hx : x ∈ blocks) :
    Action.Ensures (BlockHeap.free x) (n.blockHeap i)
      (fun _ b => n.Stacked spans blocks pages foreign i (.free x) .done b) Action.never := by
  obtain ⟨c, hblock⟩ := h.marked.shaped x (.inr hx)
  -- For the cache, the block that comes back is the one that leaves its surroundings.
  have hall := h.blockHeap i
  have hinsert : elsewhere i spans blocks = insert x (elsewhere i spans (blocks \ {x})) := by
    rw [elsewhere, elsewhere, ← Set.union_insert, Set.insert_sdiff_singleton,
      Set.insert_eq_of_mem hx]
  rw [hinsert] at hall
  have hnew : x ∉ elsewhere i spans (blocks \ {x}) := by
    intro hin
    rcases hin with hin | hin
    · exact h.cached_notMem x (cachedOff_subset i spans hin) hx
    · exact hin.2 rfl
  apply (hall.ensures_free hblock hnew).weaken
  intro _ b hpost
  obtain ⟨new, htakes⟩ := hpost
  have hpiles := htakes.piles
  rw [(hall.holds c).count_eq] at hpiles
  refine ⟨_, ?_, Stacks.step_of_piles hblock hpiles⟩
  have hlive : after (some x) true none blocks = blocks \ {x} := Heap.others_some x blocks
  show n.Evolves _ _ _ _ _ _ (after (some x) true none blocks) _
  rw [hlive]
  refine h.evolves_blocks htakes.sound ?_ (fun y hy hin => ?_) fun y hy hnot d hblock' => ?_
  · rw [Set.inter_eq_self_of_subset_right Set.sdiff_subset]
    exact htakes.keeps
  · exact h.cached_notMem y (cachedOff_subset i spans hy) hin.1
  · have hself : y = x := by
      by_contra hne
      exact hnot ⟨hy, hne⟩
    rw [hself] at hblock' ⊢
    exact fun z hz => ⟨x, rfl, d, hblock', hz⟩

theorem Sound.ensures_serveBlocks {r : BlockRequest} (h : n.Sound spans blocks pages foreign)
    (i : Nat) (hallowed : ∀ x, r.passed? = some x → x ∈ blocks) :
    Action.Ensures (BlockHeap.serve r) (n.blockHeap i)
      (fun a b => n.Stacked spans blocks pages foreign i r a b)
      (fun _ _ => r.Unknown) := by
  -- What a request that changes nothing leaves behind.
  have hself : n.Evolves blocks pages foreign (n.blockPassed r) (n.withBlocks i (n.blockHeap i))
      (Function.update spans i (spans i)) blocks pages :=
    h.evolves_kept (h.blockHeap i) (Paging.Keeps.refl n.paging _)
  have hcategory : ∀ {x : Nat} {post : Category → Kernel → Prop}, x ∈ blocks →
      (∀ c, IsBlock n.memory c x → post c n.paging.kernel) →
      Action.Ensures (Kernel.blockCategory x) n.paging.kernel post (fun _ _ => r.Unknown) := by
    intro x post hx hpost
    obtain ⟨c, hblock⟩ := h.marked.shaped x (.inr hx)
    exact BlockHeap.ensures_blockCategory hblock (hpost c hblock)
  have hdemand : ∀ {check : Violation} {number : Nat} {post : Category → BlockHeap → Prop},
      r.number? = some number → (∀ c : Category, c.val = number → post c (n.blockHeap i)) →
      Action.Ensures (BlockHeap.demandCategory check number) (n.blockHeap i) post
        (fun _ _ => r.Unknown) := by
    intro check number post hnumber hpost
    unfold BlockHeap.demandCategory
    cases hknown : Category.ofNat? number with
    | some c => exact .answer (hpost c (Category.val_of_ofNat? hknown))
    | none => exact Action.ensures_halt.2 ⟨number, hnumber, hknown⟩
  cases r with
  | allocate number =>
      rw [BlockHeap.serve, Action.ensures_bind]
      refine hdemand rfl fun c hc => ?_
      subst hc
      rw [Action.ensures_bind]
      apply (h.ensures_allocateBlock i c).weaken
      exact fun x? b hstacked => .answer hstacked
  | free x =>
      rw [BlockHeap.serve, Action.ensures_map]
      exact (h.ensures_freeBlock i (hallowed x rfl)).weaken fun _ _ hstacked => hstacked
  | flush number =>
      rw [BlockHeap.serve, Action.ensures_bind]
      refine hdemand rfl fun c hc => ?_
      subst hc
      rw [Action.ensures_bind]
      apply ((h.blockHeap i).ensures_flush c).weaken
      intro _ b hpost
      refine .answer ⟨_, h.evolves_kept hpost.1 hpost.2, ?_⟩
      rw [Stacks.ofSpans_update, blocksOf_nil]
      exact .flush
  | flushAll =>
      rw [BlockHeap.serve, Action.ensures_map]
      apply (h.blockHeap i).ensures_flushAll.weaken
      intro _ b hpost
      exact ⟨_, h.evolves_kept hpost.1 hpost.2, .flushAll⟩
  | count number =>
      rw [BlockHeap.serve, Action.ensures_bind]
      refine hdemand rfl fun c hc => ?_
      subst hc
      rw [Action.ensures_bind, BlockHeap.list, Action.ensures_bind, Action.ensures_get]
      refine .answer (.answer ⟨_, hself, ?_⟩)
      have hcount : ((n.blockHeap i).cache.list c).count =
          (Stacks.ofSpans (spans i) c).length := (h.holds i c).count_eq
      rw [hcount]
      exact .count
  | size x =>
      rw [BlockHeap.serve, Action.ensures_map, Action.ensures_within, Kernel.blockSize,
        Action.ensures_bind]
      exact hcategory (hallowed x rfl) fun c hblock => .answer ⟨_, hself, .size hblock⟩
  | category x =>
      rw [BlockHeap.serve, Action.ensures_map, Action.ensures_within]
      exact hcategory (hallowed x rfl) fun c hblock => ⟨_, hself, .category hblock⟩

/-! ## Large allocations -/

/-- No entry is touched but that of what was passed. -/
theorem extent_diff_passed {r : LargeRequest} {len : Nat} (hpassed : r.passed? = some x)
    (hold : n.table.get? x = some len) :
    extent n.table.get? \ n.largePassed r ⊆ extent (Function.update n.table.get? x none) := by
  intro y hy
  have hin := hy.1
  rw [extent_eq_union hold] at hin
  exact hin.resolve_right fun hbody => hy.2 ⟨x, len, hpassed, hold, hbody⟩

theorem Sound.ensures_serveLarge {r : LargeRequest} (h : n.Sound spans blocks pages foreign)
    (hallowed : r.Allowed n.table) :
    Action.Ensures (LargeHeap.serve r) n.largeHeap
      (fun _ l => n.Evolves blocks pages foreign (n.largePassed r) (n.withLarge l) spans blocks
        pages)
      (fun _ _ => True) := by
  cases r with
  | allocate size align =>
      obtain ⟨hpos, halign⟩ := hallowed.possible size align rfl
      rw [LargeHeap.serve, Action.ensures_map]
      apply (h.large.ensures_allocate hpos halign).weaken
      intro x? l hallocates
      cases x? with
      | none => exact (rests_large hallocates).evolves h _
      | some x =>
          obtain ⟨len, -, hplaces, -, -⟩ := hallocates
          exact h.evolves_large hplaces.sound hplaces.keeps Set.sdiff_subset
  | resize x size align =>
      obtain ⟨old, hold⟩ := hallowed.present x rfl
      obtain ⟨hpos, halign⟩ := hallowed.possible size align rfl
      rw [LargeHeap.serve, Action.ensures_map]
      apply (h.large.ensures_resize hold hpos halign).weaken
      intro moved? l hresizes
      cases moved? with
      | none => exact (rests_large hresizes).evolves h _
      | some moved =>
          obtain ⟨len, -, hplaces, -, -, -⟩ := hresizes
          exact h.evolves_large hplaces.sound hplaces.keeps (extent_diff_passed rfl hold)
  | free x claimed =>
      obtain ⟨old, hold⟩ := hallowed.present x rfl
      rw [LargeHeap.serve, Action.ensures_map]
      apply (h.large.ensures_free hold claimed).answers
      intro _ l hfrees
      exact h.evolves_large hfrees.sound hfrees.keeps (extent_diff_passed rfl hold)
  | size x =>
      obtain ⟨old, hold⟩ := hallowed.present x rfl
      rw [LargeHeap.serve, Action.ensures_map]
      exact LargeHeap.ensures_sizeOf hold (h.evolves_self _)
  | trim pad =>
      rw [LargeHeap.serve, Action.ensures_map]
      apply (h.large.ensures_trim pad).weaken
      exact fun _ l hrests => (rests_large hrests).evolves h _

/-! ## Requests that are refused -/

theorem Sound.rests_servePages {r : PageRequest} {g : Paging}
    (h : n.Sound spans blocks pages foreign) (hallowed : r.Allowed n.paging pages)
    (hrefused : r.Refused a) (hrun : Paging.serve r n.paging = .ok a g) :
    n.Rests spans blocks pages foreign { n with paging := g } := by
  obtain ⟨hpassed, hgranted, hmerges⟩ := hrefused.nothing
  have hserves := (h.paging.ensures_serve h.apartFromPages_apart hallowed).of_ok hrun
  have hsound := hserves.sound
  have hkeeps := hserves.keeps.weaken hmerges
  rw [hpassed, hgranted, Set.sdiff_empty, Set.union_empty] at hsound
  rw [hpassed, Set.sdiff_empty] at hkeeps
  rw [← union_apartFromPages] at hsound hkeeps
  rw [Nat.add_assoc] at hsound
  exact ⟨h.large.rests hkeeps hsound, rfl⟩

theorem Sound.rests_serveBlocks {r : BlockRequest} (h : n.Sound spans blocks pages foreign)
    (hrefused : r.Refused a) (hrun : BlockHeap.serve r (n.blockHeap i) = .ok a b) :
    n.Rests spans blocks pages foreign (n.withBlocks i b) := by
  cases hrefused with
  | @allocate number =>
      have hserves : Action.Ensures (BlockHeap.serve (.allocate number)) (n.blockHeap i)
          (fun a b => a = .pointer none → n.Rests spans blocks pages foreign (n.withBlocks i b))
          (fun _ _ => True) := by
        rw [BlockHeap.serve, Action.ensures_bind, BlockHeap.demandCategory]
        cases Category.ofNat? number with
        | none => exact Action.ensures_halt.2 trivial
        | some c =>
            refine .answer ?_
            rw [Action.ensures_bind]
            apply ((h.blockHeap i).ensures_allocate c).weaken
            intro x? b hgives
            refine .answer fun hnone => ?_
            obtain rfl : x? = none := by simpa using hnone
            exact h.rests_block hgives.1
      exact hserves.of_ok hrun rfl

theorem Sound.rests_serveLarge {r : LargeRequest} (h : n.Sound spans blocks pages foreign)
    (hallowed : r.Allowed n.table) (hrefused : r.Refused a)
    (hrun : LargeHeap.serve r n.largeHeap = .ok a l) :
    n.Rests spans blocks pages foreign (n.withLarge l) := by
  cases hrefused with
  | @allocate size align =>
      obtain ⟨hpos, halign⟩ := hallowed.possible size align rfl
      obtain ⟨x?, hrun, hnone⟩ := Action.exists_of_map hrun
      obtain rfl := Answer.pointer.inj hnone
      exact rests_large ((h.large.ensures_allocate hpos halign).of_ok hrun)
  | @resize x size align =>
      obtain ⟨old, hold⟩ := hallowed.present x rfl
      obtain ⟨hpos, halign⟩ := hallowed.possible size align rfl
      obtain ⟨x?, hrun, hnone⟩ := Action.exists_of_map hrun
      obtain rfl := Answer.pointer.inj hnone
      exact rests_large ((h.large.ensures_resize hold hpos halign).of_ok hrun)

end Party
end PagedHeap
