import PagedHeap.Machine
import PagedHeap.Proofs.Block.Cache

/-!
# Lists of free blocks are stacks

To its clients a cache is a stack of single blocks for each category.  A block is taken from the
top, and a block that is freed goes on top.  When there is none a page is carved: its first slot
is the header of the run, the block in the next slot is handed out, and the others are stacked
with the lowest address on top.  A stack that is full is cleared before a block goes on it.

`Stacks.Step` is this machine; that blocks in a row share one node is not to be seen in it.
-/

namespace PagedHeap

/-- A stack of blocks for each category, from the top down. -/
abbrev Stacks := Category → List Nat

/-- The slots of a page for its blocks, from the lowest address up. -/
def slots (c : Category) (page : Nat) : List Nat :=
  (List.range c.blocksPerPage).map fun i => page + (i + 1) * c.blockSize

theorem blocks_wholeRun (c : Category) (page : Nat) : (wholeRun c page).blocks c = slots c page := by
  refine List.map_congr_left fun i _ => ?_
  show page + c.blockSize + i * c.blockSize = page + (i + 1) * c.blockSize
  rw [Nat.succ_mul]
  omega

namespace Stacks

/-- What a request to a cache does to the stacks.  The `kind` of a block is the category of its
run. -/
inductive Step (kind : Category → Nat → Prop) (st : Stacks) :
    BlockRequest → Answer → Stacks → Prop where
  | pop {c : Category} {x : Nat} {below : List Nat} (htop : st c = x :: below) :
      Step kind st (.allocate c.val) (.pointer (some x)) (Function.update st c below)
  | carve {c : Category} {page x : Nat} {below : List Nat} (hempty : st c = [])
      (hmod : page % pageSize = 0) (hslots : slots c page = x :: below) :
      Step kind st (.allocate c.val) (.pointer (some x)) (Function.update st c below)
  | dry {c : Category} (hempty : st c = []) :
      Step kind st (.allocate c.val) (.pointer none) st
  | push {c : Category} {x : Nat} (hkind : kind c x) (hroom : (st c).length < cacheCeiling) :
      Step kind st (.free x) .done (Function.update st c (x :: st c))
  | pushFull {c : Category} {x : Nat} (hkind : kind c x)
      (hfull : cacheCeiling ≤ (st c).length) :
      Step kind st (.free x) .done (Function.update st c [x])
  | flush {c : Category} : Step kind st (.flush c.val) .done (Function.update st c [])
  | flushAll : Step kind st .flushAll .done fun _ => []
  | count {c : Category} : Step kind st (.count c.val) (.size (st c).length) st
  | size {c : Category} {x : Nat} (hkind : kind c x) :
      Step kind st (.size x) (.size c.blockSize) st
  | category {c : Category} {x : Nat} (hkind : kind c x) :
      Step kind st (.category x) (.size c.val) st

/-- A request that was answered, with the kinds that blocks had then. -/
structure Entry where
  kind : Category → Nat → Prop
  request : BlockRequest
  answer : Answer

/-- From empty stacks, the requests of a log with their answers come to the stacks `st`.  The latest
stands first. -/
inductive Replays : List Entry → Stacks → Prop where
  | start : Replays [] fun _ => []
  | step {log : List Entry} {entry : Entry} {st st' : Stacks} (hrest : Replays log st)
      (hstep : Step entry.kind st entry.request entry.answer st') : Replays (entry :: log) st'

/-- The stacks that some rows are. -/
def ofSpans (spans : Category → List Span) : Stacks := fun c => blocksOf c (spans c)

variable {kind : Category → Nat → Prop} {c : Category} {spans : Category → List Span}
  {new : List Span} {x : Nat}

theorem ofSpans_update (c : Category) (spans : Category → List Span) (new : List Span) :
    ofSpans (Function.update spans c new) =
      Function.update (ofSpans spans) c (blocksOf c new) := by
  funext d
  by_cases hd : d = c
  · subst hd
    rw [ofSpans, Function.update_self, Function.update_self]
  · rw [ofSpans, Function.update_of_ne hd, Function.update_of_ne hd, ofSpans]

theorem step_of_draws (hdraws : BlockHeap.Draws c (spans c) x new) :
    Step kind (ofSpans spans) (.allocate c.val) (.pointer (some x))
      (ofSpans (Function.update spans c new)) := by
  rw [ofSpans_update]
  cases hdraws with
  | pop hblocks => exact .pop hblocks
  | carve hempty hmod hblocks =>
      rw [blocks_wholeRun] at hblocks
      refine .carve ?_ hmod hblocks
      rw [ofSpans, hempty, blocksOf_nil]

theorem step_of_piles (hkind : kind c x)
    (hpiles : blocksOf c new =
      BlockHeap.pile x (blocksOf c (spans c)).length (blocksOf c (spans c))) :
    Step kind (ofSpans spans) (.free x) .done (ofSpans (Function.update spans c new)) := by
  rw [ofSpans_update, hpiles, BlockHeap.pile]
  split
  · rename_i hroom
    exact .push hkind hroom
  · rename_i hfull
    exact .pushFull hkind (Nat.not_lt.1 hfull)

end Stacks
end PagedHeap
