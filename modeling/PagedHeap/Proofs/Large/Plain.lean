import PagedHeap.Large.Heap
import PagedHeap.Proofs.Page.Plain

/-!
# Large allocations without huge pages

Large allocations may come to requests of whole huge pages.  Where they do not, it makes no
difference to them whether the supplier is configured for huge pages.

The first functions say what a large allocation comes to.
-/

namespace PagedHeap
namespace LargeHeap

open PagedHeap.Action

/-! ## What the supplier is asked for -/

/-- How many bytes the supplier is asked for, for `len` bytes at a multiple of `align`. -/
def around? (len align : Nat) : Option Nat :=
  if align ≤ pageSize then some len else Word.add? len (align - pageSize)

/-- How many bytes the supplier is asked for when `size` bytes at a multiple of `align` are
allocated. -/
def allocateAsks? (size align : Nat) : Option Nat :=
  (pageCeil? size).bind fun len => around? len align

/-- How many bytes the supplier is asked for when an allocation is resized: none where it shrinks or
grows in place. -/
def resizeAsks? (l : LargeHeap) (address size align : Nat) : Option Nat :=
  match pageCeil? size, l.table.get? address with
  | some len, some old =>
      if len ≤ old then none
      else
        match Paging.extendInPlace address old len l.paging with
        | .ok false _ => allocateAsks? len align
        | .ok true _ | .error _ _ => none
  | _, _ => none

/-- The large allocations, on a supplier without huge pages. -/
def plain (l : LargeHeap) : LargeHeap := { l with paging := l.paging.plain }

variable {size len align address : Nat} {l : LargeHeap}

theorem blind_onPages {α : Type} {action : Action Paging α} (h : Blind Paging.plain action) :
    Blind plain (onPages action) :=
  h.within (fun _ => rfl) fun _ _ => rfl

theorem blind_onKernel {α : Type} (action : Action Kernel α) :
    Blind plain (within kernelPart action) :=
  blind_within action (fun _ => rfl) fun _ _ => rfl

theorem blind_updateTable (f : SizeTable → SizeTable) : Blind plain (updateTable f) :=
  blind_modify fun _ => rfl

/-! ## The table -/

theorem blind_growTable : Blind plain growTable := by
  refine blind_get_bind (fun _ => rfl) fun l => (blind_checked _).bind fun bytes => ?_
  refine (blind_onPages (Paging.blind_map 0 bytes)).bind fun storage? => ?_
  cases storage? with
  | none => exact blind_pure false
  | some storage =>
      refine (blind_updateTable _).bind fun _ => ?_
      exact ((blind_onPages (Paging.blind_unmap _ _)).onlyIf _).bind fun _ => blind_pure true

theorem blind_recordSize (address len : Nat) : Blind plain (recordSize address len) := by
  have hroom : Blind plain ensureRoom :=
    blind_get_bind (fun _ => rfl) fun _ => Blind.ite blind_growTable (blind_pure true)
  exact hroom.bind fun room => ((blind_updateTable _).onlyIf room).bind fun _ => blind_pure room

theorem blind_sizeOf (address : Nat) : Blind plain (sizeOf address) := by
  refine blind_get_bind (fun _ => rfl) fun l => ?_
  cases l.table.get? address with
  | some size => exact blind_pure size
  | none => exact blind_onKernel _

/-! ## Ranges -/

theorem blind_returnEnds (raw total start len : Nat) :
    Blind plain (returnEnds raw total start len) := by
  have hback : ∀ address size opts, Blind plain (onPages (Paging.reclaim address size opts)) :=
    fun _ _ _ => blind_onPages (Paging.blind_reclaim _ _ _)
  exact (blind_checked _).bind fun tail => ((hback _ _ _).onlyIf _).bind fun _ =>
    (hback _ _ _).onlyIf _

theorem blind_takeRange (h : NotHuge (around? len align)) :
    Blind plain (takeRange len align) := by
  unfold around? at h
  unfold takeRange
  by_cases halign : align ≤ pageSize
  · rw [if_pos halign] at h ⊢
    exact blind_onPages (Paging.blind_allocate (h len rfl))
  · rw [if_neg halign] at h ⊢
    unfold takeOverAligned
    cases htotal : Word.add? len (align - pageSize) with
    | none => exact blind_pure none
    | some total =>
        refine (blind_onPages (Paging.blind_allocate (h total htotal))).bind fun raw? => ?_
        cases raw? with
        | none => exact blind_pure none
        | some raw =>
            exact (blind_checked _).bind fun start =>
              (blind_returnEnds _ _ _ _).bind fun _ => blind_pure _

/-- A range is allocated as if there were no huge pages, unless whole huge pages are asked for. -/
theorem blind_allocate (h : NotHuge (allocateAsks? size align)) :
    Blind plain (allocate size align) := by
  unfold allocateAsks? at h
  refine (blind_require _ _).bind fun _ => ?_
  cases hlen : pageCeil? size with
  | none => exact blind_pure none
  | some len =>
      rw [hlen] at h
      refine (blind_takeRange h).bind fun got? => ?_
      cases got? with
      | none => exact blind_pure none
      | some address =>
          refine (blind_recordSize address len).bind fun recorded => Blind.ite (blind_pure _) ?_
          exact (blind_onPages (Paging.blind_reclaim _ _ _)).bind fun _ => blind_pure none

/-! ## Operations -/

theorem blind_free (address : Nat) (claimed : Option Nat) : Blind plain (free address claimed) := by
  refine (blind_sizeOf address).bind fun actual => ?_
  have hclaim : Blind plain (checkClaim address actual claimed) := by
    cases claimed with
    | none => exact blind_pure ()
    | some given => exact Blind.onlyIf (blind_onKernel _) _
  exact hclaim.bind fun _ => (blind_updateTable _).bind fun _ =>
    blind_onPages (Paging.blind_reclaim _ _ _)

theorem blind_trim (pad : Nat) : Blind plain (trim pad) := blind_onPages (Paging.blind_trim pad)

/-- The size of an allocation is looked up, or the process ends. -/
theorem sizeOf_eq_ok {old : Nat} {l' : LargeHeap} (hrun : sizeOf address l = .ok old l') :
    l.table.get? address = some old ∧ l' = l := by
  have hlook : Action.Ensures (sizeOf address) l
      (fun old l' => l.table.get? address = some old ∧ l' = l) fun _ _ => True := by
    rw [sizeOf, Action.ensures_bind, Action.ensures_get]
    cases hentry : l.table.get? address with
    | some size => exact .answer ⟨rfl, rfl⟩
    | none => exact Action.ensures_within.2 (Kernel.ensures_corrupted.2 trivial)
  exact hlook.of_ok hrun

/-- An allocation is resized as if there were no huge pages, unless it moves and whole huge pages are
asked for. -/
theorem mirrors_resize (h : NotHuge (l.resizeAsks? address size align)) :
    Mirrors plain (resize address size align) (resize address size align) l := by
  unfold resizeAsks? at h
  unfold resize
  cases hlen : pageCeil? size with
  | none => exact mirrors_pure none l
  | some len =>
      refine (blind_sizeOf address l).bind fun old l' hrun => ?_
      obtain ⟨hentry, rfl⟩ := sizeOf_eq_ok hrun
      simp only [hlen, hentry] at h
      by_cases hsame : len = old
      · rw [if_pos hsame]
        exact mirrors_pure _ l'
      rw [if_neg hsame]
      by_cases hless : len < old
      · rw [if_pos hless]
        exact ((blind_updateTable _).bind fun _ =>
          (blind_onPages (Paging.blind_reclaim _ _ _)).bind fun _ => blind_pure _) l'
      rw [if_neg hless]
      rw [if_neg (by omega)] at h
      refine (blind_onPages (Paging.blind_extendInPlace address old len) l').bind
        fun grown l₁ hrun => ?_
      cases grown with
      | true => exact ((blind_updateTable _).bind fun _ => blind_pure _) l₁
      | false =>
          obtain ⟨p, hextend, rfl⟩ := exists_of_within hrun
          have hpaging : Paging.extendInPlace address old len l'.paging = .ok false p := hextend
          rw [hpaging] at h
          refine ((blind_allocate h).bind fun moved? => ?_) _
          cases moved? with
          | none => exact blind_pure none
          | some moved =>
              exact (blind_onKernel _).bind fun _ => (blind_free address none).bind fun _ =>
                blind_pure _

/-- What the supplier is asked for does not depend on how it is configured. -/
theorem resizeAsks?_plain (l : LargeHeap) (address size align : Nat) :
    l.plain.resizeAsks? address size align = l.resizeAsks? address size align := by
  unfold resizeAsks?
  cases pageCeil? size with
  | none => rfl
  | some len =>
      have htable : l.plain.table = l.table := rfl
      rw [htable]
      cases l.table.get? address with
      | none => rfl
      | some old =>
          have hextend : Paging.extendInPlace address old len l.plain.paging =
              carry Paging.plain (Paging.extendInPlace address old len l.paging) :=
            Paging.blind_extendInPlace address old len l.paging
          simp only [hextend]
          cases Paging.extendInPlace address old len l.paging with
          | ok grown p => cases grown <;> rfl
          | error e p => rfl

end LargeHeap
end PagedHeap
