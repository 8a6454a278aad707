import PagedHeap.Proofs.Kernel.Calls

/-!
# Which calls move the break

A move of the break fails by schedule, or because it would leave the bounds of the break.  Down to
a byte in use it stays within them, so it fails by schedule only.  A move that fails leaves the
break where it is, and so do all other calls.
-/

namespace PagedHeap

/-- A call fails only by a schedule that has failures left. -/
theorem FailureSchedule.count_pos {s : FailureSchedule} (h : s.next.1 = true) : 0 < s.count := by
  unfold next at h
  split at h
  · exact absurd h Bool.false_ne_true
  · split at h
    · assumption
    · exact absurd h Bool.false_ne_true

/-- No failures are added to a schedule. -/
theorem FailureSchedule.count_next_le (s : FailureSchedule) : s.next.2.count ≤ s.count := by
  unfold next
  split
  · exact Nat.le_refl _
  · split
    · exact Nat.sub_le _ _
    · exact Nat.le_refl _

namespace Kernel

variable {k : Kernel} {delta : Int}

theorem count_moveBreak_le (k : Kernel) (delta : Int) :
    (k.moveBreak delta).2.breakFailures.count ≤ k.breakFailures.count := by
  have hschedule := k.breakFailures.count_next_le
  unfold moveBreak
  simp only
  split
  · exact Nat.le_refl _
  · split
    · exact hschedule
    · exact hschedule

/-- What fails does so by schedule, or because there is no such place. -/
theorem moveBreak_refused (hdelta : delta ≠ 0) (h : (k.moveBreak delta).1 = none) :
    (k.moveBreak delta).2.programBreak? = k.programBreak? ∧
      (0 < k.breakFailures.count ∨ k.movedBreak? delta = none) := by
  unfold moveBreak at h ⊢
  rw [if_neg hdelta] at h ⊢
  simp only at h ⊢
  split at h
  · rename_i hplace
    refine ⟨rfl, ?_⟩
    split at hplace
    · rename_i hfails
      exact .inl (FailureSchedule.count_pos hfails)
    · exact .inr hplace
  · exact absurd h (by simp)

theorem moveBreak_moved (hdelta : delta ≠ 0) {old : Nat} (h : (k.moveBreak delta).1 = some old) :
    old = k.programBreak ∧
      ((k.moveBreak delta).2.programBreak : Int) = k.programBreak + delta := by
  unfold moveBreak at h ⊢
  rw [if_neg hdelta] at h ⊢
  simp only at h ⊢
  split at h
  · exact absurd h (by simp)
  · rename_i b target hplace
    split at hplace
    · exact absurd hplace (by simp)
    · obtain ⟨hb, htarget, -, -⟩ := movedBreak?_eq_some hplace
      have hcurrent : k.programBreak = b.current := programBreak_of_some hb
      rw [hcurrent]
      exact ⟨(Option.some.inj h).symm, htarget⟩

theorem programBreak_congr {k' : Kernel} (h : k'.programBreak? = k.programBreak?) :
    k'.programBreak = k.programBreak := by
  rw [programBreak, programBreak, h]

/-- Down to a byte in use the break can be moved, if no move is made to fail. -/
theorem Valid.count_pos_of_refused (h : k.Valid) {len : Nat} (hlen : 0 < len)
    (hused : k.programBreak - len ∈ k.inUse) (hlow : k.programBreak - len < arenaBase)
    (hrefused : (k.moveBreak (-(len : Int))).1 = none) : 0 < k.breakFailures.count := by
  obtain ⟨-, hschedule | hplace⟩ := moveBreak_refused (by omega) hrefused
  · exact hschedule
  · rcases hused with ⟨hbase, -⟩ | ⟨b, hb, hstart, hcurrent⟩
    · exact absurd hbase (Nat.not_le.2 hlow)
    · obtain ⟨hpos, -, hstop, -⟩ := h.break_inside b hb
      rw [programBreak_of_some hb] at hstart hcurrent
      -- The place is within the bounds.
      have hbounds : (b.start : Int) ≤ (b.current : Int) + -(len : Int) ∧
          (b.current : Int) + -(len : Int) ≤ (b.stop : Int) := by
        omega
      have hmoved : k.movedBreak? (-(len : Int)) =
          some (b, ((b.current : Int) + -(len : Int)).toNat) := by
        rw [movedBreak?, hb]
        exact if_pos hbounds
      rw [hmoved] at hplace
      exact absurd hplace (by simp)

/-! ## Other calls -/

theorem programBreak?_mapAt (k : Kernel) (place? : Option Nat) (count : Nat) :
    (k.mapAt place? count).2.programBreak? = k.programBreak? := by
  unfold mapAt
  simp only
  split
  · rfl
  · cases place? with
    | none => rfl
    | some first => rfl

theorem programBreak?_mapAny (k : Kernel) (hint len : Nat) :
    (k.mapAny hint len).2.programBreak? = k.programBreak? :=
  k.programBreak?_mapAt _ _

theorem programBreak?_mapExact (k : Kernel) (address len : Nat) :
    (k.mapExact address len).2.programBreak? = k.programBreak? :=
  k.programBreak?_mapAt _ _

theorem programBreak?_remap (k : Kernel) (address old new : Nat) :
    (k.remap address old new).2.programBreak? = k.programBreak? := by
  unfold remap
  simp only
  split
  · rfl
  · rfl

end Kernel
end PagedHeap
