import PagedHeap.Proofs.Page.Huge
import PagedHeap.Proofs.Site.Order

/-!
# Huge pages on a machine

Every mapping that a supplier has on record for huge pages starts and ends at multiples of their
size, since only such mappings are put on record.  So the place beside it is aligned too, and a
request for whole huge pages is answered with aligned memory that nobody had in use, or brings
nothing into use.
-/

namespace PagedHeap
namespace Site

variable {p p' : Site} {o o' : Owner} {passed foreign : Set Nat} {size : Nat}

/-! ## What is on record -/

/-- No supplier has done anything at the start. -/
theorem supplier_new (build : Build) (k : Kernel) (suppliers : List PageConfig) (o : Owner) :
    ∃ config, ((new build k suppliers).paging o).supplier = PageSupplier.new config := by
  cases o with
  | heap => exact ⟨_, rfl⟩
  | supplier s =>
      obtain ⟨config, hnew⟩ := privateHeap_new build k suppliers s
      exact ⟨config, congrArg PrivateHeap.supplier hnew⟩

/-- The act of an owner leaves what is on record aligned, with all owners. -/
theorem Acts.hinted (hacts : p.Acts o passed foreign p')
    (h : (p.paging o').supplier.hint.Aligned) : (p'.paging o').supplier.hint.Aligned := by
  by_cases ho : o' = o
  · subst ho
    exact hacts.keeps.hinted h
  · rwa [(hacts.unmoved o' ho).supplier_eq]

theorem Step.hinted (hstep : p.Step p') (horderly : p.Orderly)
    (h : (p.paging o').supplier.hint.Aligned) : (p'.paging o').supplier.hint.Aligned := by
  cases hstep with
  | work hwork => exact (hwork.acts (horderly.sound _)).hinted h
  | store hsame => exact (acts_store (horderly.sound _) hsame).hinted h
  | assign hempty => exact (acts_assign (horderly.sound .heap) hempty).hinted h
  | @environment k others hvalid huse hsame hothers hapart hexact =>
      have hunmoved : p.Unmoved { p.withKernel k with others := others } o' :=
        unmoved_withKernel p k o'
      rwa [hunmoved.supplier_eq]

/-- The mapping for huge pages that a supplier has on record is aligned, whatever has happened. -/
theorem Reachable.hinted (hreach : p.Reachable) (o : Owner) :
    (p.paging o).supplier.hint.Aligned := by
  induction hreach with
  | @start build k suppliers hvalid =>
      obtain ⟨config, hnew⟩ := supplier_new build k suppliers o
      rw [hnew]
      exact ⟨rfl, rfl⟩
  | step hreach hstep ih => exact hstep.hinted hreach.orderly ih

/-! ## Requests for whole huge pages -/

/-- Whatever has happened on a machine, a supplier for huge pages answers a request for whole ones
with aligned memory that came into use for it, beside the mapping before if the kernel has that to
offer, or nothing comes into use. -/
theorem Reachable.serves_huge (hreach : p.Reachable) (o : Owner)
    (hhuge : (p.paging o).supplier.config.hugePages = true) (hpos : 0 < size)
    (hsize : size % hugePageSize = 0) :
    Action.Ensures (Paging.allocate size) (p.paging o) ((p.paging o).ServesHuge size)
      Action.never :=
  (hreach.orderly.sound o).parts.paging.ensures_servesHuge hhuge (hreach.hinted o) hpos hsize

/-- A machine with a supplier for huge pages, on which a client got two of them. -/
def twoHuge : Site :=
  ((new .standard (.boot 2048 none) [{ hugePages := true }]).servePages 0
    (.allocate 2097152)).servePages 0 (.allocate 2097152)

theorem reachable_twoHuge : twoHuge.Reachable := by
  have hstart : (new .standard (.boot 2048 none) [{ hugePages := true }]).Reachable :=
    .start .standard _ (Kernel.valid_boot (by decide) fun _ hnone => nomatch hnone)
  have hfirst := hstart.servePages (s := 0) (r := .allocate 2097152) ⟨by decide, by decide⟩
  exact hfirst.servePages ⟨by decide, by decide⟩

/-- The mappings grow down, and below the last one there is room. -/
theorem offers_twoHuge :
    (twoHuge.paging (.supplier 0)).supplier.hint.Beside 2097152 0x200000200000 ∧
      (twoHuge.paging (.supplier 0)).kernel.Offers 0x200000200000 2097152 := by
  have hhint : (twoHuge.paging (.supplier 0)).supplier.hint =
      ⟨0x200000400000, 0x200000600000, true⟩ := by decide +kernel
  have hcovers : (twoHuge.paging (.supplier 0)).kernel.free.covers 0x200000200 0x200000400 =
      true := by decide +kernel
  rw [hhint]
  refine ⟨⟨by decide, fun _ => rfl, fun hup => absurd hup (by decide)⟩, by decide +kernel,
    by decide +kernel, fun x hx => ?_⟩
  rw [ExtentSet.covers_iff (by decide)] at hcovers
  rw [mem_bytesAt] at hx
  simp only [pageSize]
  exact hcovers _ (by omega) (by omega)

/-- So the third one comes out there, by one call. -/
theorem serves_huge_beside : ∃ q : Paging, twoHuge.Reachable ∧
    (twoHuge.paging (.supplier 0)).supplier.config.hugePages = true ∧
    Paging.allocate 2097152 (twoHuge.paging (.supplier 0)) = .ok (some 0x200000200000) q ∧
    (twoHuge.paging (.supplier 0)).ServesHuge 2097152 (some 0x200000200000) q ∧
    q.kernel.calls = .advise 0x200000200000 2097152 .huge ::
      .mapAny 0x200000200000 2097152 (some 0x200000200000) ::
        (twoHuge.paging (.supplier 0)).kernel.calls := by
  have hhuge : (twoHuge.paging (.supplier 0)).supplier.config.hugePages = true := by
    decide +kernel
  have hserves : Action.Ensures (Paging.allocate 2097152) (twoHuge.paging (.supplier 0))
      ((twoHuge.paging (.supplier 0)).ServesHuge 2097152) Action.never :=
    reachable_twoHuge.serves_huge (.supplier 0) hhuge (by decide) (by decide)
  obtain ⟨answer?, q, hok, hanswer⟩ := hserves.exists_ok
  obtain ⟨hbeside, hoffers⟩ := offers_twoHuge
  obtain ⟨rfl, hcalls⟩ := hanswer.beside _ hbeside hoffers
  exact ⟨q, reachable_twoHuge, hhuge, hok, hanswer, hcalls⟩

end Site
end PagedHeap
