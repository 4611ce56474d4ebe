import GraphMini.Exec.IepCounts
import GraphMini.Exec.Omp

/-!
# What the inclusion-exclusion mode counts

The sets of the last vertices keep the restrictions by the vertices up to `iep_depth` and no others. The
counts of a run add up to the ways to place all vertices under these restrictions.
-/

namespace GraphMini

open VertexSetIR InclusionExclusion

/-- The restrictions by the vertices up to a depth. -/
def restrictUpTo (restrict : ℕ → Finset ℕ) (dep v : ℕ) : Finset ℕ := {i ∈ restrict v | i ≤ dep}

section

variable {t : AdjMatType} {edge restrict : ℕ → Finset ℕ} {g : Graph} {placed later : List ℕ} {dep x : ℕ}

theorem mem_restrictUpTo {i v : ℕ} : i ∈ restrictUpTo restrict dep v ↔ i ∈ restrict v ∧ i ≤ dep := by
  rw [restrictUpTo, Finset.mem_filter]

/-- Up to the depth nothing is left out. -/
theorem admissible_restrictUpTo (hbelow : ∀ v ≤ dep, ∀ i ∈ restrict v, i < v) (hlen : placed.length ≤ dep) :
    Admissible t g edge restrict placed x ↔ Admissible t g edge (restrictUpTo restrict dep) placed x := by
  have hsame : restrictUpTo restrict dep placed.length = restrict placed.length := by
    apply Finset.filter_true_of_mem
    intro i hi
    exact (hbelow _ hlen i hi).le.trans hlen
  rw [Admissible, Admissible, hsame]

/-- A last vertex has its candidates, without those that the last vertices before it have taken. -/
theorem admissible_append_iff (ht : t ≠ .vertexInduced) (hlen : placed.length = dep + 1)
    (hlast : ∀ i ∈ edge (dep + 1 + later.length), i ≤ dep) :
    Admissible t g edge (restrictUpTo restrict dep) (placed ++ later) x ↔
      Candidate t g (edge (dep + 1 + later.length)) (restrict (dep + 1 + later.length)) placed (dep + 1) x ∧
        x ∉ later := by
  have hfits : ∀ i ≤ dep, ∀ y, Fits t g (edge (dep + 1 + later.length))
      (restrictUpTo restrict dep (dep + 1 + later.length)) i y x ↔
      Fits t g (edge (dep + 1 + later.length)) (restrict (dep + 1 + later.length)) i y x := by
    intro i hi y
    simp only [Fits, mem_restrictUpTo, hi, and_true]
  have hapart : ∀ i, dep < i → ∀ y, Fits t g (edge (dep + 1 + later.length))
      (restrictUpTo restrict dep (dep + 1 + later.length)) i y x ↔ x ≠ y := by
    intro i hi y
    have hedge : i ∉ edge (dep + 1 + later.length) := fun hin => absurd (hlast i hin) (not_le.mpr hi)
    simp only [Fits, mem_restrictUpTo, not_le.mpr hi, and_false, hedge, ht, false_implies, and_true]
  rw [Admissible, List.length_append, hlen, Candidate, Candidate, and_assoc]
  apply and_congr_right
  intro _
  constructor
  · intro h
    constructor
    · intro i hi
      have hi' := h i (by omega)
      rw [List.getD_append _ _ _ _ (by omega)] at hi'
      exact (hfits i (by omega) _).mp hi'
    · intro hin
      obtain ⟨j, hj, rfl⟩ := List.mem_iff_getElem.mp hin
      have hi' := h (dep + 1 + j) (by omega)
      rw [List.getD_append_right _ _ _ _ (by omega), hlen, Nat.add_sub_cancel_left,
        List.getD_eq_getElem _ _ hj, hapart _ (by omega)] at hi'
      exact hi' rfl
  · rintro ⟨h, hnot⟩ i hi
    rcases Nat.lt_or_ge i (dep + 1) with hlow | hhigh
    · rw [List.getD_append _ _ _ _ (by omega), hfits i (by omega)]
      exact h i hlow
    · rw [List.getD_append_right _ _ _ _ (by omega), hapart i (by omega)]
      rintro rfl
      apply hnot
      rw [List.getD_eq_getElem _ _ (by omega)]
      exact List.getElem_mem _

end

section

variable {plan : PlanIR} {edge restrict : ℕ → Finset ℕ} {g : Graph} {placed : List ℕ}

theorem mem_take_ofFn {k : ℕ} {f : Fin k → ℕ} {i : Fin k} {x : ℕ} :
    x ∈ (List.ofFn f).take i.val ↔ ∃ j < i, f j = x := by
  rw [List.mem_take_iff_getElem]
  constructor
  · rintro ⟨j, hj, rfl⟩
    rw [List.length_ofFn] at hj
    exact ⟨⟨j, by omega⟩, by rw [Fin.lt_def]; simp; omega, by simp⟩
  · rintro ⟨j, hj, rfl⟩
    exact ⟨j, by rw [List.length_ofFn]; omega, by simp⟩

/-- Different candidates for all of the last vertices are a way to place them. -/
theorem tuples_eq_completions (ht : plan.adjMatType ≠ .vertexInduced)
    (hlast : ∀ j < plan.iepNum, ∀ i ∈ edge (plan.iepDepth + 1 + j), i ≤ plan.iepDepth)
    (hlen : placed.length = plan.iepDepth + 1) :
    tuples (fun j => (iepCandidates plan edge restrict g placed j).toFinset) plan.iepNum
      = Completion.completions (Finset.range g.numVertex)
        (Admissible plan.adjMatType g edge (restrictUpTo restrict plan.iepDepth)) placed plan.iepNum := by
  ext f
  have htake : ∀ i : Fin plan.iepNum, ((List.ofFn f).take i.val).length = i := by
    intro i
    simp
  have hstep : ∀ i : Fin plan.iepNum,
      Admissible plan.adjMatType g edge (restrictUpTo restrict plan.iepDepth)
          (placed ++ (List.ofFn f).take i.val) (f i) ↔
        f i ∈ (iepCandidates plan edge restrict g placed i).toFinset ∧ ∀ j < i, f j ≠ f i := by
    intro i
    rw [admissible_append_iff ht hlen (by rw [htake]; exact hlast i i.isLt), htake, mem_take_ofFn,
      List.mem_toFinset, iepCandidates, List.mem_filter, List.mem_range, decide_eq_true_eq]
    simp only [not_exists, not_and]
    apply and_congr_left
    intro _
    exact (and_iff_right_of_imp fun h => h.1).symm
  rw [mem_tuples, Completion.mem_completions, Completion.Completes]
  simp only [hstep]
  constructor
  · rintro ⟨hmem, hinj⟩
    refine ⟨fun i => ?_, fun i => ⟨hmem i, fun j hj heq => hj.ne (hinj heq)⟩⟩
    have hin := hmem i
    rw [List.mem_toFinset, iepCandidates, List.mem_filter, List.mem_range] at hin
    exact Finset.mem_range.mpr hin.1
  · rintro ⟨-, h⟩
    refine ⟨fun i => (h i).1, fun i j heq => ?_⟩
    rcases lt_trichotomy i j with hlt | rfl | hlt
    · exact absurd heq ((h j).2 i hlt)
    · rfl
    · exact absurd heq.symm ((h i).2 j hlt)

end

theorem maxDep_eq_iepDepth {edge restrict : ℕ → Finset ℕ} {plan : PlanIR} (hsets : plan.IepSets edge restrict)
    (hnum : 1 < plan.iepNum) : plan.maxDep = plan.iepDepth := by
  have hdepth := hsets.depth
  rw [PlanIR.maxDep]
  omega

section

variable {edge restrict : ℕ → Finset ℕ} {cfg : CodeGenConfig} {plan : PlanIR}
  (h : PlannedMgs edge restrict cfg plan) (hsets : plan.IepSets edge restrict) (hnum : 1 < plan.iepNum)
  (hcoefficients : Coefficients plan.iepNum plan.iepVals plan.iepGroups)

include h hsets hnum hcoefficients

/-- The groups of all partitions fit the sets of the last vertices. -/
theorem iepCounts_of_coefficients : plan.IepCounts cfg := by
  have hmax := maxDep_eq_iepDepth hsets hnum
  have hdepth := hsets.depth
  constructor
  · intro _
    refine ⟨by omega, ?_⟩
    rw [hmax]
    rintro i (rfl | ⟨group, hgroup, block, hblock, hi⟩)
    · exact hsets.mem 0 (by omega)
    · apply hsets.mem
      apply ((hcoefficients.lists group hgroup).partition.cover i).mp
      refine ⟨block.toFinset, ?_, List.mem_toFinset.mpr hi⟩
      exact List.mem_toFinset.mpr (List.mem_map.mpr ⟨block, hblock, rfl⟩)
  · intro _ op hop group hgroup
    rw [hmax] at hop
    obtain ⟨-, v, hlow, hhigh, hsame⟩ := h.ops_sound plan.iepDepth op hop
    obtain ⟨j, rfl⟩ : ∃ j, v = plan.iepDepth + 1 + j := ⟨v - (plan.iepDepth + 1), by omega⟩
    have hj : j < plan.iepNum := by omega
    obtain ⟨B, hB, hin⟩ := ((hcoefficients.lists group hgroup).partition.cover j).mpr hj
    obtain ⟨block, hblock, rfl⟩ := List.mem_map.mp (List.mem_toFinset.mp hB)
    refine ⟨block, hblock, j, List.mem_toFinset.mp hin, ?_⟩
    obtain ⟨he, hr, hd⟩ := same_iff.mp hsame
    obtain ⟨he', hr', hd'⟩ := same_iff.mp (hsets.same j hj)
    exact same_iff.mpr ⟨he'.trans he.symm, hr'.trans hr.symm, hd'.trans hd.symm⟩

variable {sc : Schedule} {g : Graph} {layout : Layout} {prog : OmpProgram} (huses : usesIep plan cfg = true)
  (ht : plan.adjMatType ≠ .vertexInduced)
  (hlast : ∀ j < plan.iepNum, ∀ i ∈ edge (plan.iepDepth + 1 + j), i ≤ plan.iepDepth)

include huses ht hlast

omit hnum in
/-- When all vertices up to `iep_depth` have been placed, the ways to place the others are added. -/
theorem lastWeight_iep {placed : List ℕ} (hlen : placed.length = plan.iepDepth + 1) :
    lastWeight plan cfg g edge restrict placed
      = extensions plan.adjMatType g edge (restrictUpTo restrict plan.iepDepth) plan.iepNum placed := by
  have hgroups : ∀ group ∈ plan.iepGroups, ∀ block ∈ group, block ≠ [] ∧ ∀ j ∈ block, j < plan.iepNum := by
    intro group hgroup block hblock
    refine ⟨(hcoefficients.lists group hgroup).ne_nil hblock, fun j hj => ?_⟩
    apply ((hcoefficients.lists group hgroup).partition.cover j).mp
    refine ⟨block.toFinset, ?_, List.mem_toFinset.mpr hj⟩
    exact List.mem_toFinset.mpr (List.mem_map.mpr ⟨block, hblock, rfl⟩)
  calc lastWeight plan cfg g edge restrict placed
      = iepAmount plan plan.adjMatType g placed := by rw [lastWeight, huses, if_pos rfl]
    _ = iepSum plan edge restrict g placed := iepAmount_eq h hsets hgroups placed
    _ = (tuples (fun j => (iepCandidates plan edge restrict g placed j).toFinset) plan.iepNum).card :=
        iepSum_eq hcoefficients placed
    _ = extensions plan.adjMatType g edge (restrictUpTo restrict plan.iepDepth) plan.iepNum placed := by
        rw [tuples_eq_completions ht hlast hlen, Completion.card_completions, extensions]

/-- One iteration of the outermost loop adds the ways to go on from its vertex. -/
theorem execVertex_iep (hfields : plan.HasIepFields sc cfg.adjMatType) (hg : g.Valid)
    (hreads : plan.BoundedReads) (hprog : genCodeOmp plan cfg = .ok prog) (hclosed : prog.Closed)
    (hfits : prog.Always (BuildFits cfg g layout) g) {v : ℕ} (hv : v < g.numVertex) :
    execVertex (miniGraphMachine g layout) g prog.body v
      = some (extensions plan.adjMatType g edge (restrictUpTo restrict plan.iepDepth) (plan.pSize - 1) [v] : ℤ) := by
  have hmax := maxDep_eq_iepDepth hsets hnum
  have hdepth := hsets.depth
  have hbelow : ∀ v ≤ plan.iepDepth, ∀ i ∈ restrict v, i < v := fun v hv => h.restrict_lt v (by omega)
  have hcounts := iepCounts_of_coefficients h hsets hnum hcoefficients
  rw [execVertex_total h hfields hg hreads hcounts hprog hclosed hfits hv, hmax]
  congr 1
  calc loopTotal plan.adjMatType g edge restrict (lastWeight plan cfg g edge restrict) plan.iepDepth [v]
      = loopTotal plan.adjMatType g edge (restrictUpTo restrict plan.iepDepth)
          (fun placed => (extensions plan.adjMatType g edge (restrictUpTo restrict plan.iepDepth)
            plan.iepNum placed : ℤ)) plan.iepDepth [v] := by
        apply Completion.total_congr
        · intro placed hlen x
          rw [List.length_singleton] at hlen
          exact admissible_restrictUpTo hbelow (by omega)
        · intro placed hlen
          rw [List.length_singleton] at hlen
          exact lastWeight_iep h hsets hcoefficients huses ht hlast (by omega)
    _ = extensions plan.adjMatType g edge (restrictUpTo restrict plan.iepDepth) (plan.pSize - 1) [v] := by
        have hsize : plan.iepDepth + plan.iepNum = plan.pSize - 1 := by omega
        simp only [loopTotal, extensions, Completion.total_count, hsize]

end

end GraphMini
