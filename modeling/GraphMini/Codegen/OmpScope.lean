import GraphMini.Codegen.NestScope

/-!
# When the sequential program is closed

The statements that `gen_code_omp` emits name no variable before its declaration exactly if the plan is
in order: every set comes after the one it is cut from, every adjacency list that a set without a
parent needs is read, and every mini-graph comes after the one it is built from. No pass of the planner
ensures the second and the third, and the first only as far as the sort does.
-/

namespace GraphMini

open StdAlgorithm

/-- The emitted program is closed for exactly the plans that are in order. -/
theorem gen_code_omp_closed_iff (sc : Schedule) (cfg : CodeGenConfig) (metaData : MetaData) (pSize : ℕ)
    (hsc : sc.InOrder pSize) (ht : cfg.adjMatType ≠ .edgeInducedIEP) :
    (∃ plan prog, genPlan (insertionSort VertexSetIR.less) sc cfg metaData = .ok (some plan) ∧
      genCodeOmp plan cfg = .ok prog ∧ prog.Closed) ↔
    ∃ plan, genPlan (insertionSort VertexSetIR.less) sc cfg metaData = .ok (some plan) ∧
      plan.InOrderFrom cfg 0 := by
  have hsort : PermutesOps (insertionSort VertexSetIR.less) (sc.edge pSize) (sc.restrict pSize)
      pSize := fun _ _ => insertionSort_perm _ _
  refine exists_congr fun plan => ?_
  rw [exists_and_left]
  refine and_congr_right fun hplan => ?_
  obtain ⟨h, -⟩ := plannedMgs_genPlan hsc.connects hsort hplan
  refine h.closed_omp_iff (hasIepFields_genPlan hsc.connects hsort hplan) fun huses => ?_
  simp [usesIep, ht] at huses

/-- A triangle without restrictions is in order. -/
def freeTriangle : Schedule where
  adjMat := "011101110".toList
  restrictPair := []

theorem inOrder_freeTriangle : freeTriangle.InOrder 3 := by
  constructor <;> decide

theorem gen_code_omp_closed_iff_triangle :
    ∃ plan, genPlan (insertionSort VertexSetIR.less) freeTriangle { pruningType := .eager } {}
      = .ok (some plan) ∧ plan.InOrderFrom { pruningType := .eager } 0 := by
  have hclosed : (genPlan (insertionSort VertexSetIR.less) freeTriangle
      { pruningType := .eager } {}).toOption.join.any (fun plan =>
        (genCodeOmp plan { pruningType := .eager }).toOption.any fun prog =>
          decide prog.Closed) = true := by decide +kernel
  obtain ⟨plan, hplan, hclosed⟩ := Loop.exists_ok_some_of_any hclosed
  obtain ⟨prog, hprog, hclosed⟩ := Loop.exists_ok_of_any hclosed
  exact (gen_code_omp_closed_iff freeTriangle _ {} 3 inOrder_freeTriangle (by decide)).mp
    ⟨plan, prog, hplan, hprog, of_decide_eq_true hclosed⟩

/-- The path 3, 2, 0, 1 with one more neighbour of vertex 0. -/
def forkedPath : Schedule where
  adjMat := "0110110000100100010010000".toList
  restrictPair := []

theorem inOrder_forkedPath : forkedPath.InOrder 5 := by
  constructor <;> decide

/-- An adjacency list that no operation of its depth needs is not read, although a deeper operation
takes its vertex out of a set. -/
theorem gen_code_omp_open :
    ¬ ∀ (sc : Schedule) (cfg : CodeGenConfig) (metaData : MetaData) (pSize : ℕ),
      sc.InOrder pSize → cfg.adjMatType ≠ .edgeInducedIEP →
      ∀ plan prog, genPlan (insertionSort VertexSetIR.less) sc cfg metaData = .ok (some plan) →
        genCodeOmp plan cfg = .ok prog → prog.Closed := by
  intro hall
  have hopen : (genPlan (insertionSort VertexSetIR.less) forkedPath
      { pruningType := .online } {}).toOption.join.any (fun plan =>
        (genCodeOmp plan { pruningType := .online }).toOption.any fun prog =>
          !decide prog.Closed) = true := by decide +kernel
  obtain ⟨plan, hplan, hopen⟩ := Loop.exists_ok_some_of_any hopen
  obtain ⟨prog, hprog, hopen⟩ := Loop.exists_ok_of_any hopen
  have hclosed := hall forkedPath _ {} 5 inOrder_forkedPath (by decide) plan prog hplan hprog
  simp [hclosed] at hopen

end GraphMini
