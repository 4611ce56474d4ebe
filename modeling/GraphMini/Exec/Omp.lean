import GraphMini.Exec.Count
import GraphMini.Spec.Embedding

/-!
# The program without pruning counts the embeddings

The plan of a schedule in order, its program, and the counters of its threads put together.
-/

namespace GraphMini

open VertexSetIR

variable {M : MgMachine} {g : Graph} {sc : Schedule} {pSize : ℕ} {cfg : CodeGenConfig}
  {sort : List VertexSetIR → List VertexSetIR} {metaData : MetaData}

/-- If no iteration of the outermost loop fails, the threads share out what the iterations add. -/
theorem runOmp_sum {prog : OmpProgram} {threads : ℕ} (schedule : ℕ → Fin threads)
    {amount : ℕ → ℤ} (hrun : ∀ v < g.numVertex, execVertex M g prog.body v = some (amount v)) :
    ∃ counters, runOmp M g prog schedule = some counters
      ∧ ∑ thread, counters thread = ((List.range g.numVertex).map amount).sum := by
  have hcounts : (List.range g.getVnum).mapM (fun v => do
      return (schedule v, ← execVertex M g prog.body v))
      = some ((List.range g.numVertex).map fun v => (schedule v, amount v)) := by
    refine Loop.mapM_some fun v hv => ?_
    rw [hrun v (List.mem_range.mp hv)]
    rfl
  refine ⟨_, by rw [runOmp, hcounts]; rfl, ?_⟩
  rw [Loop.sum_by_worker, List.map_map]
  rfl

theorem ompTotal_eq_some {prog : OmpProgram} {amount : ℕ → ℤ}
    (hrun : ∀ v < g.numVertex, execVertex M g prog.body v = some (amount v)) :
    ompTotal M g prog = some ((List.range g.numVertex).map amount).sum := by
  rw [ompTotal, Graph.getVnum, Loop.mapM_some fun v hv => hrun v (List.mem_range.mp hv), Option.map_some]

section

variable {edge restrict : ℕ → Finset ℕ} {plan : PlanIR} (h : Planned edge restrict plan)
  (hg : g.Valid) (hcfg : cfg.pruningType = .none)

include h hg hcfg

/-- The innermost body without inclusion and exclusion adds one for every way to finish. -/
theorem lastBodyAdds_extensions :
    LastBodyAdds M plan g (plan.pSize - 2) (genCodeReadAdj plan cfg (plan.pSize - 2)
        ++ (plan.ops (plan.pSize - 2)).flatMap (opStmts plan))
      fun placed => extensions plan.adjMatType g edge restrict 1 placed := by
  intro path f placed x hlen hx hready hpos
  have hthree := h.three_le
  obtain ⟨f₁, hrun₁, hcounter₁, hready₁⟩ := execStmts_readAdj h hcfg hlen hready hx hpos
  obtain ⟨flow, f₂, hrun₂, hcounter₂⟩ :=
    execStmts_last h hg (by simp [hlen]) (show plan.pSize - 2 + 2 = plan.pSize by omega) hready₁
  exact ⟨flow, f₂, by rw [execStmts_append hrun₁, hrun₂], by rw [hcounter₂, hcounter₁]⟩

/-- The program of a plan runs and adds up the ways to place all vertices. -/
theorem genCodeOmp_run (hiep : usesIep plan cfg = false) :
    ∃ prog, genCodeOmp plan cfg = .ok prog ∧ ∀ v < g.numVertex, execVertex M g prog.body v
      = some (extensions plan.adjMatType g edge restrict (plan.pSize - 1) [v] : ℤ) := by
  have hthree := h.three_le
  have hlastBody : genLastBody plan cfg (plan.pSize - 2)
      = .ok (genCodeReadAdj plan cfg (plan.pSize - 2)
          ++ (plan.ops (plan.pSize - 2)).flatMap (opStmts plan)) := by
    rw [genLastBody, h.genOps_eq hcfg]
    simp only [hcfg, hiep, if_true, bind, Except.bind, pure, Except.pure, Bool.false_eq_true,
      if_false, List.append_nil]
  have hnothing : NothingLeft plan.adjMatType g edge restrict plan.pSize (plan.pSize - 2)
      fun placed => extensions plan.adjMatType g edge restrict 1 placed := by
    intro placed k v hlen hlow hhigh hnone
    simp only [loopTotal, extensions]
    rw [Completion.total_count]
    exact_mod_cast extensions_eq_zero (k := k + 1) hlow (by omega) hnone
  obtain ⟨block, hblock, hexec⟩ := execBlock_genNest h hg hcfg (by omega) hlastBody _
    (lastBodyAdds_extensions (M := M) h hg hcfg) hnothing (fun _ => none) (plan.pSize - 2) 0
    (by omega)
  refine ⟨{ pSize := plan.pSize, iepRedundancy := plan.iepRedundancy, body := block }, ?_, ?_⟩
  · simp only [genCodeOmp, lastDep, hiep, Bool.false_eq_true, if_false, hblock]
    rfl
  · intro v hv
    have hready : Ready plan.adjMatType g [] (plan.opsBelow 0)
        (Env.empty.set (.id 0) v) := by
      constructor <;> simp [PlanIR.opsBelow]
    obtain ⟨f', hrun, hcounter⟩ := hexec [v]
      { env := Env.empty.set (.id 0) v, state := M.empty } [] v rfl hv hready (by simp [Position])
    rw [execVertex, hrun]
    simp only [Option.bind_eq_bind, Option.bind_some, hcounter, zero_add, Option.pure_def,
      loopTotal, extensions, List.nil_append, Completion.total_count]
    rw [show plan.pSize - 2 + 1 = plan.pSize - 1 by omega]

end

/-- Placing the first vertex is the outermost loop. -/
theorem sum_extensions_eq {t : AdjMatType} {edge restrict : ℕ → Finset ℕ} (hpos : 0 < pSize) :
    ((List.range g.numVertex).map fun v => (extensions t g edge restrict (pSize - 1) [v] : ℤ)).sum
      = extensions t g edge restrict pSize [] := by
  obtain ⟨k, rfl⟩ : ∃ k, pSize = k + 1 := ⟨pSize - 1, by omega⟩
  have hall : (Finset.range g.numVertex).filter (Admissible t g edge restrict [])
      = Finset.range g.numVertex := by
    refine Finset.filter_true_of_mem fun x hx => ?_
    exact ⟨Finset.mem_range.mp hx, by simp⟩
  rw [← List.sum_toFinset _ List.nodup_range, List.toFinset_range, extensions, Completion.count,
    hall, Nat.cast_sum]
  rfl

/-- Each iteration of the program that is emitted without pruning adds the ways to place the vertices after
the first one. -/
theorem none_adds_extensions {plan : PlanIR} {prog : OmpProgram} (hsc : sc.InOrder pSize)
    (hsort : SortsOps sort (sc.edge pSize) (sc.restrict pSize) pSize)
    (hcfg : cfg.pruningType = .none) (ht : cfg.adjMatType ≠ .edgeInducedIEP)
    (hplan : createPlan sort sc cfg.adjMatType metaData = .ok plan) (hprog : genCodeOmp plan cfg = .ok prog)
    (hg : g.Valid) :
    ∀ v < g.numVertex, execVertex M g prog.body v
      = some (extensions cfg.adjMatType g (sc.edge pSize) (sc.restrict pSize) (pSize - 1) [v] : ℤ) := by
  have hplanned := planned_basePlan cfg.adjMatType metaData hsc hsort
  obtain rfl := Except.ok.inj ((createPlan_eq hsort.permutes hsc.connects ht).symm.trans hplan)
  obtain ⟨prog', hprog', hrun⟩ := genCodeOmp_run (M := M) hplanned hg hcfg (by simp [usesIep, ht])
  obtain rfl := Except.ok.inj (hprog'.symm.trans hprog)
  exact hrun

/-- The complete graph on four vertices. -/
def completeFour : Graph where
  indices := [1, 2, 3, 0, 2, 3, 0, 1, 3, 0, 1, 2]
  indptr := [0, 3, 6, 9, 12]
  offset := [0, 1, 2, 3]
  numVertex := 4
  numEdge := 12

theorem valid_completeFour : completeFour.Valid := by
  constructor <;> decide

/-- The complete graph on four vertices, each in three triangles that are counted twice. -/
def countedFour : Graph := { completeFour with maxTriangle := 6 }

theorem valid_countedFour : countedFour.Valid := by
  constructor <;> decide

/-- A triangle whose vertices are placed in decreasing order. -/
def orderedTriangle : Schedule where
  adjMat := "011101110".toList
  restrictPair := [(0, 1), (1, 2)]

theorem inOrder_orderedTriangle : orderedTriangle.InOrder 3 := by
  constructor <;> decide

end GraphMini
