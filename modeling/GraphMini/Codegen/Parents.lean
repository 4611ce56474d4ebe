import GraphMini.Codegen.Emission

/-!
# The parent of an operation

`get_parent_vset` searches all supersets of a set and keeps the most specific one it meets. On the
sets of a plan the search ends at the sibling without the restriction at the set's own depth, at the
prefix one depth above, or nowhere because the only edge is at the own depth. No check of the
planner or of the generators can fail then.
-/

namespace GraphMini

open VertexSetIR StdAlgorithm

/-- The operation is restricted at its own depth, and the same set without that restriction is an
operation too. -/
def HasSibling (plan : PlanIR) (dep : ℕ) (op : VertexSetIR) : Prop :=
  dep ∈ op.restricts ∧ ∃ u ∈ plan.ops dep, u.same op.unrestricted = true

/-- What `get_parent_vset` finds for an operation of depth `dep`. -/
structure FindsParent (plan : PlanIR) (dep : ℕ) (op : VertexSetIR) : Prop where
  sibling : HasSibling plan dep op →
    ∃ u ∈ plan.ops dep, u.same op.unrestricted = true ∧ plan.getParentVset op = some u
  above : ¬ HasSibling plan dep op → (∃ i ∈ op.edges, i < dep) →
    ∃ u ∈ plan.ops (dep - 1), u.same (op.prefixAt (dep - 1)) = true ∧ plan.getParentVset op = some u
  root : ¬ HasSibling plan dep op → (∀ i ∈ op.edges, ¬ i < dep) →
    plan.getParentVset op = none ∧ op.edges = {dep}

section

variable {edge restrict : ℕ → Finset ℕ} {plan : PlanIR} {dep : ℕ} {op : VertexSetIR}

theorem PlannedSets.find_sibling (h : PlannedSets edge restrict plan) (hop : op ∈ plan.ops dep)
    (hsibling : HasSibling plan dep op) :
    ∃ u ∈ plan.ops dep, u.same op.unrestricted = true ∧ plan.getParentVset op = some u := by
  obtain ⟨hres, w, hw, hsame⟩ := hsibling
  have htest : plan.isSibling w op = true := (h.isSibling_iff hop hw).mpr ⟨hres, hsame⟩
  cases hfind : (plan.ops dep).find? fun u => plan.isSibling u op with
  | none => exact absurd htest (List.find?_eq_none.mp hfind w hw)
  | some u =>
      have hu := List.mem_of_find?_eq_some hfind
      have hu' : plan.isSibling u op = true := by simpa using List.find?_some hfind
      refine ⟨u, hu, ((h.isSibling_iff hop hu).mp hu').2, ?_⟩
      rw [PlanIR.getParentVset, h.loopDepth_eq hop, hfind]

/-- Without a sibling the second search decides. -/
theorem PlannedSets.getParentVset_eq (h : PlannedSets edge restrict plan) (hop : op ∈ plan.ops dep)
    (hsibling : ¬ HasSibling plan dep op) :
    plan.getParentVset op = plan.getParentVsetAt op (dep - 1) := by
  have hfind : (plan.ops dep).find? (fun u => plan.isSibling u op) = none := by
    refine List.find?_eq_none.mpr fun u hu htest => hsibling ?_
    obtain ⟨hres, hsame⟩ := (h.isSibling_iff hop hu).mp htest
    exact ⟨hres, u, hu, hsame⟩
  rw [PlanIR.getParentVset, h.loopDepth_eq hop, hfind]

/-- An operation with no edge above its depth has its only edge there. -/
theorem PlannedSets.edges_eq (h : PlannedSets edge restrict plan) (hop : op ∈ plan.ops dep)
    (hlow : ∀ i ∈ op.edges, ¬ i < dep) : op.edges = {dep} := by
  obtain ⟨hpos, -⟩ := h.ops_sound dep op hop
  obtain ⟨i, hi⟩ := Finset.card_pos.mp hpos
  have honly : ∀ j ∈ op.edges, j = dep := by
    intro j hj
    have hle : j ≤ dep := h.loopDepth_eq hop ▸ (h.bounded hop).edges_le j hj
    exact le_antisymm hle (not_lt.mp (hlow j hj))
  exact Finset.eq_singleton_iff_unique_mem.mpr ⟨honly i hi ▸ hi, honly⟩

theorem PlannedSets.findsParent (h : PlannedSets edge restrict plan) (hop : op ∈ plan.ops dep) :
    FindsParent plan dep op where
  sibling hsibling := h.find_sibling hop hsibling
  above hsibling hedge := by
    obtain ⟨i, hi, hlt⟩ := hedge
    have hcut : i ∈ (op.prefixAt (dep - 1)).edges := mem_prefixAt_edges.mpr ⟨hi, by omega⟩
    obtain ⟨u, hu, heq, hsame⟩ :=
      h.getParentVsetAt_eq_some hop (show dep - 1 < dep by omega) ⟨i, hcut⟩
    exact ⟨u, hu, hsame, (h.getParentVset_eq hop hsibling).trans heq⟩
  root hsibling hlow := by
    have hedges := h.edges_eq hop hlow
    refine ⟨?_, hedges⟩
    rw [h.getParentVset_eq hop hsibling]
    rcases Nat.eq_zero_or_pos dep with rfl | hpos
    · rw [PlanIR.getParentVsetAt_eq, if_neg (by simp [h.loopDepth_eq hop])]
    · refine h.getParentVsetAt_eq_none (Finset.eq_empty_of_forall_notMem fun i hi => ?_)
      obtain ⟨hmem, hle⟩ := mem_prefixAt_edges.mp hi
      exact hlow i hmem (by omega)

end

/-- Every search of a plan ends where it should, and no check of the planner or of the generators
fails, whether the plan has mini-graphs or not. The sort has only to permute. -/
theorem createPlan_parents (sort : List VertexSetIR → List VertexSetIR) (sc : Schedule)
    (t : AdjMatType) (metaData : MetaData) (pSize : ℕ) (ht : t ≠ .edgeInducedIEP)
    (hsc : sc.Connected pSize) (hsort : PermutesOps sort (sc.edge pSize) (sc.restrict pSize) pSize) :
    ∃ plan, createPlan sort sc t metaData = .ok plan ∧
      (∀ dep, ∀ op ∈ plan.ops dep, FindsParent plan dep op ∧
        (∃ stmts, genCodeOp plan op = .ok stmts) ∧ ∃ stmts, genCodeMgOp plan op = .ok stmts) ∧
      ∀ cfg out, cfg.pruningType ≠ .none → createPlanMg plan cfg = some out →
        ∀ dep, ∀ op ∈ out.ops dep, FindsParent out dep op ∧
          (∃ stmts, genCodeMgOp out op = .ok stmts) ∧
          ∀ mg, out.getParentMg op = some mg → out.isLastOp op = true → out.isEntry mg op = false := by
  have hplan := plannedSets_basePlan t metaData hsort hsc
  refine ⟨_, createPlan_eq hsort hsc ht, fun dep op hop => ?_, fun cfg out hcfg hout dep op hop => ?_⟩
  · have hmgs : PlannedMgs (sc.edge pSize) (sc.restrictBelow pSize) {} (basePlan sort sc t metaData pSize) :=
      plannedMgs_of_none hplan rfl rfl
    exact ⟨hplan.findsParent hop, ⟨_, hplan.genCodeOp_eq hop⟩, ⟨_, hmgs.genCodeMgOp_eq hop⟩⟩
  · have hmgs := (plannedMgs_createPlanMg hplan hcfg hout).1
    refine ⟨hmgs.toPlannedSets.findsParent hop, ⟨_, hmgs.genCodeMgOp_eq hop⟩, fun mg hmg hlast => ?_⟩
    cases hentry : out.isEntry mg op with
    | false => rfl
    | true => rw [hmgs.isLastOp_of_isEntry hmg hentry] at hlast; simp at hlast

/-- A square whose last vertex is below the first. -/
def orderedSquare : Schedule where
  adjMat := "0110100110010110".toList
  restrictPair := [(0, 3)]

theorem connected_orderedSquare : orderedSquare.Connected 4 := by
  constructor <;> decide

/-- The parents of the sets of a square, with the sort that the library runs on short lists. -/
theorem createPlan_parents_square :
    ∃ plan, createPlan (insertionSort VertexSetIR.less) orderedSquare .vertexInduced {} = .ok plan ∧
      (∀ op ∈ plan.ops 2, FindsParent plan 2 op) ∧
      ∀ out, createPlanMg plan { pruningType := .eager } = some out →
        ∀ op ∈ out.ops 2, ∃ stmts, genCodeMgOp out op = .ok stmts := by
  obtain ⟨plan, hplan, hparents, hmgs⟩ := createPlan_parents (insertionSort VertexSetIR.less)
    orderedSquare .vertexInduced {} 4 (by decide) connected_orderedSquare
    fun _ _ => insertionSort_perm _ _
  refine ⟨plan, hplan, fun op hop => (hparents 2 op hop).1, fun out hout op hop => ?_⟩
  exact (hmgs { pruningType := .eager } out (by decide) hout 2 op hop).2.1

end GraphMini
