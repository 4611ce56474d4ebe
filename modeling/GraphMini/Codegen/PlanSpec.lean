import GraphMini.Codegen.PlanOps
import GraphMini.Lib.Loop

/-!
# What a plan contains

The sets of a plan are the candidate sets of the vertices still to be placed, cut to the depths
placed so far. `PlannedSets` says so for a plan, with what their ids give, and `Planned` adds what a
good order of the operations gives; `createPlan` returns such a plan for every schedule in order.
-/

namespace GraphMini

open VertexSetIR StdAlgorithm

/-- What the generators may expect of `get_schedule`: a symmetric loop-free matrix in which every
vertex but the first has an earlier neighbour, and pairs that restrict a later vertex by an earlier
one. -/
structure Schedule.InOrder (sc : Schedule) (pSize : ℕ) : Prop where
  three_le : 3 ≤ pSize
  le_maxSize : pSize ≤ 64
  length : sc.adjMat.length = pSize * pSize
  symm : ∀ i < pSize, ∀ j < pSize, marked pSize sc.adjMat i j → marked pSize sc.adjMat j i
  loopless : ∀ i < pSize, ¬ marked pSize sc.adjMat i i
  connected : ∀ i < pSize, 0 < i → ∃ j < i, marked pSize sc.adjMat i j
  restricts : ∀ pair ∈ sc.restrictPair, pair.1 < pair.2 ∧ pair.2 < pSize

/-- The part of it that is about the matrix; the pairs may be any. -/
structure Schedule.Connected (sc : Schedule) (pSize : ℕ) : Prop where
  three_le : 3 ≤ pSize
  le_maxSize : pSize ≤ 64
  length : sc.adjMat.length = pSize * pSize
  symm : ∀ i < pSize, ∀ j < pSize, marked pSize sc.adjMat i j → marked pSize sc.adjMat j i
  loopless : ∀ i < pSize, ¬ marked pSize sc.adjMat i i
  connected : ∀ i < pSize, 0 < i → ∃ j < i, marked pSize sc.adjMat i j

theorem Schedule.InOrder.connects {sc : Schedule} {pSize : ℕ} (h : sc.InOrder pSize) :
    sc.Connected pSize :=
  ⟨h.three_le, h.le_maxSize, h.length, h.symm, h.loopless, h.connected⟩

namespace Schedule

/-- The neighbours of a pattern vertex, as the planner reads them. -/
def edge (sc : Schedule) (pSize : ℕ) : ℕ → EdgeIR := toEdgeIR sc.adjMat pSize

/-- The vertices that restrict a pattern vertex. -/
def restrict (sc : Schedule) (pSize : ℕ) : ℕ → EdgeRestrictIR :=
  toRestrictIR (restrictsToStr sc.restrictPair pSize) pSize

/-- The vertices before a pattern vertex that restrict it; no set has a bit for the others. -/
def restrictBelow (sc : Schedule) (pSize v : ℕ) : EdgeRestrictIR :=
  (sc.restrict pSize v).filter (· < v)

end Schedule

/-- A plan for a pattern with `edge` and `restrict`. -/
structure PlannedSets (edge restrict : ℕ → Finset ℕ) (plan : PlanIR) : Prop where
  three_le : 3 ≤ plan.pSize
  connected : ∀ v, 0 < v → v < plan.pSize → ∃ j ∈ edge v, j < v
  restrict_lt : ∀ v < plan.pSize, ∀ i ∈ restrict v, i < v
  ops_sound : ∀ dep, ∀ op ∈ plan.ops dep, 0 < op.edgeNum ∧
    ∃ v, dep < v ∧ v < plan.pSize ∧ op.same (cut (edge v) (restrict v) dep) = true
  ops_complete : ∀ dep v, dep < v → v < plan.pSize → 0 < (cut (edge v) (restrict v) dep).edgeNum →
    ∃ op ∈ plan.ops dep, op.same (cut (edge v) (restrict v) dep) = true
  ops_last : (plan.ops (plan.pSize - 2)).length = 1
  ids_lt : ∀ dep, (plan.ops dep).Pairwise fun u v => u.id < v.id
  ids_lt_of_lt : ∀ dep dep', dep < dep' → ∀ u ∈ plan.ops dep, ∀ v ∈ plan.ops dep', u.id < v.id
  iter_mem : ∀ dep, dep + 1 < plan.pSize → plan.iter dep ∈ plan.ops dep
  iter_same : ∀ dep, dep + 1 < plan.pSize →
    (plan.iter dep).same (cut (edge (dep + 1)) (restrict (dep + 1)) dep) = true

/-- A plan in which every set comes after the one it is cut from. -/
structure Planned (edge restrict : ℕ → Finset ℕ) (plan : PlanIR) : Prop
    extends PlannedSets edge restrict plan where
  siblingFirst : ∀ dep, SiblingFirst (plan.ops dep)

/-- The plan without the parts of the inclusion-exclusion mode. -/
def basePlan (sort : List VertexSetIR → List VertexSetIR) (sc : Schedule) (t : AdjMatType)
    (metaData : MetaData) (pSize : ℕ) : PlanIR :=
  let edge := sc.edge pSize
  let restrict := sc.restrict pSize
  let setOps := planOps sort edge restrict pSize
  { adjMatType := t, pSize, metaData, setOps
    iterSet := (List.range (pSize - 1)).map fun dep =>
      ((setOps.getD dep []).find? fun op => op.same (iterCandidate edge restrict dep)).getD {} }

section

variable {sort : List VertexSetIR → List VertexSetIR} {sc : Schedule} {t : AdjMatType}
  {metaData : MetaData} {pSize : ℕ}

theorem Schedule.Connected.exists_edge_lt (hsc : sc.Connected pSize) {v : ℕ} (hpos : 0 < v)
    (hv : v < pSize) : ∃ j ∈ sc.edge pSize v, j < v := by
  obtain ⟨j, hj, hmark⟩ := hsc.connected v hv hpos
  exact ⟨j, mem_toEdgeIR.mpr ⟨hpos, hj.trans hv, hmark⟩, hj⟩

theorem Schedule.InOrder.restrict_lt (hsc : sc.InOrder pSize) {v i : ℕ} (hv : v < pSize)
    (hi : i ∈ sc.restrict pSize v) : i < v := by
  obtain ⟨-, hlt, hmark⟩ := mem_toRestrictIR.mp hi
  exact lt_of_marked hsc.restricts hv hlt hmark

/-- The set that a loop iterates over is never empty of edges. -/
theorem Schedule.Connected.iter_edgeNum (hsc : sc.Connected pSize) {dep : ℕ} (hdep : dep < pSize - 1) :
    0 < (iterCandidate (sc.edge pSize) (sc.restrict pSize) dep).edgeNum := by
  obtain ⟨j, hmem, hj⟩ := hsc.exists_edge_lt (Nat.succ_pos dep) (by omega)
  exact Finset.card_pos.mpr ⟨j, by simpa [iterCandidate, cut] using ⟨hmem, by omega⟩⟩

variable (hsort : PermutesOps sort (sc.edge pSize) (sc.restrict pSize) pSize)

include hsort

/-- Every candidate set of a depth is among its numbered sets. -/
theorem exists_mem_planOps {dep v : ℕ} (hlow : dep < v) (hhigh : v < pSize)
    (hpos : 0 < (cut (sc.edge pSize v) (sc.restrict pSize v) dep).edgeNum) :
    ∃ op ∈ (planOps sort (sc.edge pSize) (sc.restrict pSize) pSize).getD dep [],
      op.same (cut (sc.edge pSize v) (sc.restrict pSize v) dep) = true := by
  have hdep : dep < pSize - 1 := by omega
  have hraw := (mem_rawOps hdep hsort).mpr (mem_candidateOps.mpr ⟨hpos, v, hlow, hhigh, rfl⟩)
  obtain ⟨i, hi, heq⟩ := List.getElem_of_mem hraw
  rw [planOps_getD hdep]
  refine ⟨_, List.mem_mapIdx.mpr ⟨i, hi, rfl⟩, ?_⟩
  rw [heq]
  exact same_iff.mpr ⟨rfl, rfl, rfl⟩

variable (hsc : sc.Connected pSize)

include hsc

/-- The set a loop iterates over gets the id of an operation. -/
theorem find_iterCandidate {dep : ℕ} (hdep : dep < pSize - 1) :
    ∃ op ∈ (planOps sort (sc.edge pSize) (sc.restrict pSize) pSize).getD dep [],
      ((planOps sort (sc.edge pSize) (sc.restrict pSize) pSize).getD dep []).find?
          (fun op => op.same (iterCandidate (sc.edge pSize) (sc.restrict pSize) dep)) = some op
        ∧ op.same (iterCandidate (sc.edge pSize) (sc.restrict pSize) dep) = true := by
  obtain ⟨u, hu, hsame⟩ := exists_mem_planOps hsort (Nat.lt_succ_self dep) (by omega)
    (hsc.iter_edgeNum hdep)
  cases hfind : ((planOps sort (sc.edge pSize) (sc.restrict pSize) pSize).getD dep []).find?
      (fun op => op.same (iterCandidate (sc.edge pSize) (sc.restrict pSize) dep)) with
  | none => exact absurd hsame (List.find?_eq_none.mp hfind u hu)
  | some op =>
      exact ⟨op, List.mem_of_find?_eq_some hfind, rfl, by simpa using List.find?_some hfind⟩

theorem iter_basePlan {dep : ℕ} (hdep : dep < pSize - 1) :
    (basePlan sort sc t metaData pSize).iter dep ∈ (basePlan sort sc t metaData pSize).ops dep
      ∧ ((basePlan sort sc t metaData pSize).iter dep).same
          (iterCandidate (sc.edge pSize) (sc.restrict pSize) dep) = true := by
  obtain ⟨op, hmem, hfind, hsame⟩ := find_iterCandidate hsort hsc hdep
  have hiter : (basePlan sort sc t metaData pSize).iter dep = op := by
    rw [PlanIR.iter, basePlan, List.getD_eq_getElem _ _ (by simpa using hdep)]
    simp only [List.getElem_map, List.getElem_range, hfind, Option.getD_some]
  rw [hiter]
  exact ⟨hmem, hsame⟩

/-- One vertex is left for the last depth. -/
theorem length_planOps_last :
    ((planOps sort (sc.edge pSize) (sc.restrict pSize) pSize).getD (pSize - 2) []).length = 1 := by
  have hthree := hsc.three_le
  have hdep : pSize - 2 < pSize - 1 := by omega
  have hrange : List.range' (pSize - 2 + 1) (pSize - (pSize - 2 + 1)) = [pSize - 2 + 1] := by
    rw [show pSize - (pSize - 2 + 1) = 1 by omega]
    rfl
  have hcand : candidateOps (sc.edge pSize) (sc.restrict pSize) pSize (pSize - 2)
      = [iterCandidate (sc.edge pSize) (sc.restrict pSize) (pSize - 2)] := by
    rw [candidateOps, hrange, List.map_singleton, List.filter_cons_of_pos]
    · rfl
    · simpa [iterCandidate] using hsc.iter_edgeNum hdep
  have hperm := hsort _ hdep
  rw [hcand, List.perm_singleton] at hperm
  rw [planOps_getD hdep, List.length_mapIdx, rawOps, hcand, hperm]
  simp [unique]

/-- Only the restrictions by earlier vertices count. -/
theorem plannedSets_of_cut {restrict : ℕ → Finset ℕ}
    (hcut : ∀ v dep, dep < v → cut (sc.edge pSize v) (sc.restrict pSize v) dep
      = cut (sc.edge pSize v) (restrict v) dep)
    (hlt : ∀ v < pSize, ∀ i ∈ restrict v, i < v) :
    PlannedSets (sc.edge pSize) restrict (basePlan sort sc t metaData pSize) where
  three_le := hsc.three_le
  connected v hpos hv := hsc.exists_edge_lt hpos hv
  restrict_lt v hv i hi := hlt v hv i hi
  ops_sound dep op hop := by
    obtain ⟨hdep, i, hi, hsame, -⟩ := mem_planOps_getD hop
    obtain ⟨hpos, v, hlow, hhigh, heq⟩ :=
      mem_candidateOps.mp ((mem_rawOps hdep hsort).mp (List.getElem_mem hi))
    refine ⟨?_, v, hlow, hhigh, hcut v dep hlow ▸ heq ▸ hsame⟩
    rwa [edgeNum, (same_iff.mp hsame).1]
  ops_complete dep v hlow hhigh hpos := by
    rw [← hcut v dep hlow] at hpos ⊢
    exact exists_mem_planOps hsort hlow hhigh hpos
  ops_last := length_planOps_last hsort hsc
  ids_lt dep := ids_planOps_getD dep
  ids_lt_of_lt dep dep' hlt u hu v hv := by
    obtain ⟨hdep, i, hi, -, hid⟩ := mem_planOps_getD hu
    obtain ⟨hdep', j, hj, -, hid'⟩ := mem_planOps_getD hv
    have := opsBefore_add_le sort (sc.edge pSize) (sc.restrict pSize) hlt hdep'
    rw [hid, hid']
    exact_mod_cast by omega
  iter_mem dep hdep := (iter_basePlan hsort hsc (Nat.lt_sub_of_add_lt hdep)).1
  iter_same dep hdep := by
    rw [← hcut (dep + 1) dep (Nat.lt_succ_self dep)]
    exact (iter_basePlan hsort hsc (Nat.lt_sub_of_add_lt hdep)).2

variable (t metaData) in
theorem plannedSets_basePlan :
    PlannedSets (sc.edge pSize) (sc.restrictBelow pSize) (basePlan sort sc t metaData pSize) := by
  refine plannedSets_of_cut hsort hsc (fun v dep hlt => ?_) fun v _ i hi => ?_
  · have hfilter : (sc.restrict pSize v).filter (· ≤ dep)
        = (sc.restrictBelow pSize v).filter (· ≤ dep) := by
      ext i
      simp only [Schedule.restrictBelow, Finset.mem_filter]
      exact ⟨fun h => ⟨⟨h.1, by omega⟩, h.2⟩, fun h => ⟨h.1.1, h.2⟩⟩
    simp only [cut, hfilter]
  · exact (Finset.mem_filter.mp hi).2

omit hsort hsc in
variable (t metaData) in
theorem planned_basePlan (hsc : sc.InOrder pSize)
    (hsort : SortsOps sort (sc.edge pSize) (sc.restrict pSize) pSize) :
    Planned (sc.edge pSize) (sc.restrict pSize) (basePlan sort sc t metaData pSize) where
  toPlannedSets := plannedSets_of_cut hsort.permutes hsc.connects (fun _ _ _ => rfl)
    fun _ hv _ hi => hsc.restrict_lt hv hi
  siblingFirst dep := siblingFirst_planOps hsort dep

variable (t metaData) in
/-- The size of the pattern is found, and the checks on the sets to iterate over hold. -/
theorem createPlan_steps :
    getPatternSize sc.adjMat = .ok pSize ∧
    (List.range (pSize - 1)).forM (fun dep =>
      check (decide (0 < (iterCandidate (sc.edge pSize) (sc.restrict pSize) dep).edgeNum))
        "Invalid schedule: The set of vertex to iterate potentially contains all vertices in the graph")
      = .ok ⟨⟩ ∧
    (List.range (pSize - 1)).mapM (fun dep =>
      findIter ((planOps sort (sc.edge pSize) (sc.restrict pSize) pSize).getD dep [])
        (iterCandidate (sc.edge pSize) (sc.restrict pSize) dep))
      = .ok ((basePlan sort sc t metaData pSize).iterSet) := by
  refine ⟨?_, Loop.forM_ok fun dep hdep => ?_, Loop.mapM_ok fun dep hdep => ?_⟩
  · simp only [getPatternSize, hsc.length, Nat.sqrt_eq, hsc.three_le, beq_self_eq_true,
      decide_true, Bool.and_self, check, if_true]
    rfl
  · rw [check, if_pos (by simpa using hsc.iter_edgeNum (List.mem_range.mp hdep))]
  · obtain ⟨op, hmem, hfind, -⟩ := find_iterCandidate hsort hsc (List.mem_range.mp hdep)
    obtain ⟨-, i, -, -, hid⟩ := mem_planOps_getD hmem
    have hhas : op.hasId = true := by
      simp only [hasId, hid, bne_iff_ne]
      omega
    simp only [findIter, hfind, hhas, check, if_true, Option.getD_some]
    rfl

/-- Planning succeeds on every schedule in order. -/
theorem createPlan_eq (ht : t ≠ .edgeInducedIEP) :
    createPlan sort sc t metaData = .ok (basePlan sort sc t metaData pSize) := by
  obtain ⟨hsize, hcheck, hiter⟩ := createPlan_steps t metaData hsort hsc
  unfold createPlan
  simp only [hsize, bind, Except.bind, pure, Except.pure]
  erw [hcheck, hiter]
  simp only [ht, if_false]
  rfl

/-- In the inclusion-exclusion mode a plan has more fields, and the same sets. -/
theorem createPlan_ok {plan : PlanIR} (hplan : createPlan sort sc t metaData = .ok plan) :
    PlannedSets (sc.edge pSize) (sc.restrictBelow pSize) plan ∧ plan.adjMatType = t ∧
      plan.mgOps = [] ∧ plan.mgUsed = [] := by
  have h := plannedSets_basePlan t metaData hsort hsc
  by_cases ht : t = .edgeInducedIEP
  · obtain ⟨hsize, hcheck, hiter⟩ := createPlan_steps t metaData hsort hsc
    unfold createPlan at hplan
    simp only [hsize, bind, Except.bind, pure, Except.pure] at hplan
    erw [hcheck, hiter] at hplan
    simp only [ht, if_true] at hplan
    have hsets : ∃ iepNum iepDepth iepRedundancy iepVals iepGroups iepSet,
        plan = { basePlan sort sc t metaData pSize with
          iepNum, iepDepth, iepRedundancy, iepVals, iepGroups, iepSet } := by
      subst ht
      split at hplan
      · split at hplan
        · simp at hplan
        · exact ⟨_, _, _, _, _, _, (Except.ok.inj hplan).symm⟩
      · exact ⟨_, _, _, _, _, _, (Except.ok.inj hplan).symm⟩
    obtain ⟨iepNum, iepDepth, iepRedundancy, iepVals, iepGroups, iepSet, rfl⟩ := hsets
    exact ⟨⟨h.three_le, h.connected, h.restrict_lt, h.ops_sound, h.ops_complete, h.ops_last,
      h.ids_lt, h.ids_lt_of_lt, h.iter_mem, h.iter_same⟩, rfl, rfl, rfl⟩
  · rw [createPlan_eq hsort hsc ht] at hplan
    obtain rfl := Except.ok.inj hplan
    exact ⟨h, rfl, rfl, rfl⟩

end

end GraphMini
