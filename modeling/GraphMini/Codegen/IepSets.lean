import GraphMini.Codegen.PlanMgSpec

/-!
# The sets of the inclusion-exclusion vertices

The last vertices of the pattern are not joined, so what is known of each at `iep_depth` has an edge and
is a set of that depth. `create_plan` looks for it by the bits up to `iep_depth` of the set that the
vertex would be iterated from, and these bits are all that a set of this depth has.
-/

namespace GraphMini

open VertexSetIR

/-- `get_vec_optimize_num`, which returns -1 for an order with a vertex that is joined to none before it. -/
def getVecOptimizeNum (adjMat : List Char) (size : ℕ) (vec : List ℕ) : ℤ :=
  let adj := fun i j => adjMat.getD (vecIndex (vec.getD i 0) (vec.getD j 0) size) '0' == '1'
  let isValid := (List.range' 1 (size - 1)).all fun i => (List.range i).any fun j => adj i j
  if !isValid then -1
  else
    match (List.range' 2 (size - 1)).find? fun k =>
        (List.range' (size - k + 1) (k - 1)).any fun i => adj (size - k) i with
    | some k => k - 1
    | none => -1

/-- The vertices that are counted by inclusion and exclusion are not joined to each other. -/
def Schedule.LastApart (sc : Schedule) (pSize : ℕ) : Prop :=
  ∀ i < pSize, ∀ j < pSize, pSize ≤ i + sc.inExclusionOptimizeNum → pSize ≤ j + sc.inExclusionOptimizeNum →
    ¬ marked pSize sc.adjMat i j

instance (sc : Schedule) (pSize : ℕ) : Decidable (sc.LastApart pSize) :=
  inferInstanceAs (Decidable (∀ i < pSize, ∀ j < pSize, _ → _ → ¬ marked pSize sc.adjMat i j))

/-- `get_vec_optimize_num` goes back to the first vertex that is joined to one after it. -/
theorem lastApart_of_getVecOptimizeNum {sc : Schedule} {pSize : ℕ} (hsc : sc.Connected pSize)
    (hnum : 1 < sc.inExclusionOptimizeNum)
    (h : (sc.inExclusionOptimizeNum : ℤ) = getVecOptimizeNum sc.adjMat pSize (List.range pSize)) :
    sc.LastApart pSize := by
  have hbefore : ∀ i j, i < j → j < pSize → pSize ≤ i + sc.inExclusionOptimizeNum →
      ¬ marked pSize sc.adjMat i j := by
    intro i j hij hj hi hmark
    unfold getVecOptimizeNum at h
    simp only at h
    split at h
    · omega
    · split at h
      · rename_i k hfind
        obtain ⟨-, -, hfirst⟩ := List.find?_range'_eq_some.mp hfind
        have hnone := hfirst (pSize - i) (by omega) (by omega)
        rw [Bool.not_eq_true', List.any_eq_false] at hnone
        apply hnone j
        · rw [List.mem_range'_1]
          omega
        · have hback : pSize - (pSize - i) = i := by omega
          simp only [hback, List.getD_eq_getElem _ _ (show i < (List.range pSize).length by simp; omega),
            List.getD_eq_getElem _ _ (show j < (List.range pSize).length by simpa using hj),
            List.getElem_range]
          exact beq_iff_eq.mpr hmark
      · omega
  intro i hi j hj hi' hj' hmark
  rcases lt_trichotomy i j with hlt | rfl | hlt
  · exact hbefore i j hlt hj hi' hmark
  · exact hsc.loopless i hi hmark
  · exact hbefore j i hlt hi hj' (hsc.symm i hi j hj hmark)

/-- The plan has a set for each of the vertices after `iep_depth`, what is known of the vertex there. -/
structure PlanIR.IepSets (plan : PlanIR) (edge restrict : ℕ → Finset ℕ) : Prop where
  depth : plan.iepDepth + plan.iepNum + 1 = plan.pSize
  length : plan.iepSet.length = plan.iepNum
  mem : ∀ j < plan.iepNum, plan.iepSet.getD j {} ∈ plan.ops plan.iepDepth
  same : ∀ j < plan.iepNum, (plan.iepSet.getD j {}).same
    (cut (edge (plan.iepDepth + 1 + j)) (restrict (plan.iepDepth + 1 + j)) plan.iepDepth) = true

section

variable {t : AdjMatType} {l r u child : VertexSetIR} {edges restricts : Finset ℕ} {dep dep' : ℕ}

theorem sameIepComputation_iff (ht : t ≠ .vertexInduced) :
    l.sameIepComputation t r = true ↔ ∀ i ≤ min r.loopDepth l.loopDepth,
      (i ∈ l.edges ↔ i ∈ r.edges) ∧ (i ∈ l.restricts ↔ i ∈ r.restricts) := by
  cases t with
  | vertexInduced => exact absurd rfl ht
  | edgeInduced | edgeInducedIEP =>
      simp only [sameIepComputation, List.all_eq_true, List.mem_range, Nat.lt_succ_iff, isEdge, isRestricted,
        Bool.not_eq_true', Bool.or_eq_false_iff, bne_eq_false_iff_eq, decide_eq_decide]

/-- Against a set of a later depth a set is compared by all of its bits. -/
theorem sameIepComputation_iff_same (ht : t ≠ .vertexInduced) (hl : l.Bounded) (hdep : l.loopDepth = dep)
    (hchild : child.same (cut edges restricts dep') = true) (hle : dep ≤ dep') :
    l.sameIepComputation t child = true ↔ l.same (cut edges restricts dep) = true := by
  obtain ⟨hedges, hrestricts, hdepth⟩ := same_iff.mp hchild
  have hmin : min child.loopDepth l.loopDepth = dep := by
    rw [hdepth, hdep]
    exact min_eq_right hle
  rw [sameIepComputation_iff ht, hmin, same_iff]
  simp only [hedges, hrestricts, cut, Finset.mem_filter]
  constructor
  · intro hbits
    refine ⟨?_, ?_, hdep⟩
    · ext i
      rw [Finset.mem_filter]
      constructor
      · intro hi
        have hle' : i ≤ dep := hdep ▸ hl.edges_le i hi
        exact ⟨((hbits i hle').1.mp hi).1, hle'⟩
      · rintro ⟨hi, hle'⟩
        exact (hbits i hle').1.mpr ⟨hi, hle'.trans hle⟩
    · ext i
      rw [Finset.mem_filter]
      constructor
      · intro hi
        have hle' : i ≤ dep := hdep ▸ hl.restricts_le i hi
        exact ⟨((hbits i hle').2.mp hi).1, hle'⟩
      · rintro ⟨hi, hle'⟩
        exact (hbits i hle').2.mpr ⟨hi, hle'.trans hle⟩
  · rintro ⟨he, hr, -⟩ i hi
    rw [he, hr, Finset.mem_filter, Finset.mem_filter]
    exact ⟨⟨fun h => ⟨h.1, hi.trans hle⟩, fun h => ⟨h.1, hi⟩⟩,
      ⟨fun h => ⟨h.1, hi.trans hle⟩, fun h => ⟨h.1, hi⟩⟩⟩

/-- A set that is there is found, and only such a set. -/
theorem exists_findIepSet {ops : List VertexSetIR} (ht : t ≠ .vertexInduced)
    (hops : ∀ op ∈ ops, op.Bounded ∧ op.loopDepth = dep)
    (hchild : child.same (cut edges restricts dep') = true) (hle : dep ≤ dep') (hu : u ∈ ops)
    (hsame : u.same (cut edges restricts dep) = true) :
    ∃ vset ∈ ops, findIepSet t ops child = .ok vset ∧ vset.same (cut edges restricts dep) = true := by
  have htest : ∀ op ∈ ops, op.sameIepComputation t child = true ↔ op.same (cut edges restricts dep) = true :=
    fun op hop => sameIepComputation_iff_same ht (hops op hop).1 (hops op hop).2 hchild hle
  cases hlast : lastMatch (fun parent => parent.sameIepComputation t child) ops with
  | none =>
      rw [lastMatch_eq, List.getLast?_eq_none_iff, List.filter_eq_nil_iff] at hlast
      exact absurd ((htest u hu).mpr hsame) (hlast u hu)
  | some vset =>
      obtain ⟨hmem, hfound⟩ := lastMatch_mem hlast
      refine ⟨vset, hmem, ?_, (htest vset hmem).mp hfound⟩
      rw [findIepSet, hlast]

end

section

variable {sort : List VertexSetIR → List VertexSetIR} {sc : Schedule} {metaData : MetaData} {pSize : ℕ}
  (hsc : sc.Connected pSize) (hlast : sc.LastApart pSize)

include hsc hlast

/-- At least one vertex is outside. -/
theorem Schedule.LastApart.lt_size : sc.inExclusionOptimizeNum < pSize := by
  have hthree := hsc.three_le
  by_contra hle
  obtain ⟨j, hj, hmark⟩ := hsc.connected 1 (by omega) Nat.one_pos
  exact hlast 1 (by omega) j (by omega) (by omega) (by omega) hmark

/-- A vertex that is counted has an edge to a vertex outside. -/
theorem Schedule.LastApart.edgeNum_pos {v dep : ℕ} (hdep : dep + sc.inExclusionOptimizeNum + 1 = pSize)
    (hlow : dep < v) (hv : v < pSize) (restricts : Finset ℕ) :
    0 < (cut (sc.edge pSize v) restricts dep).edgeNum := by
  obtain ⟨j, hj, hmark⟩ := hsc.connected v hv (by omega)
  have hout : j ≤ dep := by
    by_contra hin
    exact hlast v hv j (by omega) (by omega) (by omega) hmark
  rw [edgeNum, cut, Finset.card_pos]
  refine ⟨j, Finset.mem_filter.mpr ⟨?_, hout⟩⟩
  exact mem_toEdgeIR.mpr ⟨by omega, by omega, hmark⟩

variable (metaData) in
/-- The assertion holds: `create_plan` returns a plan with a set for each vertex. -/
theorem createPlan_iepSets (hsort : PermutesOps sort (sc.edge pSize) (sc.restrict pSize) pSize)
    (hnum : 1 < sc.inExclusionOptimizeNum) :
    ∃ plan, createPlan sort sc .edgeInducedIEP metaData = .ok plan ∧
      plan.iepNum = sc.inExclusionOptimizeNum ∧ plan.IepSets (sc.edge pSize) (sc.restrictBelow pSize) := by
  set base := basePlan sort sc .edgeInducedIEP metaData pSize with hbase
  have hplanned : PlannedSets (sc.edge pSize) (sc.restrictBelow pSize) base :=
    plannedSets_basePlan .edgeInducedIEP metaData hsort hsc
  obtain ⟨hsize, hcheck, hiter⟩ := createPlan_steps .edgeInducedIEP metaData hsort hsc
  have hlt := hlast.lt_size hsc
  set dep := pSize - sc.inExclusionOptimizeNum - 1 with hdep
  have hdepth : dep + sc.inExclusionOptimizeNum + 1 = pSize := by omega
  have hops : ∀ op ∈ base.ops dep, op.Bounded ∧ op.loopDepth = dep :=
    fun op hop => ⟨hplanned.bounded hop, hplanned.loopDepth_eq hop⟩
  have hfind : ∀ j < sc.inExclusionOptimizeNum, ∃ vset ∈ base.ops dep,
      findIepSet .edgeInducedIEP (base.ops dep) (base.iter (j + dep)) = .ok vset ∧
        vset.same (cut (sc.edge pSize (dep + 1 + j)) (sc.restrictBelow pSize (dep + 1 + j)) dep) = true := by
    intro j hj
    have hv : dep + 1 + j < pSize := by omega
    have hchild := hplanned.iter_same (j + dep) (show j + dep + 1 < pSize by omega)
    rw [show j + dep + 1 = dep + 1 + j by omega] at hchild
    obtain ⟨u, hu, hsame⟩ := hplanned.ops_complete dep (dep + 1 + j) (by omega) hv
      (hlast.edgeNum_pos hsc hdepth (by omega) hv _)
    exact exists_findIepSet (by decide) hops hchild (Nat.le_add_left _ _) hu hsame
  set found : ℕ → VertexSetIR := fun j =>
    (findIepSet .edgeInducedIEP (base.ops dep) (base.iter (j + dep))).toOption.getD {} with hfound
  have hspec : ∀ j < sc.inExclusionOptimizeNum,
      findIepSet .edgeInducedIEP (base.ops dep) (base.iter (j + dep)) = .ok (found j) ∧
        found j ∈ base.ops dep ∧ (found j).same
          (cut (sc.edge pSize (dep + 1 + j)) (sc.restrictBelow pSize (dep + 1 + j)) dep) = true := by
    intro j hj
    obtain ⟨vset, hmem, heq, hsame⟩ := hfind j hj
    have hvset : found j = vset := by rw [hfound]; simp only [heq]; rfl
    exact ⟨hvset ▸ heq, hvset ▸ hmem, hvset ▸ hsame⟩
  have hmapM : (List.range sc.inExclusionOptimizeNum).mapM (fun vsetId =>
      findIepSet .edgeInducedIEP (base.setOps.getD dep []) (base.iterSet.getD (vsetId + dep) {}))
      = .ok ((List.range sc.inExclusionOptimizeNum).map found) :=
    Loop.mapM_ok fun j hj => (hspec j (List.mem_range.mp hj)).1
  have hgetD : ∀ j < sc.inExclusionOptimizeNum,
      ((List.range sc.inExclusionOptimizeNum).map found).getD j {} = found j := by
    intro j hj
    rw [List.getD_eq_getElem _ _ (by simpa using hj), List.getElem_map, List.getElem_range]
  refine ⟨{ base with
      iepNum := sc.inExclusionOptimizeNum, iepDepth := dep
      iepSet := (List.range sc.inExclusionOptimizeNum).map found
      iepGroups := sc.inExclusionOptimizeGroup, iepVals := sc.inExclusionOptimizeVal
      iepRedundancy := sc.inExclusionOptimizeRedundancy }, ?_, rfl, ?_⟩
  · unfold createPlan
    simp only [hsize, bind, Except.bind, pure, Except.pure]
    erw [hcheck, hiter]
    simp only [if_true, if_pos hnum]
    erw [hmapM]
    rfl
  · constructor
    · exact hdepth
    · simp
    · intro j hj
      rw [hgetD j hj]
      exact (hspec j hj).2.1
    · intro j hj
      rw [hgetD j hj]
      exact (hspec j hj).2.2

/-- The mini-graphs leave these sets as they are. -/
theorem iepSets_genPlan {cfg : CodeGenConfig} {plan : PlanIR} (hcfg : cfg.adjMatType = .edgeInducedIEP)
    (hsort : PermutesOps sort (sc.edge pSize) (sc.restrict pSize) pSize)
    (hnum : 1 < sc.inExclusionOptimizeNum) (hplan : genPlan sort sc cfg metaData = .ok (some plan)) :
    plan.IepSets (sc.edge pSize) (sc.restrictBelow pSize) := by
  obtain ⟨base, hbase, -, hsets⟩ := createPlan_iepSets metaData hsc hlast hsort hnum
  simp only [genPlan, hcfg, hbase, bind, Except.bind, pure, Except.pure, Except.ok.injEq] at hplan
  split at hplan
  · obtain rfl := Option.some.inj hplan
    exact hsets
  · obtain ⟨mgOps, -, rfl⟩ := createPlanMg_eq_some hplan
    exact ⟨hsets.depth, hsets.length, hsets.mem, hsets.same⟩

end

end GraphMini
