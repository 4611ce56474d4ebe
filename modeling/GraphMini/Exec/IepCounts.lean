import GraphMini.Codegen.IepSets
import GraphMini.Exec.LastBody
import GraphMini.Exec.NestedTotal
import GraphMini.Exec.PoolAlways
import GraphMini.Exec.PoolSafety

/-!
# The counts of the inclusion-exclusion mode in a run

When a run comes to the counts, the set of each of the last vertices holds its candidates with respect to
the vertices that have been matched, and the statements of all groups add to the counter what the values
and the groups ask for.
-/

namespace GraphMini

open VertexSetIR MgStore StdAlgorithm InclusionExclusion

section

variable (plan : PlanIR) (edge restrict : ℕ → Finset ℕ) (g : Graph)

/-- The candidates of the vertex `iep_depth + 1 + j` with respect to the matched vertices, in order. -/
def iepCandidates (placed : List ℕ) (j : ℕ) : List ℕ :=
  (List.range g.numVertex).filter fun x => decide (Candidate plan.adjMatType g
    (edge (plan.iepDepth + 1 + j)) (restrict (plan.iepDepth + 1 + j)) placed (plan.iepDepth + 1) x)

/-- What the values and the groups ask for. -/
def iepSum (placed : List ℕ) : ℤ :=
  amount (fun j => (iepCandidates plan edge restrict g placed j).toFinset) plan.iepVals plan.iepGroups

/-- The vertices that have been matched, as the variables of a frame name them. -/
def Frame.matched {M : MgMachine} (f : Frame M) (dep : ℕ) : List ℕ :=
  (List.range (dep + 1)).map fun i => (f.env (.id i)).getD 0

/-- When a run comes to the counts, all vertices up to `iep_depth` have been matched, the sets hold the
candidates, and the statements of all groups add their sum to the counter. -/
def IepCounted (layout : Layout) : StmtPred (miniGraphMachine g layout) := fun path f stmt =>
  match stmt with
  | .countIep _ _ =>
      (∀ i ≤ plan.iepDepth, (f.env (.id i)).isSome = true) ∧
        (∀ j < plan.iepNum, (f.env (.set (plan.iepVertex j).id)).map VertexSet.data
          = some (iepCandidates plan edge restrict g (f.matched plan.iepDepth) j)) ∧
        (execStmts g path ((List.range plan.iepGroups.length).map (genCodeIep plan)) f).map
            (fun r => (r.1, r.2.counter))
          = some (.next, f.counter + iepSum plan edge restrict g (f.matched plan.iepDepth))
  | _ => True

/-- The same in a run with the pool. -/
def PoolIepCounted (layout : Layout) : PoolStmtPred (miniGraphMachine g layout) := fun path f stmt =>
  match stmt with
  | .countIep _ _ =>
      (∀ i ≤ plan.iepDepth, (f.shows g (.id i)).isSome = true) ∧
        (∀ j < plan.iepNum, (f.shows g (.set (plan.iepVertex j).id)).map VertexSet.data
          = some (iepCandidates plan edge restrict g ((f.frame g).matched plan.iepDepth) j)) ∧
        (poolStmts g path ((List.range plan.iepGroups.length).map (genCodeIep plan)) f).map
            (fun r => (r.1, r.2.counter))
          = some (.next, f.counter + iepSum plan edge restrict g ((f.frame g).matched plan.iepDepth))
  | _ => True

instance (layout : Layout) (path : List ℕ) (f : PoolFrame (miniGraphMachine g layout)) :
    ∀ stmt, Decidable (PoolIepCounted plan edge restrict g layout path f stmt)
  | .countIep _ _ => instDecidableAnd
  | .declId .. | .declAdj .. | .declMgAdj .. | .declSet .. | .continueIfEmpty .. | .count .. | .declMg ..
  | .setReuseMultiplier .. | .build .. | .declIndices .. => isTrue trivial

/-- The statements of the groups count over objects what they count over values. -/
theorem lifts_iepCounted (layout : Layout) :
    Lifts g (IepCounted plan edge restrict g layout) (PoolIepCounted plan edge restrict g layout) := by
  intro path f F stmt base hf hF h _
  cases stmt with
  | countIep val factors =>
      obtain ⟨hids, hsets, hadds⟩ := h
      have henv : (f.frame g).env = F.env := hF.env.symm
      have hmatched : (f.frame g).matched plan.iepDepth = F.matched plan.iepDepth := by
        rw [Frame.matched, Frame.matched, henv]
      obtain ⟨⟨flow, F'⟩, hrun, hend⟩ := Option.map_eq_some_iff.mp hadds
      obtain ⟨rfl, hcounter⟩ := Prod.mk.inj hend
      have hintact : AlwaysStmts (Intact ⊤) g path ((List.range plan.iepGroups.length).map (genCodeIep plan)) F := by
        apply alwaysStmts_of_forall
        intro path f stmt hstmt
        obtain ⟨id, -, rfl⟩ := List.mem_map.mp hstmt
        exact intact_top.mpr rfl
      obtain ⟨f', hpool, hfollows⟩ := poolStmts_spec hf hF hintact hrun
      refine ⟨?_, ?_, ?_⟩
      · rwa [hF.env] at hids
      · rwa [hF.env, ← hmatched] at hsets
      · rw [hpool, hmatched, Option.map_some, hfollows.shows.counter, hcounter, hF.counter, add_assoc]
  | _ => trivial

end

section

variable {plan : PlanIR} {edge restrict : ℕ → Finset ℕ} {g : Graph} {placed : List ℕ}

/-- For the coefficients of inclusion and exclusion the sum is the number of ways to choose different
candidates for all of the vertices. -/
theorem iepSum_eq (hcoefficients : Coefficients plan.iepNum plan.iepVals plan.iepGroups) (placed : List ℕ) :
    iepSum plan edge restrict g placed
      = (tuples (fun j => (iepCandidates plan edge restrict g placed j).toFinset) plan.iepNum).card :=
  amount_eq hcoefficients

/-- The candidates of a vertex are what its set stands for. -/
theorem iepCandidates_eq_fitting (hsets : plan.IepSets edge restrict)
    (hdepth : ∀ j < plan.iepNum, (plan.iepVertex j).loopDepth = plan.iepDepth) {j : ℕ} (hj : j < plan.iepNum) :
    (iepCandidates plan edge restrict g placed j).toFinset
      = fitting plan.adjMatType g placed (plan.iepVertex j) := by
  obtain ⟨he, hr, -⟩ := same_iff.mp (hsets.same j hj)
  ext x
  rw [List.mem_toFinset, iepCandidates, List.mem_filter, List.mem_range, decide_eq_true_eq, mem_fitting,
    hdepth j hj, he, hr, candidate_cut le_rfl]
  exact and_iff_right_of_imp fun h => h.1

end

section

variable {edge restrict : ℕ → Finset ℕ} {cfg : CodeGenConfig} {plan : PlanIR}
  (h : PlannedMgs edge restrict cfg plan) {g : Graph} {layout : Layout}

include h

theorem iepVertex_loopDepth (hsets : plan.IepSets edge restrict) {j : ℕ} (hj : j < plan.iepNum) :
    (plan.iepVertex j).loopDepth = plan.iepDepth :=
  h.loopDepth_eq (hsets.mem j hj)

/-- The sets of the plan stand for the candidates. -/
theorem iepAmount_eq (hsets : plan.IepSets edge restrict)
    (hgroups : ∀ group ∈ plan.iepGroups, ∀ block ∈ group, block ≠ [] ∧ ∀ j ∈ block, j < plan.iepNum)
    (placed : List ℕ) :
    iepAmount plan plan.adjMatType g placed = iepSum plan edge restrict g placed := by
  apply amount_congr
  intro group hgroup block hblock
  obtain ⟨hne, hlt⟩ := hgroups group hgroup block hblock
  exact ⟨hne, fun j hj => (iepCandidates_eq_fitting hsets
    (fun _ hj => iepVertex_loopDepth h hsets hj) (hlt j hj)).symm⟩

/-- The counts find the sets of the last vertices. -/
theorem countsFind_iepCounted (hsets : plan.IepSets edge restrict) (hnum : 1 < plan.iepNum)
    (hgroups : ∀ group ∈ plan.iepGroups, ∀ block ∈ group, block ≠ [] ∧ ∀ j ∈ block, j < plan.iepNum) :
    CountsFind plan (IepCounted plan edge restrict g layout) := by
  intro placed reqs path f hlen hf hdeclared id _
  have hmax : plan.maxDep = plan.iepDepth := by
    have hdepth := hsets.depth
    rw [PlanIR.maxDep]
    omega
  rw [hmax] at hlen hdeclared
  have hmatched : f.matched plan.iepDepth = placed := by
    calc f.matched plan.iepDepth
        = (List.range placed.length).map fun i => placed.getD i 0 := by
          rw [Frame.matched, ← hlen]
          apply List.map_congr_left
          intro i hi
          rw [hf.vars.id i (List.mem_range.mp hi)]
          rfl
      _ = placed := by
          apply List.ext_getElem
          · simp
          · intro i hi hi'
            rw [List.getElem_map, List.getElem_range, List.getD_eq_getElem _ _ hi']
  have hloop : ∀ j < plan.iepNum, (plan.iepVertex j).loopDepth = plan.iepDepth :=
    fun _ hj => iepVertex_loopDepth h hsets hj
  have hatHand : ∀ j < plan.iepNum, AtHand plan.adjMatType g placed f.env (plan.iepVertex j) := by
    intro j hj
    obtain ⟨s, hs⟩ := Option.isSome_iff_exists.mp (hdeclared _ (hsets.mem j hj))
    exact ⟨s, hs, (hf.vars.set _ _ (hsets.mem j hj) s hs).2⟩
  have hcount : genCodeIep plan id = .countIep (plan.iepVals.getD id 0)
      ((plan.iepGroups.getD id []).map (iepFactor plan)) := rfl
  rw [hcount]
  simp only [IepCounted, hmatched]
  refine ⟨fun i hi => ?_, fun j hj => ?_, ?_⟩
  · rw [hf.vars.id i (by omega)]
    rfl
  · obtain ⟨s, hs, hdenotes⟩ := hatHand j hj
    have hdata : s.data = iepCandidates plan edge restrict g placed j := by
      apply SortedList.eq_of_mem_iff hdenotes.1 (SortedList.filter (List.sortedLT_range _) _)
      intro x
      rw [hdenotes.mem_iff_fitting, ← iepCandidates_eq_fitting hsets hloop hj, List.mem_toFinset]
      rfl
    rw [hs, ← hdata]
    rfl
  · have hall : ∀ i, (i = 0 ∨ ∃ group ∈ plan.iepGroups, ∃ block ∈ group, i ∈ block) →
        AtHand plan.adjMatType g placed f.env (plan.iepVertex i) := by
      rintro i (rfl | ⟨group, hgroup, block, hblock, hi⟩)
      · exact hatHand 0 (by omega)
      · exact hatHand i ((hgroups group hgroup block hblock).2 i hi)
    rw [execStmts_iep hall, iepAmount_eq h hsets hgroups]
    rfl

end

/-- Two vertices: apart, or together with the value `-1`. -/
theorem coefficients_two : Coefficients 2 [1, -1] [[[0], [1]], [[0, 1]]] := by
  have hall : ∀ P ∈ (Finset.range 2).powerset.powerset, ∅ ∉ P → (∃ B ∈ P, 0 ∈ B) → (∃ B ∈ P, 1 ∈ B) →
      (∀ B ∈ P, ∀ B' ∈ P, ∀ i ∈ B, i ∈ B' → B = B') →
      P ∈ ([[[0], [1]], [[0, 1]]] : List (List (List ℕ))).map blocks := by decide
  have hcover : ∀ group ∈ ([[[0], [1]], [[0, 1]]] : List (List (List ℕ))), ∀ i,
      (∃ B ∈ blocks group, i ∈ B) ↔ i < 2 := by
    intro group hgroup i
    rcases List.mem_pair.mp hgroup with rfl | rfl
    · simp [blocks]
      omega
    · simp [blocks]
      omega
  constructor
  · intro group hgroup
    constructor
    · rcases List.mem_pair.mp hgroup with rfl | rfl <;> decide
    · rcases List.mem_pair.mp hgroup with rfl | rfl <;> decide
    · constructor
      · rcases List.mem_pair.mp hgroup with rfl | rfl <;> decide
      · exact hcover group hgroup
      · rcases List.mem_pair.mp hgroup with rfl | rfl <;> decide
  · decide
  · intro P hP
    apply hall P _ hP.nonempty ((hP.cover 0).mpr (by norm_num)) ((hP.cover 1).mpr (by norm_num)) hP.eq_of_mem
    rw [Finset.mem_powerset]
    intro B hB
    rw [Finset.mem_powerset]
    intro i hi
    exact Finset.mem_range.mpr ((hP.cover i).mp ⟨B, hB, hi⟩)
  · decide
/-- In the inclusion-exclusion mode `create_plan` finds a set for each of the last vertices, and in every
run the sets hold the candidates and the counts add up to the sum over all groups, the number of tuples of
different candidates. -/
theorem iep_counts_hold (sort : List VertexSetIR → List VertexSetIR) (sc : Schedule) (cfg : CodeGenConfig)
    (metaData : MetaData) (pSize : ℕ) (hsc : sc.Connected pSize)
    (hsort : PermutesOps sort (sc.edge pSize) (sc.restrict pSize) pSize)
    (hcfg : cfg.adjMatType = .edgeInducedIEP) (hnum : 1 < sc.inExclusionOptimizeNum)
    (hlast : sc.LastApart pSize)
    (hgroups : ∀ group ∈ sc.inExclusionOptimizeGroup, ∀ block ∈ group,
      block ≠ [] ∧ ∀ j ∈ block, j < sc.inExclusionOptimizeNum) :
    (∃ plan, createPlan sort sc .edgeInducedIEP metaData = .ok plan ∧
        plan.iepNum = sc.inExclusionOptimizeNum ∧ plan.IepSets (sc.edge pSize) (sc.restrictBelow pSize)) ∧
      ∀ plan, genPlan sort sc cfg metaData = .ok (some plan) →
        plan.IepSets (sc.edge pSize) (sc.restrictBelow pSize) ∧
        (Coefficients plan.iepNum plan.iepVals plan.iepGroups → ∀ g placed,
          iepSum plan (sc.edge pSize) (sc.restrictBelow pSize) g placed
            = (tuples (fun j => (iepCandidates plan (sc.edge pSize) (sc.restrictBelow pSize) g placed j).toFinset)
              plan.iepNum).card) ∧
        ∀ prog, genCodeOmp plan cfg = .ok prog → prog.Closed → ∀ (g : Graph) (layout : Layout), g.Valid →
          cfg.pruningType = .none ∨ (plan.BoundedReads ∧ prog.Always (BuildFits cfg g layout) g) →
          prog.Always (Lasting (M := miniGraphMachine g layout)) g →
          prog.Always (WithinBuffers (M := miniGraphMachine g layout) g) g →
          ∀ {threads : ℕ} (share : Fin threads → List ℕ), SharesOut share g.numVertex →
          ∃ f, IntactRun (miniGraphMachine g layout) g prog share f ∧ ∀ thread, prog.PoolAlways
            (PoolIepCounted plan (sc.edge pSize) (sc.restrictBelow pSize) g layout) g (share thread) := by
  refine ⟨createPlan_iepSets metaData hsc hlast hsort hnum, fun plan hplan => ?_⟩
  have hsets := iepSets_genPlan hsc hlast hcfg hsort hnum hplan
  refine ⟨hsets, fun hcoefficients g placed => iepSum_eq hcoefficients placed, ?_⟩
  intro prog hprog hclosed g layout hg hwhen hlasting hroom threads share hshare
  obtain ⟨h, -⟩ := plannedMgs_genPlan hsc hsort hplan
  have hfields := hasIepFields_genPlan hsc hsort hplan
  rw [h.genCodeOmp_eq] at hprog
  obtain rfl := Except.ok.inj hprog
  have hnum' : 1 < plan.iepNum := by rwa [hfields.num hcfg]
  have hgroups' : ∀ group ∈ plan.iepGroups, ∀ block ∈ group, block ≠ [] ∧ ∀ j ∈ block, j < plan.iepNum := by
    rw [hfields.groups hcfg, hfields.num hcfg]
    exact hgroups
  have hfind : CountsFind plan (IepCounted plan (sc.edge pSize) (sc.restrictBelow pSize) g layout) :=
    countsFind_iepCounted h hsets hnum' hgroups'
  have hguarantee : AsksOnCounts (IepCounted plan (sc.edge pSize) (sc.restrictBelow pSize) g layout) := by
    intro path f stmt hstmt _
    cases stmt with
    | countIep val factors => exact absurd rfl (hstmt val factors)
    | _ => trivial
  have hreads : plan.BoundedReads := hwhen.elim (boundedReads_of_none h) And.left
  have hruns : ∀ v < g.numVertex, _ := fun v hv =>
    runs_start h hfields hg hreads hguarantee (fun _ => hfind) _ hclosed hv (hwhen.elim
      (fun hnone => buildFits_of_none h hnone _ _ _ _) fun hpruned => hpruned.2 v hv)
  exact exists_intactRun_always (lifts_iepCounted _ _ _ g layout) hshare
    (fun v hv => (hruns v hv).2.imp fun F hF => hF.1) hlasting hroom fun v hv => (hruns v hv).1

/-- A vertex with two neighbours that are counted by inclusion and exclusion. -/
def iepFork : Schedule where
  adjMat := "011100100".toList
  restrictPair := [(0, 1)]
  inExclusionOptimizeNum := 2
  inExclusionOptimizeGroup := [[[0], [1]], [[0, 1]]]
  inExclusionOptimizeVal := [1, -1]
  inExclusionOptimizeRedundancy := 1

theorem connected_iepFork : iepFork.Connected 3 := by
  constructor <;> decide

def iepForkProgram : Compiled iepFork { adjMatType := .edgeInducedIEP } :=
  (compile iepFork { adjMatType := .edgeInducedIEP }).get (by decide +kernel)

theorem iep_counts_hold_fork : ∃ plan prog f,
    genPlan (insertionSort VertexSetIR.less) iepFork { adjMatType := .edgeInducedIEP } {} = .ok (some plan) ∧
    genCodeOmp plan { adjMatType := .edgeInducedIEP } = .ok prog ∧
    plan.IepSets (iepFork.edge 3) (iepFork.restrictBelow 3) ∧
    IntactRun (miniGraphMachine countedFour exactLayout) countedFour prog ![[3, 0], [1, 2]] f ∧
    (∀ thread, prog.PoolAlways (PoolIepCounted plan (iepFork.edge 3) (iepFork.restrictBelow 3) countedFour
      exactLayout) countedFour (![[3, 0], [1, 2]] thread)) ∧
    iepSum plan (iepFork.edge 3) (iepFork.restrictBelow 3) countedFour [3]
      = (tuples (fun j => (iepCandidates plan (iepFork.edge 3) (iepFork.restrictBelow 3) countedFour
          [3] j).toFinset) plan.iepNum).card := by
  have hvals : iepForkProgram.plan.iepNum = 2 ∧ iepForkProgram.plan.iepVals = [1, -1] ∧
      iepForkProgram.plan.iepGroups = [[[0], [1]], [[0, 1]]] := by decide +kernel
  obtain ⟨hnum, hvals, hgroups⟩ := hvals
  have hlasting : iepForkProgram.prog.Always (Lasting (M := miniGraphMachine countedFour exactLayout))
      countedFour := by decide +kernel
  have hroom : iepForkProgram.prog.Always (WithinBuffers (M := miniGraphMachine countedFour exactLayout) countedFour)
      countedFour := by decide +kernel
  obtain ⟨-, hall⟩ := iep_counts_hold (insertionSort VertexSetIR.less) iepFork
    { adjMatType := .edgeInducedIEP } {} 3 connected_iepFork (fun _ _ => insertionSort_perm _ _) rfl
    (by decide) (by decide) (by decide)
  obtain ⟨hsets, hsum, hruns⟩ := hall _ iepForkProgram.planned
  obtain ⟨f, hrun, hcounted⟩ := hruns _ iepForkProgram.emitted iepForkProgram.closed countedFour exactLayout
    valid_countedFour (Or.inl rfl) hlasting hroom ![[3, 0], [1, 2]] (by decide)
  refine ⟨iepForkProgram.plan, iepForkProgram.prog, f, iepForkProgram.planned, iepForkProgram.emitted, hsets,
    hrun, hcounted, ?_⟩
  apply hsum
  rw [hnum, hvals, hgroups]
  exact coefficients_two

/-- Five vertices of which the last two are not joined. -/
def iepFive : Schedule where
  adjMat := "0111110110110111110010100".toList
  restrictPair := [(2, 4), (1, 4), (1, 3), (0, 1)]
  inExclusionOptimizeNum := 2
  inExclusionOptimizeGroup := [[[0], [1]], [[0, 1]]]
  inExclusionOptimizeVal := [1, -1]
  inExclusionOptimizeRedundancy := 1

theorem connected_iepFive : iepFive.Connected 5 := by
  constructor <;> decide

/-- Six vertices, all joined but for one pair. -/
def nearlyComplete : Graph where
  indices := [1, 2, 4, 5, 0, 2, 3, 4, 5, 0, 1, 3, 4, 5, 1, 2, 4, 5, 0, 1, 2, 3, 5, 0, 1, 2, 3, 4]
  indptr := [0, 4, 9, 14, 18, 23, 28]
  offset := [0, 1, 2, 2, 4, 5]
  numVertex := 6
  numEdge := 28
  maxTriangle := 18

theorem valid_nearlyComplete : nearlyComplete.Valid := by
  constructor <;> decide

def iepFiveProgram : Compiled iepFive { adjMatType := .edgeInducedIEP, pruningType := .eager } :=
  (compile iepFive { adjMatType := .edgeInducedIEP, pruningType := .eager }).get (by decide +kernel)

/-- A list that has been cut below its vertex is read for the set of a vertex that may lie above it. -/
theorem iep_set_lacks_candidates :
    ¬ ∀ (sc : Schedule) (cfg : CodeGenConfig) (metaData : MetaData) (pSize : ℕ) (plan : PlanIR)
      (prog : OmpProgram) (g : Graph) (layout : Layout), sc.Connected pSize →
      cfg.adjMatType = .edgeInducedIEP → 1 < sc.inExclusionOptimizeNum → sc.LastApart pSize →
      (∀ group ∈ sc.inExclusionOptimizeGroup, ∀ block ∈ group,
        block ≠ [] ∧ ∀ j ∈ block, j < sc.inExclusionOptimizeNum) →
      genPlan (insertionSort VertexSetIR.less) sc cfg metaData = .ok (some plan) →
      genCodeOmp plan cfg = .ok prog → prog.Closed → g.Valid → prog.Always (BuildFits cfg g layout) g →
      prog.Always (Lasting (M := miniGraphMachine g layout)) g →
      prog.Always (WithinBuffers (M := miniGraphMachine g layout) g) g →
      ∀ vs : List ℕ, (∀ v ∈ vs, v < g.numVertex) → prog.PoolAlways
        (PoolIepCounted plan (sc.edge pSize) (sc.restrictBelow pSize) g layout) g vs := by
  intro hall
  have hfits : iepFiveProgram.prog.Always (BuildFits
      { adjMatType := .edgeInducedIEP, pruningType := .eager } nearlyComplete exactLayout) nearlyComplete := by
    decide +kernel
  have hlasting : iepFiveProgram.prog.Always (Lasting (M := miniGraphMachine nearlyComplete exactLayout))
      nearlyComplete := by decide +kernel
  have hroom : iepFiveProgram.prog.Always
      (WithinBuffers (M := miniGraphMachine nearlyComplete exactLayout) nearlyComplete) nearlyComplete := by
    decide +kernel
  have hlacks : ¬ iepFiveProgram.prog.body.PoolAlways (PoolIepCounted iepFiveProgram.plan (iepFive.edge 5)
      (iepFive.restrictBelow 5) nearlyComplete exactLayout) nearlyComplete [5] ((PoolFrame.start _).enter 5) := by
    decide +kernel
  have hcounted := hall iepFive { adjMatType := .edgeInducedIEP, pruningType := .eager } {} 5 iepFiveProgram.plan
    iepFiveProgram.prog nearlyComplete exactLayout connected_iepFive rfl (by decide) (by decide) (by decide)
    iepFiveProgram.planned iepFiveProgram.emitted iepFiveProgram.closed valid_nearlyComplete hfits hlasting hroom
    [5] (by decide)
  exact hlacks (hcounted [] 5 [] rfl _ rfl)

end GraphMini
