import GraphMini.Exec.IepTotal
import GraphMini.Exec.Pruning
import GraphMini.Exec.Result
import GraphMini.Spec.PatternGraph

/-!
# The results of the inclusion-exclusion mode and of plain counting

`Context::get_result` divides the sum of the counters by the redundancy of the plan. A run of the
inclusion-exclusion mode counts the maps of the pattern under the restrictions that its sets keep, plain
counting the embeddings. The results are the same for every data graph if the pairs are balanced, and not
for copies of the pattern itself if they are not.
-/

namespace GraphMini

open VertexSetIR MgStore StdAlgorithm InclusionExclusion SymmetryBreaking

/-- Both programs finish with the same result, whichever thread runs which iteration of either. -/
def SameResult (g : Graph) (layout : Layout) (prog baseProg : OmpProgram) : Prop :=
  ∀ (threads baseThreads : ℕ) (schedule : ℕ → Fin threads) (baseSchedule : ℕ → Fin baseThreads),
    ∃ counters baseCounters,
      runOmp (miniGraphMachine g layout) g prog schedule = some counters ∧
      runOmp (miniGraphMachine g layout) g baseProg baseSchedule = some baseCounters ∧
      getResult prog.iepRedundancy counters = getResult baseProg.iepRedundancy baseCounters

/-- What a program with pruning reads fits. -/
def ReadsFit (cfg : CodeGenConfig) (plan : PlanIR) (prog : OmpProgram) (g : Graph) (layout : Layout) : Prop :=
  cfg.pruningType = .none ∨ (plan.BoundedReads ∧ prog.Always (BuildFits cfg g layout) g)

/-- The sums of the counters of both modes fit in a `long long`, and the redundancy in an `int`. -/
def Schedule.CountsFit (sc : Schedule) (pSize : ℕ) (g : Graph) : Prop :=
  ((maps .edgeInduced g pSize sc).filter (Obeys (sc.KeptPair pSize))).card < 2 ^ 63
    ∧ (embeddings .edgeInduced g pSize sc).card < 2 ^ 63 ∧ sc.redundancy pSize < 2 ^ 31

section

variable {sort : List VertexSetIR → List VertexSetIR} {sc : Schedule} {cfg : CodeGenConfig}
  {metaData : MetaData} {pSize : ℕ} {plan : PlanIR} {prog : OmpProgram} {g : Graph} {layout : Layout}

/-- Orderings are permutations, so the redundancy is at most their number. -/
theorem redundancy_le : sc.redundancy pSize ≤ pSize.factorial := by
  simp only [Schedule.redundancy]
  split_ifs
  · exact (Nat.div_le_self _ _).trans (card_orderings_le _)
  · exact Nat.factorial_pos pSize

/-- Copies of a pattern with at most twelve vertices are counted within the range of a `long long`. -/
theorem countsFit_patternCopies (hsc : sc.Connected pSize) (hsize : pSize ≤ 12) (σ : Equiv.Perm (Fin pSize)) :
    sc.CountsFit pSize (patternCopies sc pSize σ (sc.redundancy pSize)) := by
  have hmax : pSize.factorial ≤ Nat.factorial 12 := Nat.factorial_le hsize
  refine ⟨card_maps_patternCopies_lt hsc hsize redundancy_le, ?_, (redundancy_le.trans hmax).trans_lt (by decide)⟩
  rw [card_embeddings_eq]
  exact card_maps_patternCopies_lt hsc hsize redundancy_le

/-- Without pruning nothing has to fit. -/
theorem ReadsFit.reads {edge restrict : ℕ → Finset ℕ} (hfit : ReadsFit cfg plan prog g layout)
    (h : PlannedMgs edge restrict cfg plan) (hprog : genCodeOmp plan cfg = .ok prog) :
    plan.BoundedReads ∧ prog.Always (BuildFits cfg g layout) g := by
  rcases hfit with hnone | hfit
  · rw [h.genCodeOmp_eq] at hprog
    obtain rfl := Except.ok.inj hprog
    exact ⟨boundedReads_of_none h hnone, fun v _ => buildFits_of_none h hnone _ _ _ _⟩
  · exact hfit

/-- What a program divides by is written into it in the inclusion-exclusion mode only. -/
theorem iepRedundancy_genCodeOmp (hsc : sc.Connected pSize)
    (hsort : PermutesOps sort (sc.edge pSize) (sc.restrict pSize) pSize)
    (hplan : genPlan sort sc cfg metaData = .ok (some plan)) (hprog : genCodeOmp plan cfg = .ok prog) :
    prog.iepRedundancy
      = if cfg.adjMatType = .edgeInducedIEP then sc.inExclusionOptimizeRedundancy else 0 := by
  obtain ⟨h, -⟩ := plannedMgs_genPlan hsc hsort hplan
  rw [h.genCodeOmp_eq] at hprog
  obtain rfl := Except.ok.inj hprog
  obtain ⟨-, hplain, hiep⟩ := header_genPlan hsc hsort hplan
  split_ifs with ht
  · exact (hiep ht).1
  · exact hplain ht

theorem restrictBelow_eq (hsc : sc.InOrder pSize) {v : ℕ} (hv : v < pSize) :
    sc.restrictBelow pSize v = sc.restrict pSize v :=
  Finset.filter_true_of_mem fun _ hi => hsc.restrict_lt hv hi

/-- The edge-induced modes look for the same maps. -/
theorem maps_eq (ht : cfg.adjMatType ≠ .vertexInduced) :
    maps cfg.adjMatType g pSize sc = maps .edgeInduced g pSize sc := by
  ext f
  rw [mem_maps, mem_maps]
  apply and_congr_right
  intro _
  constructor
  · intro h
    exact ⟨h.injective, h.edge, fun hv => absurd hv (by decide)⟩
  · intro h
    exact ⟨h.injective, h.edge, fun hv => absurd hv ht⟩

variable (hsc : sc.InOrder pSize) (hsort : PermutesOps sort (sc.edge pSize) (sc.restrict pSize) pSize)
  (hplan : genPlan sort sc cfg metaData = .ok (some plan)) (hprog : genCodeOmp plan cfg = .ok prog)
  (hclosed : prog.Closed) (hg : g.Valid) (hfit : ReadsFit cfg plan prog g layout)

include hsc hsort hplan hprog hclosed hg hfit

/-- Plain counting adds up the embeddings. -/
theorem runOmp_embeddings (ht : cfg.adjMatType = .edgeInduced) {threads : ℕ} (schedule : ℕ → Fin threads) :
    ∃ counters, runOmp (miniGraphMachine g layout) g prog schedule = some counters ∧
      ∑ thread, counters thread = (embeddings .edgeInduced g pSize sc).card := by
  obtain ⟨h, htype⟩ := plannedMgs_genPlan hsc.connects hsort hplan
  have hfields := hasIepFields_genPlan hsc.connects hsort hplan
  obtain ⟨hsize, -, -⟩ := header_genPlan hsc.connects hsort hplan
  obtain ⟨hreads, hfits⟩ := hfit.reads h hprog
  have hiep : cfg.adjMatType ≠ .edgeInducedIEP := by
    rw [ht]
    decide
  obtain ⟨counters, hcounters, hsum⟩ := runOmp_sum schedule
    fun v hv => execVertex_eq h hfields hiep hg hreads hprog hclosed hfits hv
  refine ⟨counters, hcounters, ?_⟩
  have hbelow : ∀ v < pSize, ∀ i ∈ sc.restrictBelow pSize v, i < v :=
    fun v _ i hi => (Finset.mem_filter.mp hi).2
  have hpos : 0 < pSize := lt_of_lt_of_le (by norm_num) hsc.three_le
  rw [hsum, hsize, sum_extensions_eq hpos, htype, ht, ← card_maps hsc.connects hg hbelow, card_embeddings_eq]
  congr 2
  apply Finset.filter_congr
  intro f _
  rw [← obeys_restrict_iff hsc]
  apply obeys_congr
  intro a b
  rw [restrictBelow_eq hsc b.isLt]

/-- The inclusion-exclusion mode adds up the maps under the restrictions that its sets keep. -/
theorem runOmp_kept (ht : cfg.adjMatType = .edgeInducedIEP) (hnum : 1 < sc.inExclusionOptimizeNum)
    (hlast : sc.LastApart pSize) (hcoefficients : Coefficients sc.inExclusionOptimizeNum
      sc.inExclusionOptimizeVal sc.inExclusionOptimizeGroup) {threads : ℕ} (schedule : ℕ → Fin threads) :
    ∃ counters, runOmp (miniGraphMachine g layout) g prog schedule = some counters ∧
      ∑ thread, counters thread
        = ((maps .edgeInduced g pSize sc).filter (Obeys (sc.KeptPair pSize))).card := by
  obtain ⟨h, htype⟩ := plannedMgs_genPlan hsc.connects hsort hplan
  have hfields := hasIepFields_genPlan hsc.connects hsort hplan
  have hsets := iepSets_genPlan hsc.connects hlast ht hsort hnum hplan
  obtain ⟨hsize, -, hvals⟩ := header_genPlan hsc.connects hsort hplan
  obtain ⟨hreads, hfits⟩ := hfit.reads h hprog
  have hnum' : 1 < plan.iepNum := by rwa [hfields.num ht]
  have hcoefficients' : Coefficients plan.iepNum plan.iepVals plan.iepGroups := by
    rwa [hfields.num ht, (hvals ht).2, hfields.groups ht]
  have huses : usesIep plan cfg = true := by simp [usesIep, ht, hnum']
  have hinduced : plan.adjMatType ≠ .vertexInduced := by
    rw [htype, ht]
    decide
  have hdepth := hsets.depth
  have hedge : ∀ j < plan.iepNum, ∀ i ∈ sc.edge pSize (plan.iepDepth + 1 + j), i ≤ plan.iepDepth := by
    intro j hj i hi
    obtain ⟨-, hlt, hmark⟩ := mem_toEdgeIR.mp hi
    by_contra hlater
    rw [hfields.num ht] at hj hdepth
    exact hlast _ (by omega) i hlt (by omega) (by omega) hmark
  obtain ⟨counters, hcounters, hsum⟩ := runOmp_sum schedule fun v hv => execVertex_iep h hsets hnum'
    hcoefficients' huses hinduced hedge hfields hg hreads hprog hclosed hfits hv
  refine ⟨counters, hcounters, ?_⟩
  have hbelow : ∀ v < pSize, ∀ i ∈ restrictUpTo (sc.restrictBelow pSize) plan.iepDepth v, i < v :=
    fun v _ i hi => (Finset.mem_filter.mp (mem_restrictUpTo.mp hi).1).2
  have hpos : 0 < pSize := lt_of_lt_of_le (by norm_num) hsc.three_le
  have hinduced' : cfg.adjMatType ≠ .vertexInduced := htype ▸ hinduced
  rw [hsum, hsize, sum_extensions_eq hpos, htype, ← card_maps hsc.connects hg hbelow, maps_eq hinduced']
  congr 2
  apply Finset.filter_congr
  intro f _
  apply obeys_congr
  intro a b
  rw [mem_restrictUpTo, restrictBelow_eq hsc b.isLt, Schedule.KeptPair]
  have hiff : a.val ≤ plan.iepDepth ↔ a.val + sc.inExclusionOptimizeNum < pSize := by
    rw [hfields.num ht] at hdepth
    omega
  rw [hiff]

end

/-- The modes have the same result where the pairs are balanced, the sums of the counters fit in their type
and the pruned programs read what fits; and without pruning they have the same result for all data graphs
with such sums only if the pairs are balanced, provided that as many copies of the pattern as the redundancy
says are not too large for a data graph. -/
theorem iep_result (sort : List VertexSetIR → List VertexSetIR) (sc : Schedule) (cfg : CodeGenConfig)
    (metaData : MetaData) (pSize : ℕ) (hsc : sc.InOrder pSize)
    (hsort : PermutesOps sort (sc.edge pSize) (sc.restrict pSize) pSize)
    (hlast : (sc.inExclusionOptimizeNum : ℤ) = getVecOptimizeNum sc.adjMat pSize (List.range pSize))
    (hnum : 1 < sc.inExclusionOptimizeNum) (hcoefficients : Coefficients sc.inExclusionOptimizeNum
      sc.inExclusionOptimizeVal sc.inExclusionOptimizeGroup)
    (hredundancy : sc.inExclusionOptimizeRedundancy = sc.redundancy pSize) (hrep : sc.OneRepresentative pSize)
    (plan base : PlanIR)
    (hplan : genPlan sort sc { cfg with adjMatType := .edgeInducedIEP } metaData = .ok (some plan))
    (hbase : genPlan sort sc { cfg with adjMatType := .edgeInduced } metaData = .ok (some base))
    (prog baseProg : OmpProgram) (hprog : genCodeOmp plan { cfg with adjMatType := .edgeInducedIEP } = .ok prog)
    (hbaseProg : genCodeOmp base { cfg with adjMatType := .edgeInduced } = .ok baseProg)
    (hclosed : prog.Closed) (hbaseClosed : baseProg.Closed) :
    (sc.Balanced pSize → ∀ (g : Graph) (layout : Layout), g.Valid → sc.CountsFit pSize g →
        ReadsFit { cfg with adjMatType := .edgeInducedIEP } plan prog g layout →
        ReadsFit { cfg with adjMatType := .edgeInduced } base baseProg g layout →
        SameResult g layout prog baseProg) ∧
      (sc.redundancy pSize * pSize < invalidId → pSize ≤ 12 → cfg.pruningType = .none →
        (∀ (g : Graph) (layout : Layout), g.Valid → sc.CountsFit pSize g → SameResult g layout prog baseProg) →
        sc.Balanced pSize) := by
  have hlast' := lastApart_of_getVecOptimizeNum hsc.connects hnum hlast
  have hpos : 0 < sc.redundancy pSize := redundancy_pos hrep
  have hdivisor : prog.iepRedundancy = sc.redundancy pSize := by
    rw [iepRedundancy_genCodeOmp hsc.connects hsort hplan hprog, if_pos rfl, hredundancy]
  have hone : baseProg.iepRedundancy = 0 := by
    have hne : AdjMatType.edgeInduced ≠ .edgeInducedIEP := by decide
    rw [iepRedundancy_genCodeOmp hsc.connects hsort hbase hbaseProg, if_neg hne]
  have hresult : ∀ {threads : ℕ} {counters : Fin threads → ℤ} {n : ℕ}, ∑ thread, counters thread = n →
      n < 2 ^ 63 → sc.redundancy pSize < 2 ^ 31 →
      getResult prog.iepRedundancy counters = ((n / sc.redundancy pSize : ℕ) : ℤ) := by
    intro threads counters n hsum hn hint
    rw [hdivisor, getResult_of_fits hsum hn hint, max_eq_right hpos]
  have hbaseResult : ∀ {threads : ℕ} {counters : Fin threads → ℤ} {n : ℕ}, ∑ thread, counters thread = n →
      n < 2 ^ 63 → getResult baseProg.iepRedundancy counters = n := by
    intro threads counters n hsum hn
    rw [hone, getResult_zero_eq_iff hsum]
    exact hn
  constructor
  · intro hbalanced g layout hg hcounts hfit hbaseFit threads baseThreads schedule baseSchedule
    obtain ⟨hkept, hembeddings, hint⟩ := hcounts
    obtain ⟨counters, hrun, hsum⟩ :=
      runOmp_kept hsc hsort hplan hprog hclosed hg hfit rfl hnum hlast' hcoefficients schedule
    obtain ⟨baseCounters, hbaseRun, hbaseSum⟩ :=
      runOmp_embeddings hsc hsort hbase hbaseProg hbaseClosed hg hbaseFit rfl baseSchedule
    refine ⟨counters, baseCounters, hrun, hbaseRun, ?_⟩
    rw [hresult hsum hkept hint, hbaseResult hbaseSum hembeddings, card_kept_eq_mul hrep hbalanced,
      Nat.mul_div_cancel_left _ hpos]
  · intro hcopies hsize hnone hsame σ _
    -- as many copies as the redundancy says have as many embeddings
    set g := patternCopies sc pSize σ (sc.redundancy pSize) with hcopy
    have hg : g.Valid := valid_patternCopies hsc.connects hcopies
    have hcounts : sc.CountsFit pSize g := countsFit_patternCopies hsc.connects hsize σ
    have hfit : ReadsFit { cfg with adjMatType := .edgeInducedIEP } plan prog g exactLayout := Or.inl hnone
    have hbaseFit : ReadsFit { cfg with adjMatType := .edgeInduced } base baseProg g exactLayout := Or.inl hnone
    obtain ⟨counters, baseCounters, hrun, hbaseRun, heq⟩ :=
      hsame g exactLayout hg hcounts 1 1 (fun _ => 0) (fun _ => 0)
    obtain ⟨hkept, hembeddings, hint⟩ := hcounts
    obtain ⟨counters', hrun', hsum⟩ := runOmp_kept hsc hsort hplan hprog hclosed hg hfit rfl hnum hlast'
      hcoefficients (fun _ => (0 : Fin 1))
    obtain ⟨baseCounters', hbaseRun', hbaseSum⟩ := runOmp_embeddings hsc hsort hbase hbaseProg hbaseClosed hg
      hbaseFit rfl (fun _ => (0 : Fin 1))
    obtain rfl := Option.some.inj (hrun.symm.trans hrun')
    obtain rfl := Option.some.inj (hbaseRun.symm.trans hbaseRun')
    rw [hresult hsum hkept hint, hbaseResult hbaseSum hembeddings] at heq
    have hone : (embeddings .edgeInduced g pSize sc).card = sc.redundancy pSize := by
      rw [card_embeddings_eq, hcopy, card_maps_patternCopies hsc.connects]
      exact (congrArg _ (picks_iff_card.mp (hrep σ))).trans (mul_one _)
    rw [hone, hcopy, card_maps_patternCopies hsc.connects, Nat.mul_div_cancel_left _ hpos] at heq
    exact_mod_cast heq

/-- A vertex with two neighbours, the first of which has the larger value. -/
def orderedFork : Schedule where
  adjMat := "011100100".toList
  restrictPair := [(1, 2)]
  inExclusionOptimizeNum := 2
  inExclusionOptimizeGroup := [[[0], [1]], [[0, 1]]]
  inExclusionOptimizeVal := [1, -1]
  inExclusionOptimizeRedundancy := 2

theorem inOrder_orderedFork : orderedFork.InOrder 3 := by
  constructor <;> decide

def forkProgram : Compiled orderedFork { adjMatType := .edgeInducedIEP } :=
  (compile orderedFork { adjMatType := .edgeInducedIEP }).get (by decide +kernel)

def plainFork : Compiled orderedFork { adjMatType := .edgeInduced } :=
  (compile orderedFork { adjMatType := .edgeInduced }).get (by decide +kernel)

/-- The pair is dropped in the inclusion-exclusion mode, which divides by two. -/
theorem iep_result_fork : ∃ plan base prog baseProg,
    genPlan (insertionSort VertexSetIR.less) orderedFork { adjMatType := .edgeInducedIEP } {}
      = .ok (some plan) ∧
    genPlan (insertionSort VertexSetIR.less) orderedFork { adjMatType := .edgeInduced } {}
      = .ok (some base) ∧
    genCodeOmp plan { adjMatType := .edgeInducedIEP } = .ok prog ∧
    genCodeOmp base { adjMatType := .edgeInduced } = .ok baseProg ∧
    (∀ (g : Graph) (layout : Layout), g.Valid → orderedFork.CountsFit 3 g →
      SameResult g layout prog baseProg) ∧
    orderedFork.Balanced 3 := by
  obtain ⟨hsame, hbalanced⟩ := iep_result (insertionSort VertexSetIR.less) orderedFork {} {} 3
    inOrder_orderedFork (fun _ _ => insertionSort_perm _ _) (by decide +kernel) (by decide) coefficients_two
    (by decide +kernel) (by decide +kernel) _ _ forkProgram.planned plainFork.planned _ _ forkProgram.emitted
    plainFork.emitted forkProgram.closed plainFork.closed
  have hall : ∀ (g : Graph) (layout : Layout), g.Valid → orderedFork.CountsFit 3 g →
      SameResult g layout forkProgram.prog plainFork.prog :=
    fun g layout hg hcounts => hsame (by decide +kernel) g layout hg hcounts (Or.inl rfl) (Or.inl rfl)
  exact ⟨forkProgram.plan, plainFork.plan, forkProgram.prog, plainFork.prog, forkProgram.planned,
    plainFork.planned, forkProgram.emitted, plainFork.emitted, hall,
      hbalanced (by decide +kernel) (by norm_num) rfl hall⟩

/-- Two vertices that are not joined, each joined to three others, of which two are placed last. -/
def twoByThree : Schedule where
  adjMat := "0101110100010111010010100".toList
  restrictPair := [(0, 2), (1, 3), (1, 4), (3, 4)]
  inExclusionOptimizeNum := 2
  inExclusionOptimizeGroup := [[[0], [1]], [[0, 1]]]
  inExclusionOptimizeVal := [1, -1]
  inExclusionOptimizeRedundancy := 3

theorem inOrder_twoByThree : twoByThree.InOrder 5 := by
  constructor <;> decide

/-- The pattern as a data graph. -/
def twoByThreeGraph : Graph where
  indices := [1, 3, 4, 0, 2, 1, 3, 4, 0, 2, 0, 2]
  indptr := [0, 3, 5, 8, 10, 12]
  offset := [0, 1, 1, 2, 2]
  numVertex := 5
  numEdge := 12

theorem valid_twoByThreeGraph : twoByThreeGraph.Valid := by
  constructor <;> decide

def twoByThreeProgram : Compiled twoByThree { adjMatType := .edgeInducedIEP } :=
  (compile twoByThree { adjMatType := .edgeInducedIEP }).get (by decide +kernel)

def plainTwoByThree : Compiled twoByThree { adjMatType := .edgeInduced } :=
  (compile twoByThree { adjMatType := .edgeInduced }).get (by decide +kernel)

/-- The sets of both last vertices keep the restriction by the second vertex, but only that of the first
of them counts for the redundancy. -/
theorem iep_result_differs :
    ¬ ∀ (sc : Schedule) (cfg : CodeGenConfig) (metaData : MetaData) (pSize : ℕ) (plan base : PlanIR)
      (prog baseProg : OmpProgram) (g : Graph) (layout : Layout), sc.InOrder pSize →
      (sc.inExclusionOptimizeNum : ℤ) = getVecOptimizeNum sc.adjMat pSize (List.range pSize) →
      1 < sc.inExclusionOptimizeNum →
      Coefficients sc.inExclusionOptimizeNum sc.inExclusionOptimizeVal sc.inExclusionOptimizeGroup →
      sc.inExclusionOptimizeRedundancy = sc.redundancy pSize → sc.OneRepresentative pSize →
      cfg.pruningType = .none →
      genPlan (insertionSort VertexSetIR.less) sc { cfg with adjMatType := .edgeInducedIEP } metaData
        = .ok (some plan) →
      genPlan (insertionSort VertexSetIR.less) sc { cfg with adjMatType := .edgeInduced } metaData
        = .ok (some base) →
      genCodeOmp plan { cfg with adjMatType := .edgeInducedIEP } = .ok prog →
      genCodeOmp base { cfg with adjMatType := .edgeInduced } = .ok baseProg →
      prog.Closed → baseProg.Closed → g.Valid → SameResult g layout prog baseProg := by
  intro hall
  have hthree : twoByThreeProgram.prog.iepRedundancy = 3 := by decide +kernel
  have hzero : plainTwoByThree.prog.iepRedundancy = 0 := by decide +kernel
  have htwo : (runOmp (miniGraphMachine twoByThreeGraph exactLayout) twoByThreeGraph twoByThreeProgram.prog
      (fun _ => (0 : Fin 1))).map (fun counters => counters 0) = some 2 := by decide +kernel
  have hone : (runOmp (miniGraphMachine twoByThreeGraph exactLayout) twoByThreeGraph plainTwoByThree.prog
      (fun _ => (0 : Fin 1))).map (fun counters => counters 0) = some 1 := by decide +kernel
  obtain ⟨counters, baseCounters, hrun, hbaseRun, heq⟩ := hall twoByThree {} {} 5 _ _ _ _ twoByThreeGraph
    exactLayout inOrder_twoByThree (by decide +kernel) (by decide) coefficients_two (by decide +kernel)
    (by decide +kernel) rfl twoByThreeProgram.planned plainTwoByThree.planned twoByThreeProgram.emitted
    plainTwoByThree.emitted twoByThreeProgram.closed plainTwoByThree.closed valid_twoByThreeGraph 1 1
    (fun _ => 0) (fun _ => 0)
  rw [hrun, Option.map_some, Option.some.injEq] at htwo
  rw [hbaseRun, Option.map_some, Option.some.injEq] at hone
  rw [getResult_eq, getResult_eq, Fin.sum_univ_one, Fin.sum_univ_one, htwo, hone, hthree, hzero] at heq
  exact absurd heq (by decide)

end GraphMini
