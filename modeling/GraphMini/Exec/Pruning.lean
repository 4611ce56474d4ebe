import GraphMini.Backend.ContainerPool
import GraphMini.Codegen.Bounded
import GraphMini.Exec.LastBody
import GraphMini.Exec.Omp
import GraphMini.Exec.NestedTotal

/-!
# Pruning keeps the count

Without inclusion and exclusion a run with pruning adds one for every way to place all vertices, as the
program without pruning does, since every set that it counts or iterates is what its name says.
-/

namespace GraphMini

open VertexSetIR MgStore StdAlgorithm

section

variable {edge restrict : ℕ → Finset ℕ} {cfg : CodeGenConfig} {plan : PlanIR}
  (h : PlannedMgs edge restrict cfg plan) {sc : Schedule} {g : Graph} {layout : Layout} {prog : OmpProgram}

include h

/-- One iteration of the outermost loop adds the ways to go on from its vertex. -/
theorem execVertex_eq (hfields : plan.HasIepFields sc cfg.adjMatType) (ht : cfg.adjMatType ≠ .edgeInducedIEP)
    (hg : g.Valid) (hreads : plan.BoundedReads) (hprog : genCodeOmp plan cfg = .ok prog)
    (hclosed : prog.Closed) (hfits : prog.Always (BuildFits cfg g layout) g) {v : ℕ} (hv : v < g.numVertex) :
    execVertex (miniGraphMachine g layout) g prog.body v
      = some (extensions plan.adjMatType g edge restrict (plan.pSize - 1) [v] : ℤ) := by
  have huses : usesIep plan cfg = false := by simp [usesIep, ht]
  have hcounts : plan.IepCounts cfg :=
    ⟨fun hiep => by simp [huses] at hiep, fun hiep => by simp [huses] at hiep⟩
  have hdepth : plan.maxDep + 1 = plan.pSize - 1 := by
    have hthree := h.three_le
    rw [PlanIR.maxDep, hfields.off ht]
    omega
  have hweight : lastWeight plan cfg g edge restrict
      = fun placed => (extensions plan.adjMatType g edge restrict 1 placed : ℤ) := by
    funext placed
    rw [lastWeight, huses, if_neg Bool.false_ne_true]
  rw [execVertex_total h hfields hg hreads hcounts hprog hclosed hfits hv, ← hdepth, hweight]
  simp only [loopTotal, extensions, Completion.total_count]

end

/-- Where the marks of the bounded mini-graphs fit their readers, a program with pruning counts what the
program without pruning counts, whichever thread runs which iteration of either. -/
theorem pruning_keeps_total (sort : List VertexSetIR → List VertexSetIR) (sc : Schedule) (cfg : CodeGenConfig)
    (metaData : MetaData) (pSize : ℕ) (hsc : sc.Connected pSize)
    (hsort : PermutesOps sort (sc.edge pSize) (sc.restrict pSize) pSize)
    (ht : cfg.adjMatType ≠ .edgeInducedIEP) (plan base : PlanIR)
    (hplan : genPlan sort sc cfg metaData = .ok (some plan))
    (hbase : genPlan sort sc { cfg with pruningType := .none } metaData = .ok (some base))
    (prog noneProg : OmpProgram) (hprog : genCodeOmp plan cfg = .ok prog)
    (hnone : genCodeOmp base { cfg with pruningType := .none } = .ok noneProg) (hclosed : prog.Closed)
    (hnoneClosed : noneProg.Closed) (g : Graph) (hg : g.Valid) (layout : Layout)
    (hreads : plan.BoundedReads) (hfits : prog.Always (BuildFits cfg g layout) g)
    {threads noneThreads : ℕ} (schedule : ℕ → Fin threads) (noneSchedule : ℕ → Fin noneThreads) :
    ∃ counters noneCounters,
      runOmp (miniGraphMachine g layout) g prog schedule = some counters ∧
      runOmp (miniGraphMachine g layout) g noneProg noneSchedule = some noneCounters ∧
      ∑ thread, counters thread = ∑ thread, noneCounters thread := by
  obtain ⟨h, htype⟩ := plannedMgs_genPlan hsc hsort hplan
  obtain ⟨h', htype'⟩ := plannedMgs_genPlan hsc hsort hbase
  have hfields := hasIepFields_genPlan hsc hsort hplan
  have hfields' := hasIepFields_genPlan hsc hsort hbase
  have ht' : ({ cfg with pruningType := .none } : CodeGenConfig).adjMatType ≠ .edgeInducedIEP := ht
  have hsize : plan.pSize = base.pSize := by
    rw [(header_genPlan hsc hsort hplan).1, (header_genPlan hsc hsort hbase).1]
  have hnoneFits : noneProg.Always (BuildFits { cfg with pruningType := .none } g layout) g := by
    rw [h'.genCodeOmp_eq] at hnone
    obtain rfl := Except.ok.inj hnone
    exact fun v _ => buildFits_of_none h' rfl _ _ _ _
  obtain ⟨counters, hcounters, hsum⟩ := runOmp_sum schedule
    fun v hv => execVertex_eq h hfields ht hg hreads hprog hclosed hfits hv
  obtain ⟨noneCounters, hnoneCounters, hnoneSum⟩ := runOmp_sum noneSchedule
    fun v hv => execVertex_eq h' hfields' ht hg (boundedReads_of_none h' rfl) hnone hnoneClosed hnoneFits hv
  refine ⟨counters, noneCounters, hcounters, hnoneCounters, ?_⟩
  rw [hsum, hnoneSum, htype, htype', hsize]

def eagerClique : Compiled orderedClique { pruningType := .eager } :=
  (compile orderedClique { pruningType := .eager }).get (by decide +kernel)

def plainClique : Compiled orderedClique {} := (compile orderedClique {}).get (by decide +kernel)

/-- The joined vertices of a clique, on two threads and on one. -/
theorem pruning_keeps_total_clique : ∃ plan base prog noneProg counters noneCounters,
    genPlan (insertionSort VertexSetIR.less) orderedClique { pruningType := .eager } {} = .ok (some plan) ∧
    genPlan (insertionSort VertexSetIR.less) orderedClique {} {} = .ok (some base) ∧
    genCodeOmp plan { pruningType := .eager } = .ok prog ∧ genCodeOmp base {} = .ok noneProg ∧
    runOmp (miniGraphMachine completeFour exactLayout) completeFour prog (fun v => Fin.ofNat 2 v)
      = some counters ∧
    runOmp (miniGraphMachine completeFour exactLayout) completeFour noneProg (fun v => Fin.ofNat 1 v)
      = some noneCounters ∧
    ∑ thread, counters thread = ∑ thread, noneCounters thread := by
  have hreads : eagerClique.plan.BoundedReads := by decide +kernel
  have hfits : eagerClique.prog.Always (BuildFits { pruningType := .eager } completeFour exactLayout)
      completeFour := by decide +kernel
  obtain ⟨counters, noneCounters, hrun, hnoneRun, hsum⟩ := pruning_keeps_total _ orderedClique
    { pruningType := .eager } {} 4 connected_orderedClique (fun _ _ => insertionSort_perm _ _) (by decide)
    _ _ eagerClique.planned plainClique.planned _ _ eagerClique.emitted plainClique.emitted
    eagerClique.closed plainClique.closed completeFour valid_completeFour exactLayout hreads hfits
    (fun v => Fin.ofNat 2 v) (fun v => Fin.ofNat 1 v)
  exact ⟨eagerClique.plan, plainClique.plan, eagerClique.prog, plainClique.prog, counters, noneCounters,
    eagerClique.planned, plainClique.planned, eagerClique.emitted, plainClique.emitted, hrun, hnoneRun, hsum⟩

/-- The nested program may find other containers, other contents behind the ends of the arrays and other addresses
than the sequential one: where the builds of both fit, their totals are the same. -/
theorem runNested_total_of_fits {sort : List VertexSetIR → List VertexSetIR} {sc : Schedule} {cfg : CodeGenConfig}
    {metaData : MetaData} {pSize : ℕ} (hsc : sc.Connected pSize)
    (hsort : PermutesOps sort (sc.edge pSize) (sc.restrict pSize) pSize) (ht : cfg.adjMatType ≠ .edgeInducedIEP)
    (hpruning : cfg.pruningType = .none ∨ cfg.pruningType = .static ∨ cfg.pruningType = .eager)
    {plan : PlanIR} (hplan : genPlan sort sc cfg metaData = .ok (some plan)) {omp : OmpProgram}
    (homp : genCodeOmp plan cfg = .ok omp) (hompClosed : omp.Closed) {nested : NestedProgram}
    (hnested : genCodeNested plan cfg = .ok (some nested)) (hnestedClosed : nested.Closed) {g : Graph} (hg : g.Valid)
    (hreads : plan.BoundedReads) {layout layout' : Layout} (hfits : omp.Always (BuildFits cfg g layout) g)
    (hfits' : omp.Always (BuildFits cfg g layout') g) {workers : ℕ} {split : Splitter workers}
    (hsplit : split.Partitions) :
    (runNested (miniGraphMachine g layout) g nested split).map (fun counters => ∑ w, counters w)
      = ompTotal (miniGraphMachine g layout') g omp := by
  obtain ⟨h, -⟩ := plannedMgs_genPlan hsc hsort hplan
  have hfields := hasIepFields_genPlan hsc hsort hplan
  calc _ = ompTotal (miniGraphMachine g layout) g omp :=
        h.runNested_total hfields hpruning homp hompClosed hnested hnestedClosed g layout hsplit
    _ = some ((List.range g.numVertex).map _).sum :=
        ompTotal_eq_some fun v hv => execVertex_eq h hfields ht hg hreads homp hompClosed hfits hv
    _ = ompTotal (miniGraphMachine g layout') g omp :=
        (ompTotal_eq_some fun v hv => execVertex_eq h hfields ht hg hreads homp hompClosed hfits' hv).symm

/-- Each request is made to a pool that has no container yet, and the words behind the arrays are zero. -/
def freshLayout : Layout where
  pool := fun _ _ => ContainerPool.miniGraphPool (fun _ => {}) fun _ => ⟨[], .start⟩
  shouldPrune := fun _ _ _ => false
  beyond := fun _ _ _ => 0
  address := fun _ _ _ => 0

def nestedClique : Compiled orderedClique { pruningType := .eager, parType := .nested } :=
  (compile orderedClique { pruningType := .eager, parType := .nested }).get (by decide +kernel)

/-- Two workers with containers of 1024 words, and one thread with containers that are just large enough. -/
example : ∃ nested, genCodeNested nestedClique.plan { pruningType := .eager, parType := .nested } = .ok (some nested) ∧
    (runNested (miniGraphMachine completeFour freshLayout) completeFour nested halves).map
        (fun counters => ∑ w, counters w)
      = ompTotal (miniGraphMachine completeFour exactLayout) completeFour nestedClique.prog := by
  have htest : (genCodeNested nestedClique.plan { pruningType := .eager, parType := .nested }).toOption.join.any
      (fun nested => decide nested.Closed) = true := by decide +kernel
  obtain ⟨nested, hnested, hclosed⟩ := Loop.exists_ok_some_of_any htest
  exact ⟨nested, hnested, runNested_total_of_fits connected_orderedClique (fun _ _ => insertionSort_perm _ _)
    (by decide) (by simp) nestedClique.planned nestedClique.emitted nestedClique.closed hnested
    (of_decide_eq_true hclosed) valid_completeFour (by decide +kernel) (by decide +kernel) (by decide +kernel)
    partitions_halves⟩

theorem inOrder_tailedTriangle : tailedTriangle.InOrder 4 := by
  constructor <;> decide

/-- The triangle with its tail as a data graph. -/
def tailedTriangleGraph : Graph where
  indices := [1, 2, 3, 0, 0, 3, 0, 2]
  indptr := [0, 3, 4, 6, 8]
  offset := [0, 1, 1, 2]
  numVertex := 4
  numEdge := 8

theorem valid_tailedTriangleGraph : tailedTriangleGraph.Valid := by
  constructor <;> decide

def eagerTail : Compiled tailedTriangle { pruningType := .eager } :=
  (compile tailedTriangle { pruningType := .eager }).get (by decide +kernel)

def plainTail : Compiled tailedTriangle {} := (compile tailedTriangle {}).get (by decide +kernel)

/-- The pattern is found twice in its own graph, but once with pruning. -/
theorem pruning_loses_embedding :
    ¬ ∀ (sc : Schedule) (cfg : CodeGenConfig) (metaData : MetaData) (pSize : ℕ) (plan base : PlanIR)
      (prog noneProg : OmpProgram) (g : Graph) (layout : Layout) (threads noneThreads : ℕ)
      (schedule : ℕ → Fin threads) (noneSchedule : ℕ → Fin noneThreads), sc.InOrder pSize →
      cfg.adjMatType ≠ .edgeInducedIEP → cfg.pruningType ≠ .none →
      genPlan (insertionSort VertexSetIR.less) sc cfg metaData = .ok (some plan) →
      genPlan (insertionSort VertexSetIR.less) sc { cfg with pruningType := .none } metaData
        = .ok (some base) →
      genCodeOmp plan cfg = .ok prog → genCodeOmp base { cfg with pruningType := .none } = .ok noneProg →
      prog.Closed → noneProg.Closed → g.Valid → prog.Always (BuildFits cfg g layout) g →
      ∃ counters noneCounters,
        runOmp (miniGraphMachine g layout) g prog schedule = some counters ∧
        runOmp (miniGraphMachine g layout) g noneProg noneSchedule = some noneCounters ∧
        ∑ thread, counters thread = ∑ thread, noneCounters thread := by
  intro hall
  have hfits : eagerTail.prog.Always (BuildFits { pruningType := .eager } tailedTriangleGraph exactLayout)
      tailedTriangleGraph := by decide +kernel
  have hone : (runOmp (miniGraphMachine tailedTriangleGraph exactLayout) tailedTriangleGraph eagerTail.prog
      (fun _ => (0 : Fin 1))).map (fun counters => counters 0) = some 1 := by decide +kernel
  have htwo : (runOmp (miniGraphMachine tailedTriangleGraph exactLayout) tailedTriangleGraph plainTail.prog
      (fun _ => (0 : Fin 1))).map (fun counters => counters 0) = some 2 := by decide +kernel
  obtain ⟨counters, noneCounters, hrun, hnoneRun, hsum⟩ := hall tailedTriangle { pruningType := .eager } {} 4
    _ _ _ _ tailedTriangleGraph exactLayout 1 1 (fun _ => 0) (fun _ => 0) inOrder_tailedTriangle (by decide)
    (by decide) eagerTail.planned plainTail.planned eagerTail.emitted plainTail.emitted eagerTail.closed
    plainTail.closed valid_tailedTriangleGraph hfits
  rw [hrun, Option.map_some, Option.some.injEq] at hone
  rw [hnoneRun, Option.map_some, Option.some.injEq] at htwo
  rw [Fin.sum_univ_one, Fin.sum_univ_one, hone, htwo] at hsum
  norm_num at hsum

end GraphMini
