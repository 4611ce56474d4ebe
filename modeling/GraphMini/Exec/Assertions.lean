import GraphMini.Exec.LastBody
import GraphMini.Exec.NestedTotal
import GraphMini.Exec.PoolAlways
import GraphMini.Exec.PoolSafety

/-!
# The assertions of a run with pruning

A set is looked up in a mini-graph, and a child or an iter set is built on it, only where it lies within
the vertices of the mini-graph. The plan pairs them by the superset relation, so this holds of every run
in which the sets are what their names say, and they are while no list that has been cut below its
vertex is read by an operation that reaches above it.
-/

namespace GraphMini

open VertexSetIR MgStore StdAlgorithm

section

variable (g : Graph) (layout : Layout)

/-- The same in a run with the pool: the statement finds what `AssertionsHold` asks for in the objects that
are in scope, and goes through. -/
def PoolAssertionsHold : PoolStmtPred (miniGraphMachine g layout) := fun path f stmt =>
  AssertionsHold g layout path (f.frame g) stmt ∧ (poolStmt g path f stmt).isSome = true

variable {g layout}

/-- The counter does not matter. -/
theorem assertionsHold_congr {path : List ℕ} {F F' : Frame (miniGraphMachine g layout)} {stmt : Stmt}
    (henv : F'.env = F.env) (hstate : F'.state = F.state) (h : AssertionsHold g layout path F stmt) :
    AssertionsHold g layout path F' stmt := by
  have hgoes : (execStmt g path F' stmt).isSome = (execStmt g path F stmt).isSome := by
    cases stmt <;> simp [execStmt, henv, hstate, Option.isSome_bind]
  have hstore : F'.store = F.store := hstate
  cases stmt with
  | declIndices mg setId | build mg parent vset vint iter =>
      simpa only [AssertionsHold, henv, hstore, hgoes] using h
  | _ => trivial

theorem lifts_assertionsHold : Lifts g (AssertionsHold g layout) (PoolAssertionsHold g layout) := by
  intro path f F stmt base _ hF h hgoes
  exact ⟨assertionsHold_congr hF.env.symm hF.state.symm h, Option.isSome_iff_exists.mpr hgoes⟩

end

section

variable {sort : List VertexSetIR → List VertexSetIR} {sc : Schedule} {cfg : CodeGenConfig} {metaData : MetaData}
  {pSize : ℕ} {plan : PlanIR} {prog : OmpProgram} {g : Graph} {layout : Layout}

/-- Over values every iteration goes through, and no lookup and no build leaves the vertex set of its
mini-graph. -/
theorem runs_assertionsHold (hsc : sc.Connected pSize)
    (hsort : PermutesOps sort (sc.edge pSize) (sc.restrict pSize) pSize)
    (hplan : genPlan sort sc cfg metaData = .ok (some plan)) (hprog : genCodeOmp plan cfg = .ok prog)
    (hclosed : prog.Closed) (hg : g.Valid) (hreads : plan.BoundedReads)
    (hfits : prog.Always (BuildFits cfg g layout) g) {v : ℕ} (hv : v < g.numVertex) :
    prog.body.Always (AssertionsHold g layout) g [v] (Frame.start _ v) ∧
      ∃ F, execBlock g prog.body [v] (Frame.start (miniGraphMachine g layout) v) = some F := by
  obtain ⟨h, -⟩ := plannedMgs_genPlan hsc hsort hplan
  have hfields := hasIepFields_genPlan hsc hsort hplan
  rw [h.genCodeOmp_eq] at hprog
  obtain rfl := Except.ok.inj hprog
  have hguarantee : AsksOnCounts (AssertionsHold g layout) := fun _ _ _ _ hhold => hhold
  have hfind : CountsFind plan (AssertionsHold g layout) := fun _ _ _ _ _ _ _ _ _ => trivial
  obtain ⟨hhold, F, hF, -⟩ := runs_start h hfields hg hreads hguarantee (fun _ => hfind) _ hclosed hv (hfits v hv)
  exact ⟨hhold, F, hF⟩

end

/-- In every run whose sets and buffers stay as they are no lookup and no build leaves the vertex set of its
mini-graph, so no assertion fails. -/
theorem assertions_hold (sort : List VertexSetIR → List VertexSetIR) (sc : Schedule) (cfg : CodeGenConfig)
    (metaData : MetaData) (pSize : ℕ) (hsc : sc.Connected pSize)
    (hsort : PermutesOps sort (sc.edge pSize) (sc.restrict pSize) pSize)
    (plan : PlanIR) (hplan : genPlan sort sc cfg metaData = .ok (some plan)) (prog : OmpProgram)
    (hprog : genCodeOmp plan cfg = .ok prog) (hclosed : prog.Closed) (g : Graph) (hg : g.Valid)
    (layout : Layout) (hreads : plan.BoundedReads) (hfits : prog.Always (BuildFits cfg g layout) g)
    (hlasting : prog.Always (Lasting (M := miniGraphMachine g layout)) g)
    (hroom : prog.Always (WithinBuffers (M := miniGraphMachine g layout) g) g) (threads : ℕ)
    (share : Fin threads → List ℕ) (hshare : SharesOut share g.numVertex) :
    ∃ f, IntactRun (miniGraphMachine g layout) g prog share f ∧
      ∀ thread, prog.PoolAlways (PoolAssertionsHold g layout) g (share thread) := by
  have hruns := fun v hv => runs_assertionsHold (v := v) hsc hsort hplan hprog hclosed hg hreads hfits hv
  exact exists_intactRun_always lifts_assertionsHold hshare (fun v hv => (hruns v hv).2) hlasting hroom
    fun v hv => (hruns v hv).1

def prunedClique : Compiled orderedClique { pruningType := .static } :=
  (compile orderedClique { pruningType := .static }).get (by decide +kernel)

/-- The joined vertices of a clique, shared by two threads. -/
theorem assertions_hold_clique : ∃ plan prog f,
    genPlan (insertionSort VertexSetIR.less) orderedClique { pruningType := .static } {} = .ok (some plan) ∧
    genCodeOmp plan { pruningType := .static } = .ok prog ∧
    IntactRun (miniGraphMachine countedFour exactLayout) countedFour prog ![[3, 0], [1, 2]] f ∧
    ∀ thread, prog.PoolAlways (PoolAssertionsHold countedFour exactLayout) countedFour (![[3, 0], [1, 2]] thread) := by
  have hreads : prunedClique.plan.BoundedReads := by decide +kernel
  have hfits : prunedClique.prog.Always (BuildFits { pruningType := .static } countedFour exactLayout)
      countedFour := by decide +kernel
  have hlasting : prunedClique.prog.Always (Lasting (M := miniGraphMachine countedFour exactLayout))
      countedFour := by decide +kernel
  have hroom : prunedClique.prog.Always (WithinBuffers (M := miniGraphMachine countedFour exactLayout) countedFour)
      countedFour := by decide +kernel
  obtain ⟨f, hrun, hhold⟩ := assertions_hold _ orderedClique _ {} 4 connected_orderedClique
    (fun _ _ => insertionSort_perm _ _) _ prunedClique.planned _ prunedClique.emitted prunedClique.closed
    countedFour valid_countedFour exactLayout hreads hfits hlasting hroom 2 ![[3, 0], [1, 2]] (by decide)
  exact ⟨prunedClique.plan, prunedClique.prog, f, prunedClique.planned, prunedClique.emitted, hrun, hhold⟩

/-- Six vertices of which the fourth lies below the third, the fifth below the first and the sixth below
the second. -/
def pairedSix : Schedule where
  adjMat := "011111101110110111111011111101101110".toList
  restrictPair := [(2, 3), (0, 4), (1, 5)]

theorem connected_pairedSix : pairedSix.Connected 6 := by
  constructor <;> decide

def sixVertices : Graph where
  indices := [1, 2, 3, 4, 5, 0, 2, 5, 0, 1, 3, 4, 5, 0, 2, 4, 5, 0, 2, 3, 5, 0, 1, 2, 3, 4]
  indptr := [0, 5, 8, 13, 17, 21, 26]
  offset := [0, 1, 2, 2, 3, 5]
  numVertex := 6
  numEdge := 26
  maxTriangle := 16

theorem valid_sixVertices : sixVertices.Valid := by
  constructor <;> decide

def prunedPairs : Compiled pairedSix { pruningType := .static } :=
  (compile pairedSix { pruningType := .static }).get (by decide +kernel)

/-- A list that has been cut below its vertex is read for a set that may reach above it, and what the
vertices of a mini-graph lack is looked up in it: the run stops. -/
theorem lookup_fails :
    ¬ ∀ (sc : Schedule) (cfg : CodeGenConfig) (metaData : MetaData) (pSize : ℕ) (plan : PlanIR)
      (prog : OmpProgram) (g : Graph) (layout : Layout), sc.Connected pSize →
      cfg.pruningType = .eager ∨ cfg.pruningType = .static ∨ cfg.pruningType = .online →
      genPlan (insertionSort VertexSetIR.less) sc cfg metaData = .ok (some plan) →
      genCodeOmp plan cfg = .ok prog → prog.Closed → g.Valid → g.FitsWorkSpace →
      prog.Always (BuildFits cfg g layout) g → prog.Always (Lasting (M := miniGraphMachine g layout)) g →
      ∀ vs : List ℕ, (∀ v ∈ vs, v < g.numVertex) →
      ∃ f, poolThread (miniGraphMachine g layout) g prog vs = some f ∧
        prog.PoolAlways (PoolAssertionsHold g layout) g vs := by
  intro hall
  have hspace : sixVertices.FitsWorkSpace := (Graph.fitsWorkSpace_iff valid_sixVertices).mpr (by decide)
  have hfits : prunedPairs.prog.Always (BuildFits { pruningType := .static } sixVertices exactLayout)
      sixVertices := by decide +kernel
  have hlasting := lasting_of_vertexInduced (M := miniGraphMachine sixVertices exactLayout) (g := sixVertices)
    connected_pairedSix (fun _ _ => insertionSort_perm _ _) rfl prunedPairs.planned prunedPairs.emitted
  have hstops : (poolThread (miniGraphMachine sixVertices exactLayout) sixVertices prunedPairs.prog [5]).isNone
      = true := by decide +kernel
  obtain ⟨f, hrun, -⟩ := hall pairedSix { pruningType := .static } {} 6 prunedPairs.plan prunedPairs.prog
    sixVertices exactLayout connected_pairedSix (by simp) prunedPairs.planned prunedPairs.emitted
    prunedPairs.closed valid_sixVertices hspace hfits hlasting [5] (by decide)
  simp [hrun] at hstops

end GraphMini
