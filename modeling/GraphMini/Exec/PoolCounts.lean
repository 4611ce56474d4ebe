import GraphMini.Exec.PoolSafety
import GraphMini.Exec.Unpruned

/-!
# What the threads count with their pools

Each thread counts in a `long long` and fills buffers of its own pool, which hold `MAX_DEGREE + 1` ids. If no
set is declared as a view of a temporary and every buffer has room, the threads count together what the run
over values counts. On a graph that fits its workspace every buffer has room: a set in scope is part of an
adjacency list.
-/

namespace GraphMini

open VertexSetIR

/-! ### Room -/

section

variable {g : Graph} {env : Env}

/-- A vertex of the graph, or a set that is computed from its adjacency lists. -/
def Var.Derived (g : Graph) : (v : Var) → v.Ty → Prop
  | .id _, x => x < g.numVertex
  | .adj _, s => g.Derived s
  | .set _, s => g.Derived s
  | .mgAdj _, s => g.Derived s
  | _, _ => True

/-- All vertices and sets in scope are. -/
def DerivedEnv (g : Graph) (env : Env) : Prop := ∀ v, ∀ value ∈ env v, v.Derived g value

theorem DerivedEnv.evalSet (h : DerivedEnv g env) (value : SetExpr) {s : VertexSet}
    (hs : evalSet env value = some s) : g.Derived s := by
  induction value generalizing s with
  | set id => exact h (.set id) s hs
  | adj dep => exact h (.adj dep) s hs
  | mgAdj mg => exact h (.mgAdj mg) s hs
  | intersect left right upper ihl ihr =>
      simp only [GraphMini.evalSet, Option.bind_eq_bind, Option.bind_eq_some_iff, Option.pure_def,
        Option.some.injEq] at hs
      obtain ⟨l, hl, r, hr, u, -, rfl⟩ := hs
      exact .intersect (ihl hl) (ihr hr) u
  | subtract left right upper ihl ihr =>
      simp only [GraphMini.evalSet, Option.bind_eq_bind, Option.bind_eq_some_iff, Option.pure_def,
        Option.some.injEq] at hs
      obtain ⟨l, hl, r, hr, u, -, rfl⟩ := hs
      exact .subtract (ihl hl) (ihr hr) u
  | bounded left upper ih =>
      simp only [GraphMini.evalSet, Option.bind_eq_bind, Option.bind_eq_some_iff, Option.pure_def,
        Option.some.injEq] at hs
      obtain ⟨l, hl, u, -, rfl⟩ := hs
      exact .bounded (ih hl) u
  | remove left id ih =>
      simp only [GraphMini.evalSet, Option.bind_eq_bind, Option.bind_eq_some_iff, Option.pure_def,
        Option.some.injEq] at hs
      obtain ⟨l, hl, x, -, rfl⟩ := hs
      exact .remove (ih hl) x

theorem DerivedEnv.declare (h : DerivedEnv g env) {v : Var} {value : v.Ty} (hv : v.Derived g value) :
    DerivedEnv g (env.set v value) := by
  intro w x hx
  by_cases hw : w = v
  · subst hw
    rw [Env.set_self] at hx
    obtain rfl := Option.some.inj hx
    exact hv
  · rw [Env.set_of_ne _ _ hw] at hx
    exact h w x hx

/-- A statement keeps it, where nothing is read from a mini-graph. -/
theorem DerivedEnv.execStmt (hg : g.Valid) {path : List ℕ} {f f' : Frame MgMachine.absent} {stmt : Stmt}
    {flow : Flow} (h : DerivedEnv g f.env) (hrun : execStmt g path f stmt = some (flow, f')) :
    DerivedEnv g f'.env := by
  cases stmt with
  | declId dep iter =>
      simp only [GraphMini.execStmt, Option.bind_eq_bind, Option.bind_eq_some_iff, Option.pure_def,
        Option.some.injEq, Prod.mk.injEq] at hrun
      obtain ⟨s, hs, idx, -, id, hid, -, rfl⟩ := hrun
      obtain ⟨-, v, hv, hsub⟩ := (h (.set iter) s hs).sublist hg
      exact h.declare (hg.lt_numVertex v hv id (hsub.subset (List.mem_of_getElem? hid)))
  | declAdj dep =>
      simp only [GraphMini.execStmt, Option.bind_eq_bind, Option.bind_eq_some_iff, Option.pure_def,
        Option.some.injEq, Prod.mk.injEq] at hrun
      obtain ⟨id, hid, -, rfl⟩ := hrun
      exact h.declare (.adj (h (.id dep) id hid))
  | declSet id value =>
      simp only [GraphMini.execStmt, Option.bind_eq_bind, Option.bind_eq_some_iff, Option.pure_def,
        Option.some.injEq, Prod.mk.injEq] at hrun
      obtain ⟨s, hs, -, rfl⟩ := hrun
      exact h.declare (h.evalSet value hs)
  | declMg mg type bounded =>
      obtain ⟨-, rfl⟩ := Prod.mk.inj (Option.some.inj hrun)
      exact h.declare trivial
  | declMgAdj mg index | build mg parent vset vint iter | declIndices mg setId =>
      simp [GraphMini.execStmt, MgMachine.absent] at hrun
  | continueIfEmpty _ | count _ | countIep _ _ =>
      simp only [GraphMini.execStmt, Option.bind_eq_bind, Option.bind_eq_some_iff, Option.pure_def,
        Option.some.injEq, Prod.mk.injEq] at hrun
      obtain ⟨_, -, -, rfl⟩ := hrun
      exact h
  | setReuseMultiplier mg summands =>
      simp only [GraphMini.execStmt, Option.bind_eq_bind, Option.bind_eq_some_iff, Option.pure_def,
        Option.some.injEq, Prod.mk.injEq] at hrun
      obtain ⟨_, -, _, -, -, rfl⟩ := hrun
      exact h

end

/-- On a graph that fits its workspace no buffer is filled beyond its end. -/
theorem withinBuffers_of_fits {prog : OmpProgram} {g : Graph} (hg : g.Valid) (hfits : g.FitsWorkSpace) :
    prog.Always (WithinBuffers (M := MgMachine.absent) g) g := by
  have hlong := (Graph.fitsWorkSpace_iff hg).mp hfits
  intro v hv
  apply Block.always_of_invariant (DerivedEnv g)
  · exact fun path f stmt flow f' => DerivedEnv.execStmt hg
  · exact fun env dep i h => h.declare trivial
  · intro path f stmt h part _ _ s hs
    obtain ⟨-, v, hv, hsub⟩ := (h.evalSet part hs).sublist hg
    exact hsub.length_le.trans (hlong v hv)
  · have hempty : DerivedEnv g Env.empty := by
      intro w x hx
      simp [Env.empty] at hx
    exact hempty.declare hv

/-! ### Counting without pruning -/

section

variable {sort : List VertexSetIR → List VertexSetIR} {sc : Schedule} {size : ℕ} {cfg : CodeGenConfig}
  {metaData : MetaData} {plan : PlanIR} {prog : OmpProgram} {g : Graph}

theorem sum_none (hsc : sc.InOrder size) (hg : g.Valid) : ((List.range g.numVertex).map fun v =>
      (extensions cfg.adjMatType g (sc.edge size) (sc.restrict size) (size - 1) [v] : ℤ)).sum
    = (embeddings cfg.adjMatType g size sc).card := by
  have hpos : 0 < size := lt_of_lt_of_le (by norm_num) hsc.three_le
  rw [sum_extensions_eq hpos, card_embeddings hsc hg]

/-- What the program that is emitted without pruning counts. -/
theorem counts_none (hsc : sc.InOrder size) (hsort : SortsOps sort (sc.edge size) (sc.restrict size) size)
    (hcfg : cfg.pruningType = .none) (ht : cfg.adjMatType ≠ .edgeInducedIEP)
    (hplan : createPlan sort sc cfg.adjMatType metaData = .ok plan) (hprog : genCodeOmp plan cfg = .ok prog)
    (hg : g.Valid) : prog.Counts g (embeddings cfg.adjMatType g size sc).card := by
  intro threads share hshare
  exact intactRun_counts_iff hshare (none_adds_extensions hsc hsort hcfg ht hplan hprog hg) (sum_none hsc hg)

/-- The program that is emitted without pruning counts the embeddings of the pattern, whichever thread runs
which iteration, in a run whose sets and buffers stay as they are. There is such a run that ends with the
number of embeddings if and only if no set is declared as a view of a temporary, everything that is filled has
room, and the number is not too large for a counter. -/
theorem pooled_counts_iff (metaData : MetaData) (hsc : sc.InOrder size)
    (hsort : SortsOps sort (sc.edge size) (sc.restrict size) size)
    (hcfg : cfg.pruningType = .none) (ht : cfg.adjMatType ≠ .edgeInducedIEP) :
    ∃ plan prog, createPlan sort sc cfg.adjMatType metaData = .ok plan ∧ genCodeOmp plan cfg = .ok prog
      ∧ ∀ g : Graph, g.Valid → ∀ {threads : ℕ} (share : Fin threads → List ℕ), SharesOut share g.numVertex →
        ((∃ f, IntactRun MgMachine.absent g prog share f
            ∧ longLong (∑ thread, longLong (f thread).counter) = (embeddings cfg.adjMatType g size sc).card) ↔
          prog.Always (Lasting (M := MgMachine.absent)) g ∧ prog.Always (WithinBuffers (M := MgMachine.absent) g) g
            ∧ (embeddings cfg.adjMatType g size sc).card < 2 ^ 63) := by
  have hplan : createPlan sort sc cfg.adjMatType metaData = .ok _ := createPlan_eq hsort.permutes hsc.connects ht
  obtain ⟨-, prog, hprog, -⟩ := closed_of_none hsc hsort hcfg hplan fun h => absurd h ht
  exact ⟨_, prog, hplan, hprog, fun g hg threads share => counts_none hsc hsort hcfg ht hplan hprog hg share⟩

end

theorem fitsWorkSpace_countedFour : countedFour.FitsWorkSpace :=
  (Graph.fitsWorkSpace_iff valid_countedFour).mpr (by decide)

/-- Two threads share four joined vertices, and one of them begins with the last vertex. -/
theorem pooled_counts_iff_triangles : ∃ plan prog f,
    createPlan (fun l => l.mergeSort fun u v => decide (u.restrictNum ≤ v.restrictNum)) orderedTriangle
      .vertexInduced {} = .ok plan
    ∧ genCodeOmp plan {} = .ok prog
    ∧ IntactRun MgMachine.absent countedFour prog ![[3, 0], [1, 2]] f
    ∧ longLong (∑ thread, longLong (f thread).counter)
      = (embeddings .vertexInduced countedFour 3 orderedTriangle).card := by
  obtain ⟨plan, prog, hplan, hprog, hall⟩ := pooled_counts_iff {} inOrder_orderedTriangle
    sortsOps_of_restrictNum (show ({} : CodeGenConfig).pruningType = .none from rfl) (by decide)
  have hlasting := lasting_of_vertexInduced (M := MgMachine.absent) (g := countedFour)
    inOrder_orderedTriangle.connects sortsOps_of_restrictNum.permutes rfl (genPlan_of_none rfl hplan) hprog
  have hfew : (embeddings .vertexInduced countedFour 3 orderedTriangle).card < 2 ^ 63 := by decide +kernel
  obtain ⟨f, hrun, hsum⟩ := (hall countedFour valid_countedFour ![[3, 0], [1, 2]] (by decide)).mpr
    ⟨hlasting, withinBuffers_of_fits valid_countedFour fitsWorkSpace_countedFour, hfew⟩
  exact ⟨plan, prog, f, hplan, hprog, hrun, hsum⟩

/-- A path of four vertices and one more neighbour of its second vertex, the second vertex first. -/
def chair : Schedule where
  adjMat := "0110110000100100010010000".toList
  restrictPair := []

theorem inOrder_chair : chair.InOrder 5 := by
  constructor <;> decide

/-- Without restrictions no set is cut from a sibling. -/
theorem sortsOps_of_unrestricted {sort : List VertexSetIR → List VertexSetIR} {edge restrict : ℕ → Finset ℕ}
    {size : ℕ} (hsort : PermutesOps sort edge restrict size) (hrestrict : ∀ v < size, restrict v = ∅) :
    SortsOps sort edge restrict size := by
  intro dep hdep
  refine ⟨hsort dep hdep, fun l₁ op l₂ hsplit hmem _ => ?_⟩
  have hop : op ∈ candidateOps edge restrict size dep := (hsort dep hdep).mem_iff.mp (by simp [hsplit])
  obtain ⟨-, v, -, hv, rfl⟩ := mem_candidateOps.mp hop
  simp [cut, hrestrict v hv] at hmem

def chairProgram : Compiled chair { adjMatType := .edgeInduced } :=
  (compile chair { adjMatType := .edgeInduced }).get (by decide +kernel)

/-- The pattern itself as a data graph, and a triangle apart from it. -/
def chairAndTriangle : Graph where
  indices := [1, 2, 4, 0, 0, 3, 2, 0, 6, 7, 5, 7, 5, 6]
  indptr := [0, 3, 4, 6, 7, 8, 10, 12, 14]
  offset := [0, 1, 1, 1, 1, 0, 1, 2]
  numVertex := 8
  numEdge := 14
  maxTriangle := 2

theorem valid_chairAndTriangle : chairAndTriangle.Valid := by
  constructor <;> decide

/-- The set of the third loop is a view of a buffer that the set of the fourth vertex fills: one thread finds
none of the two embeddings, although every buffer has room. -/
theorem pooled_counts_differ :
    ¬ ∀ (sort : List VertexSetIR → List VertexSetIR) (sc : Schedule) (cfg : CodeGenConfig) (metaData : MetaData)
      (size : ℕ) (plan : PlanIR) (prog : OmpProgram) (g : Graph), sc.InOrder size →
      SortsOps sort (sc.edge size) (sc.restrict size) size → cfg.pruningType = .none →
      cfg.adjMatType ≠ .edgeInducedIEP → createPlan sort sc cfg.adjMatType metaData = .ok plan →
      genCodeOmp plan cfg = .ok prog → g.Valid → g.FitsWorkSpace →
      ∃ f, poolThread MgMachine.absent g prog (List.range g.numVertex) = some f
        ∧ longLong f.counter = (embeddings cfg.adjMatType g size sc).card := by
  intro hall
  have hfits := (Graph.fitsWorkSpace_iff valid_chairAndTriangle).mpr (by decide)
  have hsort : SortsOps (StdAlgorithm.insertionSort VertexSetIR.less) (chair.edge 5) (chair.restrict 5) 5 :=
    sortsOps_of_unrestricted (fun _ _ => StdAlgorithm.insertionSort_perm _ _) (by decide)
  have hplan := createPlan_of_none rfl chairProgram.planned
  have hcard : ((embeddings .edgeInduced chairAndTriangle 5 chair).card : ℤ) = 2 := by
    have htotal : ompTotal MgMachine.absent chairAndTriangle chairProgram.prog = some 2 := by decide +kernel
    have hrun := none_adds_extensions (M := MgMachine.absent) inOrder_chair hsort rfl (by decide) hplan
      chairProgram.emitted valid_chairAndTriangle
    rw [ompTotal_eq_some hrun, sum_none inOrder_chair valid_chairAndTriangle, Option.some.injEq] at htotal
    exact htotal
  obtain ⟨f, hrun, hcounter⟩ := hall _ chair { adjMatType := .edgeInduced } {} 5 _ _ chairAndTriangle
    inOrder_chair hsort rfl (by decide) hplan chairProgram.emitted valid_chairAndTriangle hfits
  have hzero : (poolThread MgMachine.absent chairAndTriangle chairProgram.prog
      (List.range chairAndTriangle.numVertex)).all (fun f => f.counter = 0) = true := by decide +kernel
  rw [hrun, Option.all_some, decide_eq_true_eq] at hzero
  rw [hzero, hcard] at hcounter
  exact absurd hcounter (by decide)

section

variable {sort : List VertexSetIR → List VertexSetIR} {sc : Schedule} {size : ℕ} {cfg : CodeGenConfig}

end

end GraphMini
