import GraphMini.Exec.PoolThreads
import GraphMini.Exec.Pruning

/-!
# The pool under an emitted program

A set without a parent is computed by a chain of operators on an adjacency list. If one of them fills a
buffer and the last one does not, the set is declared as a view of a buffer that is free when the
statement ends. A run in which no declaration does so counts what the run over values counts. With
subtractions every link fills a buffer, so this is only about the edge-induced modes.
-/

namespace GraphMini

open VertexSetIR StdAlgorithm

/-! ### What an emitted program declares -/

section

variable {plan : PlanIR} {cfg : CodeGenConfig} {dep n : ℕ} {id : ℤ} {value : SetExpr} {op : VertexSetIR}

theorem declSet_mem_mgOpStmts (hin : .declSet id value ∈ mgOpStmts plan op) :
    value = chainExpr plan.adjMatType op ∨ ∀ env, value.viewsTemporary env = false := by
  have hop : .declSet id value ∈ opStmts plan op →
      value = chainExpr plan.adjMatType op ∨ ∀ env, value.viewsTemporary env = false := by
    intro hin
    rw [opStmts] at hin
    split at hin
    · right
      intro env
      split_ifs at hin
      · obtain ⟨-, rfl⟩ := Stmt.declSet.inj (List.mem_singleton.mp hin)
        rfl
      · simp at hin
      · obtain ⟨-, rfl⟩ := Stmt.declSet.inj (List.mem_singleton.mp hin)
        rw [prefixExpr]
        split_ifs
        · rfl
        · rfl
        · rfl
        · exact Bool.and_false _
    · left
      split_ifs at hin <;> simp at hin <;> exact hin.2
  rw [mgOpStmts] at hin
  split at hin
  · right
    intro env
    split_ifs at hin
    · simp at hin
    · obtain ⟨-, rfl⟩ : id = op.id ∧ value = entryExpr op _ := by simpa using hin
      rw [entryExpr]
      split_ifs <;> rfl
    · obtain ⟨-, rfl⟩ : id = op.id ∧ value = mgExpr op _ _ := by simpa using hin
      rw [mgExpr]
      split_ifs <;> rfl
  · exact hop hin

/-- Only a chain may be a view of a temporary. -/
theorem declSet_mem_nest {call : ℕ → Option ParCall} (hin : .declSet id value ∈ (nest plan cfg call n dep).stmts) :
    (∃ op, value = chainExpr plan.adjMatType op) ∨ ∀ env, value.viewsTemporary env = false := by
  have hread : ∀ dep, Stmt.declSet id value ∉ genCodeReadAdj plan cfg dep := by
    intro dep hin
    simp [genCodeReadAdj] at hin
  have hmgAdj : ∀ dep, Stmt.declSet id value ∉ genCodeMgAdj plan dep := by
    intro dep hin
    rw [genCodeMgAdj] at hin
    split_ifs at hin <;> simp at hin
  have hops : ∀ dep, .declSet id value ∈ (plan.ops dep).flatMap (mgOpStmts plan) →
      (∃ op, value = chainExpr plan.adjMatType op) ∨ ∀ env, value.viewsTemporary env = false := by
    intro dep hin
    obtain ⟨op, -, hin⟩ := List.mem_flatMap.mp hin
    exact (declSet_mem_mgOpStmts hin).imp_left fun h => ⟨op, h⟩
  induction n generalizing dep with
  | zero =>
      rw [nest, Block.stmts, lastStmts, readStmts, iepStmts] at hin
      rcases List.mem_append.mp hin with hin | hin
      · split_ifs at hin <;> rcases List.mem_append.mp hin with hin | hin
        · exact absurd hin (hmgAdj dep)
        · exact absurd hin (hread dep)
        · exact absurd hin (hread dep)
        · exact absurd hin (hmgAdj dep)
      · rcases List.mem_append.mp hin with hin | hin
        · exact hops dep hin
        · split_ifs at hin <;> simp [genCodeIep] at hin
  | succ n ih =>
      rw [nest, Block.stmts] at hin
      rcases List.mem_append.mp hin with hin | hin
      · rw [bodyStmts, readStmts] at hin
        simp only [List.mem_append] at hin
        rcases hin with (hin | hin) | hin | hin | hin
        · exact absurd hin (hread dep)
        · exact absurd hin (hmgAdj dep)
        · exact hops dep hin
        · obtain ⟨mg, -, hin⟩ := List.mem_flatMap.mp hin
          rw [mgStmts, genCodeMgInit, genCodeMgBuild] at hin
          split_ifs at hin <;> simp at hin
        · obtain ⟨mg, -, hin⟩ := List.mem_flatMap.mp hin
          rw [genCodeMgIndice] at hin
          split_ifs at hin <;> simp at hin
      · exact ih hin

end

/-! ### Chains -/

section

variable {env : Env} {t : AdjMatType} {op : VertexSetIR}

/-- The link of a chain at which it is cut. -/
def chainTo (t : AdjMatType) (op : VertexSetIR) (k : ℕ) : SetExpr :=
  (List.range k).foldl (chainLink t op)
    (if op.isRestricted op.loopDepth then .bounded (.adj op.loopDepth) (.id op.loopDepth)
      else .adj op.loopDepth)

theorem chainTo_succ (k : ℕ) : chainTo t op (k + 1) = chainLink t op (chainTo t op k) k := by
  rw [chainTo, List.range_succ, List.foldl_append]
  rfl

theorem viewsTemporary_chainTo_zero : (chainTo t op 0).fills env = false ∧
    (chainTo t op 0).viewsTemporary env = false := by
  rw [chainTo, List.range_zero, List.foldl_nil]
  split <;> exact ⟨rfl, rfl⟩

theorem viewsTemporary_chainLink (value : SetExpr) (k : ℕ) :
    (chainLink t op value k).viewsTemporary env
      = (!(chainLink t op value k).fills env && (value.fills env || value.viewsTemporary env)) := by
  rw [chainLink]
  split
  · rfl
  · split <;> rfl

/-- A chain ends in a view of a temporary if a link before the last one fills a buffer and no link after
it does. -/
theorem viewsTemporary_chainTo (k : ℕ) : (chainTo t op k).viewsTemporary env = true ↔
    (chainTo t op k).fills env = false ∧ ∃ j < k, (chainTo t op j).fills env = true := by
  induction k with
  | zero => simp [viewsTemporary_chainTo_zero]
  | succ k ih =>
      rw [chainTo_succ, viewsTemporary_chainLink, Bool.and_eq_true, Bool.not_eq_true', Bool.or_eq_true, ih]
      refine and_congr_right fun _ => ?_
      constructor
      · rintro (hfills | ⟨-, j, hj, hfills⟩)
        · exact ⟨k, Nat.lt_succ_self k, hfills⟩
        · exact ⟨j, hj.trans (Nat.lt_succ_self k), hfills⟩
      · rintro ⟨j, hj, hfills⟩
        cases hlast : (chainTo t op k).fills env with
        | true => exact Or.inl rfl
        | false =>
            refine Or.inr ⟨rfl, j, lt_of_le_of_ne (Nat.le_of_lt_succ hj) ?_, hfills⟩
            rintro rfl
            simp [hlast] at hfills

/-- A link that subtracts fills a buffer. -/
theorem viewsTemporary_chainExpr : (chainExpr .vertexInduced op).viewsTemporary env = false := by
  have hchain : chainExpr .vertexInduced op = chainTo .vertexInduced op op.loopDepth := rfl
  rw [hchain]
  cases op.loopDepth with
  | zero => exact viewsTemporary_chainTo_zero.2
  | succ k =>
      rw [chainTo_succ]
      rfl

end

/-! ### Emitted programs -/

section

variable {edge restrict : ℕ → Finset ℕ} {cfg : CodeGenConfig} {plan : PlanIR}
  (h : PlannedMgs edge restrict cfg plan) {sc : Schedule} {prog : OmpProgram}

include h

/-- In a program that compiles every set comes after its sibling. -/
theorem planned_of_closed (hfields : plan.HasIepFields sc cfg.adjMatType) (ht : cfg.adjMatType ≠ .edgeInducedIEP)
    (hcfg : cfg.pruningType = .none) (hprog : genCodeOmp plan cfg = .ok prog) (hclosed : prog.Closed) :
    Planned edge restrict plan where
  toPlannedSets := h.toPlannedSets
  siblingFirst dep := by
    rintro l₁ op l₂ hsplit hmem ⟨u, hu, hsame⟩
    have hop : op ∈ plan.ops dep := by simp [hsplit]
    have hdep := h.loopDepth_eq hop
    have hsibling := (h.isSibling_iff hop hu).mpr ⟨hdep ▸ hmem, hsame⟩
    have hfit : plan.IepFit cfg := fun huses => by simp [usesIep, ht] at huses
    have horder := (h.closed_omp_iff hfields hfit).mp ⟨prog, hprog, hclosed⟩
    cases hfind : (plan.ops dep).find? fun u => plan.isSibling u op with
    | none => exact absurd hsibling (List.find?_eq_none.mp hfind u hu)
    | some w =>
        have hw := List.mem_of_find?_eq_some hfind
        have hwsibling : plan.isSibling w op = true := by simpa using List.find?_some hfind
        have hparent : plan.getParentVset op = some w := by
          rw [PlanIR.getParentVset, hdep, hfind]
        have hread : plan.readsEntry op = false := by
          simp [PlanIR.readsEntry, h.getParentMg_none hcfg]
        have hle : dep ≤ plan.maxDep := by
          have hlt := h.lt_pSize hop
          rw [PlanIR.maxDep, hfields.off ht]
          omega
        have hprecedes := horder.sibling dep (Nat.zero_le _) hle op hop hread w hparent (h.loopDepth_eq hw)
        exact ⟨w, hprecedes.mem (h.nodup_ops dep) hsplit, ((h.isSibling_iff hop hw).mp hwsibling).2⟩

end

section

variable {sort : List VertexSetIR → List VertexSetIR} {sc : Schedule} {cfg : CodeGenConfig}
  {metaData : MetaData} {pSize : ℕ} {plan : PlanIR} {prog : OmpProgram} {g : Graph}

/-- The iterations of a program without pruning that compiles run over values. -/
theorem runs_of_none (hsc : sc.Connected pSize) (hsort : PermutesOps sort (sc.edge pSize) (sc.restrict pSize) pSize)
    (ht : cfg.adjMatType ≠ .edgeInducedIEP) (hcfg : cfg.pruningType = .none)
    (hplan : genPlan sort sc cfg metaData = .ok (some plan)) (hprog : genCodeOmp plan cfg = .ok prog)
    (hclosed : prog.Closed) (hg : g.Valid) :
    ∀ v < g.numVertex, execVertex MgMachine.absent g prog.body v = some (extensions plan.adjMatType g
      (sc.edge pSize) (sc.restrictBelow pSize) (plan.pSize - 1) [v] : ℤ) := by
  obtain ⟨h, -⟩ := plannedMgs_genPlan hsc hsort hplan
  have hfields := hasIepFields_genPlan hsc hsort hplan
  have huses : usesIep plan cfg = false := by simp [usesIep, ht]
  obtain ⟨prog', hprog', hrun⟩ := genCodeOmp_run (M := MgMachine.absent)
    (planned_of_closed h hfields ht hcfg hprog hclosed) hg hcfg huses
  obtain rfl := Except.ok.inj (hprog'.symm.trans hprog)
  exact hrun

/-- With subtractions no run declares a view of a temporary. -/
theorem lasting_of_vertexInduced {M : MgMachine} (hsc : sc.Connected pSize)
    (hsort : PermutesOps sort (sc.edge pSize) (sc.restrict pSize) pSize)
    (ht : cfg.adjMatType = .vertexInduced) (hplan : genPlan sort sc cfg metaData = .ok (some plan))
    (hprog : genCodeOmp plan cfg = .ok prog) : prog.Always (Lasting (M := M)) g := by
  obtain ⟨h, htype⟩ := plannedMgs_genPlan hsc hsort hplan
  rw [h.genCodeOmp_eq] at hprog
  obtain rfl := Except.ok.inj hprog
  intro v _
  apply Block.always_of_forall
  intro path f stmt hstmt
  cases stmt with
  | declSet id value =>
      rcases declSet_mem_nest hstmt with ⟨op, rfl⟩ | hnone
      · rw [htype, ht]
        exact viewsTemporary_chainExpr
      · exact hnone _
  | _ => rfl

end

/-- In a run of the emitted program without pruning, at every point every set in scope lies in a buffer
that is not free, and none of them changes while it is in scope, if and only if no set is declared as a
view of a temporary of its own chain. -/
theorem pool_undisturbed_iff (sort : List VertexSetIR → List VertexSetIR) (sc : Schedule) (cfg : CodeGenConfig)
    (metaData : MetaData) (pSize : ℕ) (hsc : sc.Connected pSize)
    (hsort : PermutesOps sort (sc.edge pSize) (sc.restrict pSize) pSize)
    (ht : cfg.adjMatType ≠ .edgeInducedIEP) (hcfg : cfg.pruningType = .none) (plan : PlanIR) (prog : OmpProgram)
    (hplan : genPlan sort sc cfg metaData = .ok (some plan)) (hprog : genCodeOmp plan cfg = .ok prog)
    (hclosed : prog.Closed) (g : Graph) (hg : g.Valid) (vs : List ℕ) (hvs : ∀ v ∈ vs, v < g.numVertex) :
    (∃ f, poolThread MgMachine.absent g prog vs = some f ∧ f.Undisturbed g) ↔
      ∀ v ∈ vs, prog.body.Always Lasting g [v] (Frame.start MgMachine.absent v) := by
  have hrun := runs_of_none hsc hsort ht hcfg hplan hprog hclosed hg
  have hiff : (∃ f, poolThread MgMachine.absent g prog vs = some f ∧ f.Undisturbed g ∧ f.pool.Within ⊤) ↔
      ∀ v ∈ vs, prog.body.Always (Intact ⊤) g [v] (Frame.start MgMachine.absent v) :=
    poolThread_intact_iff fun v hv => hrun v (hvs v hv)
  simp only [always_intact_top_iff] at hiff
  rw [← hiff]
  refine exists_congr fun f => and_congr_right fun _ => ?_
  exact (and_iff_left fun _ => le_top).symm

def plainTriangle : Compiled orderedTriangle { adjMatType := .edgeInduced } :=
  (compile orderedTriangle { adjMatType := .edgeInduced }).get (by decide +kernel)

/-- A triangle whose vertices are placed in decreasing order, on four joined vertices. -/
theorem pool_undisturbed_triangle : ∃ plan prog f,
    genPlan (insertionSort VertexSetIR.less) orderedTriangle { adjMatType := .edgeInduced } {} = .ok (some plan) ∧
    genCodeOmp plan { adjMatType := .edgeInduced } = .ok prog ∧
    poolThread MgMachine.absent completeFour prog [3, 1, 2] = some f ∧ f.Undisturbed completeFour := by
  have hlasting : ∀ v ∈ ([3, 1, 2] : List ℕ), plainTriangle.prog.body.Always (Lasting (M := MgMachine.absent))
      completeFour [v] (Frame.start MgMachine.absent v) := by decide +kernel
  obtain ⟨f, hthread, hkept⟩ := (pool_undisturbed_iff _ orderedTriangle { adjMatType := .edgeInduced } {} 3
    inOrder_orderedTriangle.connects (fun _ _ => insertionSort_perm _ _) (by decide) rfl _ _
    plainTriangle.planned plainTriangle.emitted plainTriangle.closed completeFour valid_completeFour [3, 1, 2]
    (by decide)).mpr hlasting
  exact ⟨plainTriangle.plan, plainTriangle.prog, f, plainTriangle.planned, plainTriangle.emitted, hthread, hkept⟩

/-- The path 3, 2, 0, 1. -/
def plainPath : Schedule where
  adjMat := "0110100010010010".toList
  restrictPair := []

theorem inOrder_plainPath : plainPath.InOrder 4 := by
  constructor <;> decide

/-- The path 0, 1, 2 as a data graph. -/
def pathGraph : Graph where
  indices := [1, 0, 2, 1]
  indptr := [0, 1, 3, 4]
  offset := [0, 1, 1]
  numVertex := 3
  numEdge := 4

theorem valid_pathGraph : pathGraph.Valid := by
  constructor <;> decide

def plainPathProgram : Compiled plainPath { adjMatType := .edgeInduced } :=
  (compile plainPath { adjMatType := .edgeInduced }).get (by decide +kernel)

/-- From the vertex in the middle of the path the first vertex is found among the neighbours of the third
and the second is not. -/
theorem pool_disturbed :
    ¬ ∀ (sc : Schedule) (cfg : CodeGenConfig) (metaData : MetaData) (pSize : ℕ) (plan : PlanIR)
      (prog : OmpProgram) (g : Graph) (vs : List ℕ), sc.InOrder pSize → cfg.adjMatType ≠ .edgeInducedIEP →
      cfg.pruningType = .none → genPlan (insertionSort VertexSetIR.less) sc cfg metaData = .ok (some plan) →
      genCodeOmp plan cfg = .ok prog → prog.Closed → g.Valid → (∀ v ∈ vs, v < g.numVertex) →
      ∃ f, poolThread MgMachine.absent g prog vs = some f ∧ f.Undisturbed g := by
  intro hall
  have hfree : (poolThread MgMachine.absent pathGraph plainPathProgram.prog [1]).any
      (fun f => f.points.any fun p => !decide p.Safe) = true := by decide +kernel
  obtain ⟨f, hthread, hsafe, -⟩ := hall plainPath { adjMatType := .edgeInduced } {} 4 _ _ pathGraph [1]
    inOrder_plainPath (by decide) rfl plainPathProgram.planned plainPathProgram.emitted plainPathProgram.closed
    valid_pathGraph (by decide)
  rw [hthread, Option.any_some, List.any_eq_true] at hfree
  obtain ⟨p, hp, hunsafe⟩ := hfree
  simp [hsafe p hp] at hunsafe

end GraphMini
