import GraphMini.Codegen.PlanMgSpec

/-!
# What the generators emit

No check of the generators fails on a plan that `gen_code` hands them, so the statements of a loop
body can be written down. Without pruning there are no mini-graphs, and the same description holds.
-/

namespace GraphMini

open VertexSetIR

/-! ### Statements -/

/-- The set of an operation with a prefix or a sibling, read from a mini-graph. -/
def mgExpr (op : VertexSetIR) (parentId mgId : ℤ) : SetExpr :=
  let upper := upperBound op (.mgAdjVid mgId)
  if op.isEdge op.loopDepth then .intersect (.set parentId) (.mgAdj mgId) upper
  else .subtract (.set parentId) (.mgAdj mgId) upper

/-- The counting form of `mgExpr`. -/
def mgCnt (op : VertexSetIR) (parentId mgId : ℤ) : CntExpr :=
  let upper := upperBound op (.mgAdjVid mgId)
  if op.isEdge op.loopDepth then .intersectCnt (.set parentId) (.mgAdj mgId) upper
  else .subtractCnt (.set parentId) (.mgAdj mgId) upper

/-- The set of an operation that a mini-graph has as an entry. -/
def entryExpr (op : VertexSetIR) (mgId : ℤ) : SetExpr :=
  if op.isRestricted op.loopDepth then .bounded (.mgAdj mgId) (.id op.loopDepth) else .mgAdj mgId

namespace PlanIR

variable (plan : PlanIR)

/-- The operation is an entry of this mini-graph. -/
def isEntry (mg : MiniGraphIR) (op : VertexSetIR) : Bool :=
  mg.computed plan.adjMatType (plan.iter (op.loopDepth - 1)) op

end PlanIR

/-- What `genCodeMgOp` emits when none of its checks fails. -/
def mgOpStmts (plan : PlanIR) (op : VertexSetIR) : List Stmt :=
  match plan.getParentMg op, plan.getParentVset op with
  | some mg, some parent =>
      if plan.isLastOp op then [.count (mgCnt op parent.id mg.id)]
      else
        [.declSet op.id (if plan.isEntry mg op then entryExpr op mg.id else mgExpr op parent.id mg.id),
          .continueIfEmpty op.id]
  | _, _ => opStmts plan op

/-- The mini-graphs of a depth are declared and built one after the other. -/
def mgStmts (plan : PlanIR) (cfg : CodeGenConfig) (mg : MiniGraphIR) : List Stmt :=
  genCodeMgInit plan cfg mg :: genCodeMgBuild plan cfg mg

/-- The statements of a loop body up to its operations. -/
def readStmts (plan : PlanIR) (cfg : CodeGenConfig) (dep : ℕ) : List Stmt :=
  genCodeReadAdj plan cfg dep ++ genCodeMgAdj plan dep

/-- The statements of a loop body with another loop below it. -/
def bodyStmts (plan : PlanIR) (cfg : CodeGenConfig) (dep : ℕ) : List Stmt :=
  readStmts plan cfg dep ++ ((plan.ops dep).flatMap (mgOpStmts plan)
    ++ ((plan.mgs dep).flatMap (mgStmts plan cfg)
      ++ (plan.used (dep + 1)).flatMap fun mg => genCodeMgIndice plan mg dep))

/-- The counts of the inclusion-exclusion mode. -/
def iepStmts (plan : PlanIR) (cfg : CodeGenConfig) : List Stmt :=
  if usesIep plan cfg then (List.range plan.iepGroups.length).map (genCodeIep plan) else []

/-- The statements of the innermost loop body. Before the counts of the inclusion-exclusion mode the
mini-graphs are read first. -/
def lastStmts (plan : PlanIR) (cfg : CodeGenConfig) (dep : ℕ) : List Stmt :=
  (if usesIep plan cfg then genCodeMgAdj plan dep ++ genCodeReadAdj plan cfg dep
    else readStmts plan cfg dep)
    ++ ((plan.ops dep).flatMap (mgOpStmts plan) ++ iepStmts plan cfg)

/-- The loop nest from `dep` on, with `remaining` loops below it. -/
def nest (plan : PlanIR) (cfg : CodeGenConfig) (call : ℕ → Option ParCall) : ℕ → ℕ → Block
  | 0, dep => .last (lastStmts plan cfg dep)
  | remaining + 1, dep =>
      .loop (bodyStmts plan cfg dep) (call (dep + 1)) (dep + 1) (plan.iter dep).id
        (nest plan cfg call remaining (dep + 1))

/-! ### The generators -/

namespace PlannedMgs

variable {edge restrict : ℕ → Finset ℕ} {cfg : CodeGenConfig} {plan : PlanIR}
  (h : PlannedMgs edge restrict cfg plan) {op : VertexSetIR} {mg : MiniGraphIR} {dep : ℕ}

include h

theorem mg_loopDepth (hmg : mg ∈ plan.mgs dep) : mg.loopDepth = dep ∧ mg.intersect.loopDepth = dep :=
  ⟨h.loopDepth_eq (h.mg_sets dep mg hmg).1, h.loopDepth_eq (h.mg_sets dep mg hmg).2⟩

/-- A set that is read from a mini-graph has an edge above its own depth, so it has a parent. -/
theorem exists_parent (hop : op ∈ plan.ops dep) (hmg : plan.getParentMg op = some mg) :
    ∃ parent, plan.getParentVset op = some parent := by
  obtain ⟨-, dep', hlt, hmem, hsup, -⟩ := PlanIR.mem_mgs_of_getParentMg hmg
  have hdep := h.loopDepth_eq hop
  have hder := h.derivation hop
  cases hparent : plan.getParentVset op with
  | some parent => exact ⟨parent, rfl⟩
  | none =>
      rw [hparent] at hder
      cases hder with
      | root hedges =>
          have hint := (h.mg_sets dep' mg hmem).2
          obtain ⟨hpos, -⟩ := h.ops_sound dep' _ hint
          obtain ⟨i, hi⟩ := Finset.card_pos.mp hpos
          have hle : i ≤ dep' := h.loopDepth_eq hint ▸ (h.bounded hint).edges_le i hi
          rw [MiniGraphIR.isSupersetOfSets, Bool.and_eq_true] at hsup
          have hmem' := ((isSupersetOf_iff.mp hsup.2).2 i ((h.bounded hint).edges_le i hi)).1 hi
          rw [hedges, Finset.mem_singleton] at hmem'
          omega

omit h in
theorem loopDepth_of_isEntry (hentry : plan.isEntry mg op = true) :
    op.loopDepth = mg.intersect.loopDepth + 1 := by
  rw [PlanIR.isEntry, MiniGraphIR.computed] at hentry
  split at hentry
  · simp at hentry
  · rename_i hflag
    simp only [Bool.not_eq_true', Bool.not_eq_false, Bool.and_eq_true, decide_eq_true_eq] at hflag
    omega

/-- The last operation is no entry of a mini-graph. -/
theorem isLastOp_of_isEntry (hmg : plan.getParentMg op = some mg) (hentry : plan.isEntry mg op = true) :
    plan.isLastOp op = false := by
  obtain ⟨-, dep', -, hmem, -⟩ := PlanIR.mem_mgs_of_getParentMg hmg
  have hdep := loopDepth_of_isEntry hentry
  have hdep' := (h.mg_loopDepth hmem).2
  have hlow : dep' + 2 ≤ min (plan.pSize - 2) (plan.pSize - plan.iepNum - 1) := h.mg_depth dep' mg hmem
  simp only [PlanIR.isLastOp, beq_eq_false_iff_ne]
  omega

/-- No check of `genCodeMgOp` fails on an operation of a plan. -/
theorem genCodeMgOp_eq (hop : op ∈ plan.ops dep) : genCodeMgOp plan op = .ok (mgOpStmts plan op) := by
  rw [genCodeMgOp, mgOpStmts]
  cases hmg : plan.getParentMg op with
  | none => exact h.genCodeOp_eq hop
  | some mg =>
      obtain ⟨parent, hparent⟩ := h.exists_parent hop hmg
      obtain ⟨-, -, -, -, -, hedge⟩ := PlanIR.mem_mgs_of_getParentMg hmg
      have hdec : op.isEdge op.loopDepth = false → decide (plan.adjMatType = .vertexInduced) = true := by
        intro hnot
        simpa [isEdge] using hedge.resolve_right (by simpa [isEdge] using hnot)
      rw [hparent]
      by_cases hentry : plan.isEntry mg op = true
      · have hlast := h.isLastOp_of_isEntry hmg hentry
        simp only [PlanIR.isEntry] at hentry
        simp [PlanIR.isEntry, hentry, hlast, check, entryExpr, bind, Except.bind, pure, Except.pure]
      · have hentry' : mg.computed plan.adjMatType (plan.iter (op.loopDepth - 1)) op = false := by
          simpa [PlanIR.isEntry] using hentry
        cases hedge' : op.isEdge op.loopDepth with
        | true =>
            cases hlast : plan.isLastOp op <;>
              simp [PlanIR.isEntry, hentry', hedge', mgExpr, mgCnt, bind, Except.bind, pure,
                Except.pure]
        | false =>
            cases hlast : plan.isLastOp op <;>
              simp [PlanIR.isEntry, hentry', hedge', hdec hedge', check, mgExpr, mgCnt, bind,
                Except.bind, pure, Except.pure]

theorem getParentMg_none (hcfg : cfg.pruningType = .none) (op : VertexSetIR) :
    plan.getParentMg op = none := by
  cases hmg : plan.getParentMg op with
  | none => rfl
  | some mg =>
      obtain ⟨-, dep, -, hmem, -⟩ := PlanIR.mem_mgs_of_getParentMg hmg
      simp [h.mgs_none hcfg dep] at hmem

theorem used_none (hcfg : cfg.pruningType = .none) (dep : ℕ) : plan.used dep = [] := by
  refine List.eq_nil_iff_forall_not_mem.mpr fun mg hmg => ?_
  obtain ⟨-, op, -, hop⟩ := (h.mem_used dep mg).mp hmg
  simp [h.getParentMg_none hcfg op] at hop

theorem used_zero : plan.used 0 = [] := by
  refine List.eq_nil_iff_forall_not_mem.mpr fun mg hmg => ?_
  obtain ⟨-, op, hop, hread⟩ := (h.mem_used 0 mg).mp hmg
  exact (PlanIR.mem_mgs_of_getParentMg hread).1 (h.loopDepth_eq hop)

theorem genOps_eq (dep : ℕ) : genOps plan cfg dep = .ok ((plan.ops dep).flatMap (mgOpStmts plan)) := by
  by_cases hcfg : cfg.pruningType = .none
  · rw [h.toPlannedSets.genOps_eq hcfg]
    congr 1
    refine List.flatMap_congr fun op _ => ?_
    simp only [mgOpStmts, h.getParentMg_none hcfg op]
  · have hmap : (plan.ops dep).mapM (genCodeMgOp plan) = .ok ((plan.ops dep).map (mgOpStmts plan)) :=
      Loop.mapM_ok fun op hop => h.genCodeMgOp_eq hop
    simp only [genOps, hcfg, if_false, hmap, List.flatMap_def]
    rfl

theorem genCodeMgAdj_none (hcfg : cfg.pruningType = .none) (dep : ℕ) : genCodeMgAdj plan dep = [] := by
  simp [genCodeMgAdj, h.used_none hcfg]

theorem genLoopBody_eq (dep : ℕ) : genLoopBody plan cfg dep = .ok (bodyStmts plan cfg dep) := by
  rw [genLoopBody, h.genOps_eq]
  by_cases hcfg : cfg.pruningType = .none
  · simp [hcfg, bodyStmts, readStmts, h.genCodeMgAdj_none hcfg, h.mgs_none hcfg, h.used_none hcfg,
      bind, Except.bind, pure, Except.pure]
  · simp only [hcfg, bodyStmts, readStmts, bind, Except.bind, pure, Except.pure, if_false,
      List.append_assoc]
    rfl

theorem genLastBody_eq (dep : ℕ) : genLastBody plan cfg dep = .ok (lastStmts plan cfg dep) := by
  rw [genLastBody, h.genOps_eq]
  by_cases hcfg : cfg.pruningType = .none <;> cases hiep : usesIep plan cfg <;>
    simp [hcfg, hiep, lastStmts, readStmts, iepStmts, h.genCodeMgAdj_none, bind, Except.bind, pure,
      Except.pure]

theorem genNest_eq (call : ℕ → Option ParCall) (remaining dep : ℕ) :
    genNest plan cfg call remaining dep = .ok (nest plan cfg call remaining dep) := by
  induction remaining generalizing dep with
  | zero =>
      rw [genNest, h.genLastBody_eq]
      rfl
  | succ remaining ih =>
      rw [genNest, h.genLoopBody_eq, ih]
      rfl

theorem genCodeOmp_eq :
    genCodeOmp plan cfg = .ok { pSize := plan.pSize, iepRedundancy := plan.iepRedundancy
                                body := nest plan cfg (fun _ => none) (lastDep plan cfg) 0 } := by
  simp only [genCodeOmp, h.genNest_eq]
  rfl

end PlannedMgs

end GraphMini
