import GraphMini.Exec.NestSpec

/-!
# Running the loop nest without pruning

Here the denotations of `Exec.NestSpec` meet the program: the statements of an operation, of a depth
and of a loop body.
-/

namespace GraphMini

open VertexSetIR

variable {M : MgMachine} {g : Graph} {path : List ℕ}

namespace Frame

@[simp] theorem declare_env (f : Frame M) (v : Var) (value : v.Ty) :
    (f.declare v value).env = f.env.set v value := rfl

@[simp] theorem declare_counter (f : Frame M) (v : Var) (value : v.Ty) :
    (f.declare v value).counter = f.counter := rfl

@[simp] theorem leave_env (outer inner : Frame M) : (outer.leave inner).env = outer.env := rfl

@[simp] theorem leave_counter (outer inner : Frame M) :
    (outer.leave inner).counter = inner.counter := rfl

end Frame

theorem execStmts_cons {stmt : Stmt} {rest : List Stmt} {f f' : Frame M}
    (h : execStmt g path f stmt = some (.next, f')) :
    execStmts g path (stmt :: rest) f = execStmts g path rest f' := by
  rw [execStmts, h]
  rfl

theorem execStmts_cons_skip {stmt : Stmt} {rest : List Stmt} {f f' : Frame M}
    (h : execStmt g path f stmt = some (.skip, f')) :
    execStmts g path (stmt :: rest) f = some (.skip, f') := by
  rw [execStmts, h]
  rfl

theorem execStmts_append {a b : List Stmt} {f f' : Frame M}
    (h : execStmts g path a f = some (.next, f')) :
    execStmts g path (a ++ b) f = execStmts g path b f' := by
  induction a generalizing f with
  | nil =>
      obtain rfl : f = f' := by simpa [execStmts] using h
      rfl
  | cons stmt a ih =>
      rw [execStmts] at h
      cases hstmt : execStmt g path f stmt with
      | none => simp [hstmt] at h
      | some r =>
          obtain ⟨flow, f₁⟩ := r
          cases flow with
          | skip => simp [hstmt] at h
          | next =>
              rw [List.cons_append, execStmts_cons hstmt]
              exact ih (by simpa [hstmt] using h)

theorem execStmts_append_skip {a b : List Stmt} {f f' : Frame M}
    (h : execStmts g path a f = some (.skip, f')) :
    execStmts g path (a ++ b) f = some (.skip, f') := by
  induction a generalizing f with
  | nil => simp [execStmts] at h
  | cons stmt a ih =>
      rw [execStmts] at h
      cases hstmt : execStmt g path f stmt with
      | none => simp [hstmt] at h
      | some r =>
          obtain ⟨flow, f₁⟩ := r
          cases flow with
          | skip =>
              obtain rfl : f₁ = f' := by simpa [hstmt] using h
              exact execStmts_cons_skip hstmt
          | next =>
              rw [List.cons_append, execStmts_cons hstmt]
              exact ih (by simpa [hstmt] using h)

theorem execStmt_declSet {f : Frame M} {id : ℤ} {value : SetExpr} {s : VertexSet}
    (h : evalSet f.env value = some s) :
    execStmt g path f (.declSet id value) = some (.next, f.declare (.set id) s) := by
  simp [execStmt, h]

theorem execStmt_count {f : Frame M} {amount : CntExpr} {n : ℕ}
    (h : evalCnt f.env amount = some n) :
    execStmt g path f (.count amount) = some (.next, { f with counter := f.counter + n }) := by
  simp [execStmt, h]

theorem execStmt_continueIfEmpty {f : Frame M} {id : ℤ} {s : VertexSet}
    (h : f.env (.set id) = some s) :
    execStmt g path f (.continueIfEmpty id)
      = some (if s.size = 0 then .skip else .next, f) := by
  simp [execStmt, h]

section Ops

variable {edge restrict : ℕ → Finset ℕ} {plan : PlanIR} (h : Planned edge restrict plan)
  (hg : g.Valid) {placed : List ℕ} {dep : ℕ} (hlen : placed.length = dep + 1)

/-- The statements ran through with the sets of `done` ready, or left the body because an operation
of the depth has no candidate. -/
def OpsRun (plan : PlanIR) (g : Graph) (placed : List ℕ) (dep : ℕ) (done : List VertexSetIR)
    (stmts : List Stmt) (path : List ℕ) (f : Frame M) : Prop :=
  ∃ flow f', execStmts g path stmts f = some (flow, f') ∧ f'.counter = f.counter
    ∧ match flow with
      | .next => Ready plan.adjMatType g placed done f'.env
      | .skip => ∃ op ∈ plan.ops dep,
          ∀ x, ¬ Candidate plan.adjMatType g op.edges op.restricts placed (dep + 1) x

include h hg hlen

/-- The statements of one operation. -/
theorem opsRun_opStmts {before after : List VertexSetIR} {op : VertexSetIR}
    (hops : plan.ops dep = before ++ op :: after) (hlast : plan.isLastOp op = false) {f : Frame M}
    (hready : Ready plan.adjMatType g placed (plan.opsBelow dep ++ before) f.env) :
    OpsRun plan g placed dep (plan.opsBelow dep ++ (before ++ [op])) (opStmts plan op) path f := by
  have hop : op ∈ plan.ops dep := by simp [hops]
  have hd : op.loopDepth = dep := h.loopDepth_eq hop
  have hder := h.derivation hops
  have hfresh := h.id_ne hops
  have hdeclare : ∀ s, Denotes plan.adjMatType g placed op s →
      Ready plan.adjMatType g placed (plan.opsBelow dep ++ (before ++ [op]))
        (f.declare (.set op.id) s).env := by
    intro s hs
    rw [← List.append_assoc]
    exact hready.declareSet hs hfresh
  rw [opStmts]
  cases hparent : plan.getParentVset op with
  | some u =>
      rw [hparent] at hder
      cases hder with
      | sibling _ hmem hsame hrestricted =>
          have hdep : u.loopDepth = op.loopDepth := (same_iff.mp hsame).2.2
          obtain ⟨s, heval, hs⟩ := evalSet_sibling h hlen hops hready hmem hsame hrestricted
          simp only [hdep, if_true]
          exact ⟨.next, _, execStmts_cons (execStmt_declSet heval), rfl, hdeclare s hs⟩
      | above _ dep' hdep hmem hsame =>
          have hu : u.loopDepth ≠ op.loopDepth := by
            rw [h.loopDepth_eq hmem]
            omega
          obtain ⟨s, heval, -, hs⟩ := evalSet_above h hg hlen hops hready hdep hmem hsame
          simp only [hu, if_false, hlast, Bool.false_eq_true]
          exact ⟨.next, _, execStmts_cons (execStmt_declSet heval), rfl, hdeclare s hs⟩
  | none =>
      rw [hparent] at hder
      cases hder with
      | root hedges =>
          obtain ⟨s, heval, hs⟩ := evalSet_chainExpr hready hg (by omega) hedges
          simp only [hlast, Bool.false_eq_true, if_false]
          have hcontinue : execStmt g path (f.declare (.set op.id) s) (.continueIfEmpty op.id)
              = some (if s.size = 0 then .skip else .next, f.declare (.set op.id) s) :=
            execStmt_continueIfEmpty (Env.set_self _ _ _)
          by_cases hempty : s.size = 0
          · rw [if_pos hempty] at hcontinue
            refine ⟨.skip, f.declare (.set op.id) s, ?_, rfl, op, hop, fun x hx => ?_⟩
            · rw [execStmts_cons (execStmt_declSet heval), execStmts_cons_skip hcontinue]
            · have hmem : x ∈ s.data := (hs.2 x).mpr (hd.symm ▸ hx)
              simp [List.length_eq_zero_iff.mp hempty] at hmem
          · rw [if_neg hempty] at hcontinue
            refine ⟨.next, f.declare (.set op.id) s, ?_, rfl, hdeclare s hs⟩
            rw [execStmts_cons (execStmt_declSet heval), execStmts_cons hcontinue]
            rfl

/-- The statements of the operations of a depth from some point on. -/
theorem opsRun_flatMap (hlast : dep + 2 ≠ plan.pSize) {before rest : List VertexSetIR}
    (hops : plan.ops dep = before ++ rest) {f : Frame M}
    (hready : Ready plan.adjMatType g placed (plan.opsBelow dep ++ before) f.env) :
    OpsRun plan g placed dep (plan.opsBelow (dep + 1)) (rest.flatMap (opStmts plan)) path f := by
  induction rest generalizing before f with
  | nil =>
      refine ⟨.next, f, rfl, rfl, ?_⟩
      rw [PlanIR.opsBelow_succ, hops, List.append_nil]
      exact hready
  | cons op rest ih =>
      have hnot : plan.isLastOp op = false := by
        simpa [PlanIR.isLastOp, h.loopDepth_eq (show op ∈ plan.ops dep by simp [hops])] using hlast
      obtain ⟨flow, f₁, hrun, hcounter, hflow⟩ := opsRun_opStmts h hg hlen hops hnot hready
      cases flow with
      | skip => exact ⟨.skip, f₁, execStmts_append_skip hrun, hcounter, hflow⟩
      | next =>
          obtain ⟨flow, f₂, hrun₂, hcounter₂, hflow₂⟩ := ih (by simpa using hops) hflow
          refine ⟨flow, f₂, ?_, hcounter₂.trans hcounter, hflow₂⟩
          rw [List.flatMap_cons, execStmts_append hrun, hrun₂]

/-- The operation of the last depth counts its candidates. -/
theorem execStmts_last (hlast : dep + 2 = plan.pSize) {f : Frame M}
    (hready : Ready plan.adjMatType g placed (plan.opsBelow dep) f.env) :
    ∃ flow f', execStmts g path ((plan.ops dep).flatMap (opStmts plan)) f = some (flow, f')
      ∧ f'.counter = f.counter + extensions plan.adjMatType g edge restrict 1 placed := by
  obtain ⟨op, hops⟩ : ∃ op, plan.ops dep = [op] := by
    have hone := h.ops_last
    rw [← hlast] at hone
    exact List.length_eq_one_iff.mp hone
  have hop : op ∈ plan.ops dep := by simp [hops]
  have hd : op.loopDepth = dep := h.loopDepth_eq hop
  have hops' : plan.ops dep = [] ++ op :: [] := hops
  have hready' : Ready plan.adjMatType g placed (plan.opsBelow dep ++ []) f.env := by
    simpa using hready
  have hisLast : plan.isLastOp op = true := by simp [PlanIR.isLastOp, hd, hlast]
  have hder := h.derivation hops'
  -- only the last vertex has a set here
  have hsame : op.same (cut (edge placed.length) (restrict placed.length) dep) = true := by
    obtain ⟨-, v, hlow, hhigh, hsame⟩ := h.ops_sound dep op hop
    obtain rfl : v = placed.length := by omega
    exact hsame
  rw [hops, List.flatMap_singleton, opStmts]
  cases hparent : plan.getParentVset op with
  | some u =>
      rw [hparent] at hder
      cases hder with
      | sibling _ hmem hsame' hrestricted => simp at hmem
      | above _ dep' hdep hmem hsame' =>
          have hu : u.loopDepth ≠ op.loopDepth := by
            rw [h.loopDepth_eq hmem]
            omega
          obtain ⟨s, -, hcnt, hs⟩ := evalSet_above h hg hlen hops' hready' hdep hmem hsame'
          simp only [hu, if_false, hisLast, if_true]
          refine ⟨.next, _, execStmts_cons (execStmt_count hcnt), ?_⟩
          rw [hs.size_eq hsame hlen]
  | none =>
      rw [hparent] at hder
      cases hder with
      | root hedges =>
          obtain ⟨s, heval, hs⟩ := evalSet_chainExpr hready' hg (by omega) hedges
          have hsize := hs.size_eq hsame hlen
          have hcontinue : execStmt g path (f.declare (.set op.id) s) (.continueIfEmpty op.id)
              = some (if s.size = 0 then .skip else .next, f.declare (.set op.id) s) :=
            execStmt_continueIfEmpty (Env.set_self _ _ _)
          simp only [hisLast, if_true]
          by_cases hempty : s.size = 0
          · rw [if_pos hempty] at hcontinue
            refine ⟨.skip, f.declare (.set op.id) s, ?_, ?_⟩
            · rw [execStmts_cons (execStmt_declSet heval), execStmts_cons_skip hcontinue]
            · rw [← hsize, hempty]
              simp
          · rw [if_neg hempty] at hcontinue
            have hcnt : evalCnt (f.declare (.set op.id) s).env (.size (.set op.id))
                = some s.size := by simp [evalCnt, evalSet]
            refine ⟨.next, { f.declare (.set op.id) s with counter := f.counter + s.size }, ?_, ?_⟩
            · rw [execStmts_cons (execStmt_declSet heval), execStmts_cons hcontinue,
                execStmts_cons (execStmt_count hcnt)]
              rfl
            · simp [hsize]

end Ops

end GraphMini
