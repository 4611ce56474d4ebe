import GraphMini.Codegen.Emission
import GraphMini.Codegen.Scope

/-!
# The scopes of a loop nest

What the statements of a loop body read and declare. A body is closed in a scope that has what the
loops around it leave behind, except for three things that nothing in the plan ensures: an operation
may come before the set it is cut from, an adjacency list may not be read although a deeper operation
takes all earlier vertices out of its set, and a mini-graph may come before the one it is built from.
-/

namespace GraphMini

open VertexSetIR

/-- An earlier element of a list. -/
def Precedes {α : Type} (l : List α) (a b : α) : Prop :=
  ∃ l₁ l₂, l = l₁ ++ b :: l₂ ∧ a ∈ l₁

theorem Precedes.mem {α : Type} {l l₁ l₂ : List α} {a b : α} (h : Precedes l a b) (hl : l.Nodup)
    (hsplit : l = l₁ ++ b :: l₂) : a ∈ l₁ := by
  obtain ⟨l₁', l₂', hsplit', ha⟩ := h
  subst hsplit
  have hnot : b ∉ l₁ := fun hb => by
    exact (List.nodup_append.mp hl).2.2 b hb b (by simp) rfl
  have hnot₂ : b ∉ l₂ := (List.nodup_cons.mp (List.nodup_append.mp hl).2.1).1
  rw [((List.append_cons_inj_of_notMem hnot hnot₂).mp hsplit').1]
  exact ha

section

variable {α : Type} {scope : Scope} {f : α → List Stmt} {l : List α}

/-- Every part is closed in the scope that the parts before it leave. -/
theorem closedStmts_flatMap :
    ClosedStmts scope (l.flatMap f) ↔
      ∀ l₁ a l₂, l = l₁ ++ a :: l₂ → ClosedStmts (scopeAfter scope (l₁.flatMap f)) (f a) := by
  induction l generalizing scope with
  | nil => simp [ClosedStmts]
  | cons b l ih =>
      rw [List.flatMap_cons, closedStmts_append, ih]
      constructor
      · rintro ⟨hfirst, hrest⟩ l₁ a l₂ hl
        cases l₁ with
        | nil =>
            obtain ⟨rfl, rfl⟩ := List.cons.inj hl
            exact hfirst
        | cons c l₁ =>
            rw [List.cons_append] at hl
            obtain ⟨rfl, hrest'⟩ := List.cons.inj hl
            rw [List.flatMap_cons, scopeAfter_append]
            exact hrest l₁ a l₂ hrest'
      · intro hall
        refine ⟨hall [] b l rfl, fun l₁ a l₂ hl => ?_⟩
        have hb := hall (b :: l₁) a l₂ (by rw [hl, List.cons_append])
        rwa [List.flatMap_cons, scopeAfter_append] at hb

theorem mem_scopeAfter_flatMap {v : Var} :
    v ∈ scopeAfter scope (l.flatMap f) ↔
      v ∈ scope ∨ ∃ a ∈ l, ∃ stmt ∈ f a, stmt.declares = some v := by
  rw [mem_scopeAfter]
  simp only [List.mem_flatMap]
  exact or_congr_right ⟨fun ⟨stmt, ⟨a, ha, hstmt⟩, hv⟩ => ⟨a, ha, stmt, hstmt, hv⟩,
    fun ⟨a, ha, stmt, hstmt, hv⟩ => ⟨stmt, ⟨a, ha, hstmt⟩, hv⟩⟩

end

theorem closedStmts_of_reads {scope : Scope} {stmts : List Stmt}
    (h : ∀ stmt ∈ stmts, stmt.reads ⊆ scope) : ClosedStmts scope stmts := by
  induction stmts with
  | nil => trivial
  | cons stmt rest ih =>
      refine ⟨h stmt (by simp), (ih fun stmt hstmt => h stmt (by simp [hstmt])).mono ?_⟩
      exact List.subset_append_right _ _

/-! ### Operations -/

/-- The operation is read off a mini-graph without its own parent set. -/
def PlanIR.readsEntry (plan : PlanIR) (op : VertexSetIR) : Bool :=
  (plan.getParentMg op).any fun mg => plan.isEntry mg op

/-- The variables that an operation without a mini-graph takes its set from. -/
def setReads (plan : PlanIR) (op : VertexSetIR) : List Var :=
  match plan.getParentVset op with
  | some parent => [.set parent.id, if parent.loopDepth = op.loopDepth then .id op.loopDepth
      else .adj op.loopDepth]
  | none => .adj op.loopDepth :: (List.range op.loopDepth).map .adj

/-- The variables that an operation takes its set from. -/
def opReads (plan : PlanIR) (op : VertexSetIR) : List Var :=
  match plan.getParentMg op, plan.getParentVset op with
  | some mg, some parent => .mgAdj mg.id :: if plan.isEntry mg op then [] else [.set parent.id]
  | _, _ => setReads plan op

section

variable {scope : Scope} {plan : PlanIR} {op : VertexSetIR}

theorem mem_reads_chainExpr (t : AdjMatType) (op : VertexSetIR) {v : Var} (hv : v ≠ .id op.loopDepth) :
    v ∈ (chainExpr t op).reads ↔
      v = .adj op.loopDepth ∨ v ∈ (List.range op.loopDepth).map .adj := by
  have hlink : ∀ (value : SetExpr) (i : ℕ),
      v ∈ (chainLink t op value i).reads ↔ v ∈ value.reads ∨ v = .adj i := by
    intro value i
    rw [chainLink]
    split_ifs <;> simp [SetExpr.reads, IdExpr.reads]
  have hfold : ∀ (is : List ℕ) (value : SetExpr),
      v ∈ (is.foldl (chainLink t op) value).reads ↔ v ∈ value.reads ∨ v ∈ is.map Var.adj := by
    intro is
    induction is with
    | nil => simp
    | cons i is ih =>
        intro value
        rw [List.foldl_cons, ih, hlink, List.map_cons, List.mem_cons, or_assoc]
  rw [chainExpr, hfold]
  refine or_congr_left ?_
  split_ifs <;> simp [SetExpr.reads, IdExpr.reads, hv]

theorem reads_mgExpr (op : VertexSetIR) (parentId mgId : ℤ) :
    (mgExpr op parentId mgId).reads ⊆ scope ↔ Var.set parentId ∈ scope ∧ Var.mgAdj mgId ∈ scope := by
  rw [mgExpr, upperBound]
  split_ifs <;> simp [SetExpr.reads, IdExpr.reads]

theorem reads_mgCnt (op : VertexSetIR) (parentId mgId : ℤ) :
    (mgCnt op parentId mgId).reads ⊆ scope ↔ Var.set parentId ∈ scope ∧ Var.mgAdj mgId ∈ scope := by
  rw [mgCnt, upperBound]
  split_ifs <;> simp [SetExpr.reads, CntExpr.reads, IdExpr.reads]

theorem reads_prefixExpr (t : AdjMatType) (op : VertexSetIR) (parentId : ℤ) :
    (prefixExpr t op parentId).reads ⊆ scope ↔
      Var.set parentId ∈ scope ∧ Var.adj op.loopDepth ∈ scope := by
  rw [prefixExpr, upperBound]
  split_ifs <;> simp [SetExpr.reads, IdExpr.reads]

theorem reads_prefixCnt (t : AdjMatType) (op : VertexSetIR) (parentId : ℤ) :
    (prefixCnt t op parentId).reads ⊆ scope ↔
      Var.set parentId ∈ scope ∧ Var.adj op.loopDepth ∈ scope := by
  rw [prefixCnt, upperBound]
  split_ifs <;> simp [SetExpr.reads, CntExpr.reads, IdExpr.reads]

theorem reads_entryExpr (hid : Var.id op.loopDepth ∈ scope) (mgId : ℤ) :
    (entryExpr op mgId).reads ⊆ scope ↔ Var.mgAdj mgId ∈ scope := by
  rw [entryExpr]
  split_ifs <;> simp [SetExpr.reads, IdExpr.reads, hid]

theorem reads_chainExpr (hid : Var.id op.loopDepth ∈ scope) (t : AdjMatType) :
    (chainExpr t op).reads ⊆ scope ↔
      Var.adj op.loopDepth ∈ scope ∧ (List.range op.loopDepth).map Var.adj ⊆ scope := by
  constructor
  · intro hsub
    exact ⟨hsub ((mem_reads_chainExpr t op (by simp)).mpr (Or.inl rfl)),
      fun v hv => hsub ((mem_reads_chainExpr t op (by rintro rfl; simp at hv)).mpr (Or.inr hv))⟩
  · rintro ⟨hadj, hrest⟩ v hv
    by_cases hvid : v = .id op.loopDepth
    · rw [hvid]
      exact hid
    · rcases (mem_reads_chainExpr t op hvid).mp hv with rfl | hv
      · exact hadj
      · exact hrest hv

theorem closed_opStmts (hid : Var.id op.loopDepth ∈ scope) :
    ClosedStmts scope (opStmts plan op) ↔ setReads plan op ⊆ scope := by
  rw [opStmts, setReads]
  cases hparent : plan.getParentVset op with
  | some parent =>
      by_cases hdep : parent.loopDepth = op.loopDepth
      · simp [hdep, ClosedStmts, Stmt.reads, SetExpr.reads, IdExpr.reads, hid]
      · simp only [hdep, if_false]
        split_ifs <;>
          simp [ClosedStmts, Stmt.reads, reads_prefixExpr, reads_prefixCnt]
  | none =>
      have hcount : ClosedStmts (Var.set op.id :: scope)
          (if plan.isLastOp op then [.count (.size (.set op.id))] else []) := by
        split_ifs <;> simp [ClosedStmts, Stmt.reads, CntExpr.reads, SetExpr.reads]
      simp only [ClosedStmts, Stmt.reads, Stmt.declares, reads_chainExpr hid, Option.toList,
        List.singleton_append, List.nil_append, List.cons_subset, List.nil_subset, List.mem_cons,
        true_or, and_true, hcount]

/-- The statements of an operation are closed where the variables it takes its set from are in
scope. -/
theorem closed_mgOpStmts (hid : Var.id op.loopDepth ∈ scope)
    (hlast : plan.readsEntry op = true → plan.isLastOp op = false) :
    ClosedStmts scope (mgOpStmts plan op) ↔ opReads plan op ⊆ scope := by
  rw [mgOpStmts, opReads]
  cases hmg : plan.getParentMg op with
  | none => exact closed_opStmts hid
  | some mg =>
      cases hparent : plan.getParentVset op with
      | none => exact closed_opStmts hid
      | some parent =>
          have hentry : plan.isEntry mg op = true → plan.isLastOp op = false := fun h =>
            hlast (by simp [PlanIR.readsEntry, hmg, h])
          cases hcount : plan.isLastOp op with
          | true =>
              have hnot : plan.isEntry mg op = false := by
                by_contra h
                simp [hentry (by simpa using h)] at hcount
              simp [hnot, ClosedStmts, Stmt.reads, reads_mgCnt, and_comm]
          | false =>
              by_cases h : plan.isEntry mg op = true
              · simp [h, ClosedStmts, Stmt.reads, Stmt.declares, reads_entryExpr hid]
              · simp [h, ClosedStmts, Stmt.reads, Stmt.declares, reads_mgExpr, and_comm]

theorem declares_mgOpStmts (hlast : plan.isLastOp op = false) {v : Var} :
    (∃ stmt ∈ mgOpStmts plan op, stmt.declares = some v) ↔ v = .set op.id := by
  have hset : ∀ value, (∃ stmt ∈ [Stmt.declSet op.id value], stmt.declares = some v) ↔
      v = .set op.id := by
    simp [Stmt.declares, eq_comm (a := v)]
  have hop : (∃ stmt ∈ opStmts plan op, stmt.declares = some v) ↔ v = .set op.id := by
    rw [opStmts]
    split
    · split_ifs <;> simp_all
    · simp [hlast, Stmt.declares, eq_comm (a := v)]
  rw [mgOpStmts]
  split
  · simp [hlast, Stmt.declares, eq_comm (a := v)]
  · exact hop

end

/-! ### Entering a body -/

/-- The adjacency list of the vertex of a depth is read. -/
def PlanIR.ReadsAdj (plan : PlanIR) (cfg : CodeGenConfig) (dep : ℕ) : Prop :=
  cfg.pruningType = .none ∨ ∃ op ∈ plan.ops dep, plan.getParentMg op = none

/-- What the loops around a body leave in scope for it. -/
structure EntersAt (plan : PlanIR) (dep : ℕ) (scope : Scope) : Prop where
  id : dep = 0 → .id 0 ∈ scope
  idx : 0 < dep → .idx dep ∈ scope
  iter : 0 < dep → .set (plan.iter (dep - 1)).id ∈ scope
  above : 0 < dep → ∀ op ∈ plan.ops dep, ∀ parent,
    plan.getParentVsetAt op (dep - 1) = some parent → .set parent.id ∈ scope
  indices : 0 < dep → ∀ mg ∈ plan.used dep, skipBuildIndices mg (plan.iter (dep - 1)) = false →
    .mgIndices mg.id (plan.iter (dep - 1)).id ∈ scope
  used : ∀ dep' ≥ dep, ∀ mg ∈ plan.used dep', mg.loopDepth < dep → .mg mg.id ∈ scope
  fresh : ∀ dep' ≥ dep, ∀ op ∈ plan.ops dep', .set op.id ∉ scope
  freshMg : ∀ dep' ≥ dep, ∀ mg ∈ plan.mgs dep', .mg mg.id ∉ scope

/-- The variables that a body declares before its operations. -/
def Opens (plan : PlanIR) (cfg : CodeGenConfig) (dep : ℕ) (v : Var) : Prop :=
  0 < dep ∧ v = .id dep ∨ plan.ReadsAdj cfg dep ∧ v = .adj dep ∨
    ∃ mg ∈ plan.used dep, 0 < dep ∧ v = .mgAdj mg.id

section

variable {scope : Scope} {plan : PlanIR} {cfg : CodeGenConfig} {dep : ℕ} {v : Var}

theorem mem_scopeAfter_readAdj :
    v ∈ scopeAfter scope (genCodeReadAdj plan cfg dep) ↔
      v ∈ scope ∨ 0 < dep ∧ v = .id dep ∨ plan.ReadsAdj cfg dep ∧ v = .adj dep := by
  have hall : ((plan.ops dep).all fun op => (plan.getParentMg op).isSome) = false ↔
      ∃ op ∈ plan.ops dep, plan.getParentMg op = none := by
    simp
  simp only [mem_scopeAfter, genCodeReadAdj, PlanIR.ReadsAdj, ← hall]
  by_cases hdep : 0 < dep <;> by_cases hcfg : cfg.pruningType = .none <;>
    cases (plan.ops dep).all fun op => (plan.getParentMg op).isSome <;>
      simp [hdep, hcfg, Stmt.declares, eq_comm (a := v)]

theorem mem_scopeAfter_mgAdj :
    v ∈ scopeAfter scope (genCodeMgAdj plan dep) ↔
      v ∈ scope ∨ ∃ mg ∈ plan.used dep, 0 < dep ∧ v = .mgAdj mg.id := by
  rw [mem_scopeAfter, genCodeMgAdj]
  by_cases hdep : dep = 0
  · simp [hdep]
  · simp [hdep, Nat.pos_of_ne_zero hdep, Stmt.declares, eq_comm (a := v)]

theorem mem_scopeAfter_readStmts :
    v ∈ scopeAfter scope (readStmts plan cfg dep) ↔ v ∈ scope ∨ Opens plan cfg dep v := by
  rw [readStmts, scopeAfter_append, mem_scopeAfter_mgAdj, mem_scopeAfter_readAdj, Opens]
  tauto

theorem mem_scopeAfter_readStmts' :
    v ∈ scopeAfter scope (genCodeMgAdj plan dep ++ genCodeReadAdj plan cfg dep) ↔
      v ∈ scope ∨ Opens plan cfg dep v := by
  rw [scopeAfter_append, mem_scopeAfter_readAdj, mem_scopeAfter_mgAdj, Opens, or_assoc]
  exact or_congr_right (by rw [or_comm, or_assoc])

theorem EntersAt.closed_readAdj (hE : EntersAt plan dep scope) :
    ClosedStmts scope (genCodeReadAdj plan cfg dep) := by
  have hadj : ∀ b : Bool, ∀ scope' : Scope, Var.id dep ∈ scope' →
      ClosedStmts scope' (if b then [.declAdj dep] else []) := by
    intro b scope' hid
    cases b <;> simp [ClosedStmts, Stmt.reads, hid]
  rw [genCodeReadAdj]
  refine closedStmts_append.mpr ⟨?_, hadj _ _ ?_⟩
  · split_ifs with hdep
    · simp [ClosedStmts, Stmt.reads, hE.iter hdep, hE.idx hdep]
    · trivial
  · rcases Nat.eq_zero_or_pos dep with rfl | hdep
    · exact mem_scopeAfter.mpr (Or.inl (hE.id rfl))
    · simp [hdep, mem_scopeAfter, Stmt.declares]

/-- The mini-graphs that the operations of a depth read have been built before. -/
theorem EntersAt.closed_mgAdj (hE : EntersAt plan dep scope)
    (hused : ∀ mg ∈ plan.used dep, mg.loopDepth < dep) :
    ClosedStmts scope (genCodeMgAdj plan dep) := by
  rw [genCodeMgAdj]
  split_ifs with hdep
  · trivial
  · have hpos := Nat.pos_of_ne_zero hdep
    refine closedStmts_of_reads fun stmt hstmt => ?_
    obtain ⟨mg, hmg, rfl⟩ := List.mem_map.mp hstmt
    have hin := hE.used dep le_rfl mg hmg (hused mg hmg)
    cases hskip : skipBuildIndices mg (plan.iter (dep - 1)) with
    | true => simp [Stmt.reads, MgIndex.reads, hin, hE.idx hpos]
    | false => simp [Stmt.reads, MgIndex.reads, hin, hE.idx hpos, hE.indices hpos mg hmg hskip]

end

/-! ### The operations of a body -/

/-- The operations of a depth come after what they are cut from. -/
structure PlanIR.OpsFit (plan : PlanIR) (dep : ℕ) (scope : Scope) : Prop where
  sibling : ∀ op ∈ plan.ops dep, plan.readsEntry op = false → ∀ parent,
    plan.getParentVset op = some parent → parent.loopDepth = dep → Precedes (plan.ops dep) parent op
  adj : ∀ op ∈ plan.ops dep, plan.getParentVset op = none → ∀ i < dep, .adj i ∈ scope

/-- The mini-graphs of a depth come after those they are built from. -/
structure PlanIR.MgsFit (plan : PlanIR) (dep : ℕ) (scope : Scope) : Prop where
  here : ∀ mg ∈ plan.mgs dep, ∀ parent, plan.getParentMgOf mg = some parent →
    parent.loopDepth = dep → Precedes (plan.mgs dep) parent mg
  outer : ∀ mg ∈ plan.mgs dep, ∀ parent, plan.getParentMgOf mg = some parent →
    parent.loopDepth < dep → .mg parent.id ∈ scope

/-- The sets that the inclusion-exclusion counts name are those of the innermost loop. -/
def PlanIR.IepFit (plan : PlanIR) (cfg : CodeGenConfig) : Prop :=
  usesIep plan cfg = true → plan.maxDep + 2 < plan.pSize ∧
    ∀ i, (i = 0 ∨ ∃ group ∈ plan.iepGroups, ∃ set ∈ group, i ∈ set) →
      plan.iepSet.getD i {} ∈ plan.ops plan.maxDep

namespace PlannedMgs

variable {edge restrict : ℕ → Finset ℕ} {cfg : CodeGenConfig} {plan : PlanIR} {scope scope' : Scope}
  {dep : ℕ} {op parent : VertexSetIR} {mg : MiniGraphIR}
  (h : PlannedMgs edge restrict cfg plan)

include h

theorem lastOp_of_readsEntry (hop : plan.readsEntry op = true) : plan.isLastOp op = false := by
  obtain ⟨mg, hmg, hentry⟩ := (Option.any_eq_true _ _).mp hop
  exact h.isLastOp_of_isEntry hmg hentry

/-- Only the last depth has an operation that declares nothing, and it is alone there. -/
theorem isLastOp_of_append {l₁ l₂ : List VertexSetIR} (hops : plan.ops dep = l₁ ++ op :: l₂)
    {u : VertexSetIR} (hu : u ∈ l₁) : plan.isLastOp u = false := by
  have hmem : u ∈ plan.ops dep := by simp [hops, hu]
  rw [PlanIR.isLastOp, h.loopDepth_eq hmem, beq_eq_false_iff_ne]
  intro hdep
  have hlen := h.ops_last
  obtain rfl : dep = plan.pSize - 2 := by omega
  rw [hops, List.length_append, List.length_cons] at hlen
  have := List.length_pos_of_mem hu
  omega

/-- The scope in which an operation of a body stands. -/
theorem mem_scope_op (hscope : ∀ v, v ∈ scope' ↔ v ∈ scope ∨ Opens plan cfg dep v)
    {l₁ l₂ : List VertexSetIR} (hops : plan.ops dep = l₁ ++ op :: l₂) {v : Var} :
    v ∈ scopeAfter scope' (l₁.flatMap (mgOpStmts plan)) ↔
      v ∈ scope ∨ Opens plan cfg dep v ∨ ∃ u ∈ l₁, v = .set u.id := by
  rw [mem_scopeAfter_flatMap, hscope, or_assoc]
  refine or_congr_right (or_congr_right ?_)
  constructor
  · rintro ⟨u, hu, hdecl⟩
    exact ⟨u, hu, (declares_mgOpStmts (h.isLastOp_of_append hops hu)).mp hdecl⟩
  · rintro ⟨u, hu, hv⟩
    exact ⟨u, hu, (declares_mgOpStmts (h.isLastOp_of_append hops hu)).mpr hv⟩

/-- A parent at another depth is the prefix one depth above. -/
theorem getParentVsetAt_of_above (hop : op ∈ plan.ops dep)
    (hparent : plan.getParentVset op = some parent) (hdep : parent.loopDepth ≠ dep) :
    0 < dep ∧ plan.getParentVsetAt op (dep - 1) = some parent := by
  have hlevel := h.loopDepth_eq hop
  rw [PlanIR.getParentVset, hlevel] at hparent
  split at hparent
  · rename_i u hfind
    obtain rfl := Option.some.inj hparent
    exact absurd (h.loopDepth_eq (List.mem_of_find?_eq_some hfind)) hdep
  · refine ⟨?_, hparent⟩
    by_contra hzero
    rw [PlanIR.getParentVsetAt, if_neg (by omega)] at hparent
    simp at hparent

theorem nodup_ops (dep : ℕ) : (plan.ops dep).Nodup :=
  (h.ids_lt dep).imp fun hlt heq => hlt.ne (congrArg VertexSetIR.id heq)

theorem mgAdj_opens (hop : op ∈ plan.ops dep) (hle : dep ≤ plan.maxDep)
    (hmg : plan.getParentMg op = some mg) : Opens plan cfg dep (.mgAdj mg.id) := by
  have hpos := (PlanIR.mem_mgs_of_getParentMg hmg).1
  rw [h.loopDepth_eq hop] at hpos
  exact Or.inr (Or.inr ⟨mg, (h.mem_used dep mg).mpr ⟨hle, op, hop, hmg⟩, Nat.pos_of_ne_zero hpos, rfl⟩)

theorem parent_mem (hop : op ∈ plan.ops dep) (hparent : plan.getParentVset op = some parent)
    (hdep : parent.loopDepth = dep) : parent ∈ plan.ops dep := by
  have hder := h.derivation hop
  have hlevel := h.loopDepth_eq hop
  rw [hparent] at hder
  cases hder with
  | sibling _ hmem => exact hmem
  | above _ dep' hdep' hmem =>
      have := h.loopDepth_eq hmem
      omega

/-- A set of its own depth is in scope for an operation if and only if it comes first. -/
theorem sibling_mem_scope (hE : EntersAt plan dep scope) (hparent : parent ∈ plan.ops dep)
    {l₁ l₂ : List VertexSetIR} (hops : plan.ops dep = l₁ ++ op :: l₂)
    (hscope : ∀ v, v ∈ scope' ↔ v ∈ scope ∨ Opens plan cfg dep v ∨ ∃ u ∈ l₁, v = .set u.id) :
    .set parent.id ∈ scope' ↔ parent ∈ l₁ := by
  rw [hscope]
  constructor
  · rintro (hin | hopens | ⟨u, hu, hid⟩)
    · exact absurd hin (hE.fresh dep le_rfl parent hparent)
    · simp [Opens] at hopens
    · have hu' : u ∈ plan.ops dep := by simp [hops, hu]
      rw [h.eq_of_id hparent hu' (Var.set.inj hid)]
      exact hu
  · exact fun hin => Or.inr (Or.inr ⟨parent, hin, rfl⟩)

/-- What an operation needs in scope, apart from what is there anyway. -/
theorem opReads_subset_iff (hE : EntersAt plan dep scope) (hle : dep ≤ plan.maxDep)
    {l₁ l₂ : List VertexSetIR} (hops : plan.ops dep = l₁ ++ op :: l₂)
    (hscope : ∀ v, v ∈ scope' ↔ v ∈ scope ∨ Opens plan cfg dep v ∨ ∃ u ∈ l₁, v = .set u.id) :
    opReads plan op ⊆ scope' ↔
      (plan.readsEntry op = false → ∀ parent, plan.getParentVset op = some parent →
        parent.loopDepth = dep → parent ∈ l₁) ∧
      (plan.getParentVset op = none → ∀ i < dep, .adj i ∈ scope) := by
  have hop : op ∈ plan.ops dep := by simp [hops]
  have hlevel := h.loopDepth_eq hop
  have habove : ∀ parent, plan.getParentVset op = some parent → parent.loopDepth ≠ dep →
      .set parent.id ∈ scope' := by
    intro parent hparent hdep
    obtain ⟨hpos, hat⟩ := h.getParentVsetAt_of_above hop hparent hdep
    exact (hscope _).mpr (Or.inl (hE.above hpos op hop parent hat))
  have hid : Var.id dep ∈ scope' := by
    rcases Nat.eq_zero_or_pos dep with hzero | hpos
    · exact (hscope _).mpr (Or.inl (hzero ▸ hE.id hzero))
    · exact (hscope _).mpr (Or.inr (Or.inl (Or.inl ⟨hpos, rfl⟩)))
  have hadj : plan.getParentMg op = none → .adj dep ∈ scope' := fun hmg =>
    (hscope _).mpr (Or.inr (Or.inl (Or.inr (Or.inl ⟨Or.inr ⟨op, hop, hmg⟩, rfl⟩))))
  have houter : ∀ i < dep, .adj i ∈ scope' ↔ .adj i ∈ scope := by
    intro i hi
    rw [hscope]
    refine or_iff_left ?_
    simp only [Opens, reduceCtorEq, and_false, Var.adj.injEq, false_or, exists_false, or_false,
      not_and]
    omega
  cases hparent : plan.getParentVset op with
  | none =>
      have hmg : plan.getParentMg op = none := by
        cases hmg : plan.getParentMg op with
        | none => rfl
        | some mg =>
            obtain ⟨parent, hsome⟩ := h.exists_parent hop hmg
            simp [hparent] at hsome
      have hlist : opReads plan op = .adj dep :: (List.range dep).map .adj := by
        simp only [opReads, setReads, hmg, hparent, hlevel]
      rw [hlist, List.cons_subset, and_iff_right (hadj hmg)]
      constructor
      · intro hsub
        refine ⟨by simp, fun _ i hi => (houter i hi).mp (hsub ?_)⟩
        exact List.mem_map_of_mem (List.mem_range.mpr hi)
      · rintro ⟨-, hall⟩ v hv
        obtain ⟨i, hi, rfl⟩ := List.mem_map.mp hv
        have hi' := List.mem_range.mp hi
        exact (houter i hi').mpr (hall rfl i hi')
  | some parent =>
      have hset : .set parent.id ∈ scope' ↔ (parent.loopDepth = dep → parent ∈ l₁) := by
        by_cases hdep : parent.loopDepth = dep
        · rw [h.sibling_mem_scope hE (h.parent_mem hop hparent hdep) hops hscope]
          simp [hdep]
        · simp [hdep, habove parent hparent hdep]
      simp only [Option.some.injEq, forall_eq', reduceCtorEq, false_imp_iff, and_true, ← hset]
      cases hmg : plan.getParentMg op with
      | none =>
          have hread : (if parent.loopDepth = dep then Var.id dep else .adj dep) ∈ scope' := by
            split_ifs
            · exact hid
            · exact hadj hmg
          simp [opReads, setReads, hmg, hparent, hlevel, PlanIR.readsEntry, hread]
      | some mg =>
          have hmgAdj : Var.mgAdj mg.id ∈ scope' :=
            (hscope _).mpr (Or.inr (Or.inl (h.mgAdj_opens hop hle hmg)))
          cases hentry : plan.isEntry mg op <;>
            simp [opReads, hmg, hparent, PlanIR.readsEntry, hentry, hmgAdj]

/-- The operations are closed if and only if they come in a good order and the lists they need have
been read. -/
theorem closed_ops_iff (hE : EntersAt plan dep scope) (hle : dep ≤ plan.maxDep)
    (hscope : ∀ v, v ∈ scope' ↔ v ∈ scope ∨ Opens plan cfg dep v) :
    ClosedStmts scope' ((plan.ops dep).flatMap (mgOpStmts plan)) ↔ plan.OpsFit dep scope := by
  have hop : ∀ l₁ op l₂, plan.ops dep = l₁ ++ op :: l₂ →
      (ClosedStmts (scopeAfter scope' (l₁.flatMap (mgOpStmts plan))) (mgOpStmts plan op) ↔
        (plan.readsEntry op = false → ∀ parent, plan.getParentVset op = some parent →
          parent.loopDepth = dep → parent ∈ l₁) ∧
        (plan.getParentVset op = none → ∀ i < dep, .adj i ∈ scope)) := by
    intro l₁ op l₂ hops
    have hmem := fun v => h.mem_scope_op hscope hops (v := v)
    have hlevel := h.loopDepth_eq (show op ∈ plan.ops dep by simp [hops])
    rw [closed_mgOpStmts ?_ h.lastOp_of_readsEntry, h.opReads_subset_iff hE hle hops hmem]
    rw [hlevel, hmem]
    rcases Nat.eq_zero_or_pos dep with hzero | hpos
    · exact Or.inl (hzero ▸ hE.id hzero)
    · exact Or.inr (Or.inl (Or.inl ⟨hpos, rfl⟩))
  rw [closedStmts_flatMap]
  constructor
  · intro hclosed
    constructor
    · intro op hmem hentry parent hparent hdep
      obtain ⟨l₁, l₂, hops⟩ := List.append_of_mem hmem
      have hin := ((hop l₁ op l₂ hops).mp (hclosed l₁ op l₂ hops)).1 hentry parent hparent hdep
      exact ⟨l₁, l₂, hops, hin⟩
    · intro op hmem
      obtain ⟨l₁, l₂, hops⟩ := List.append_of_mem hmem
      exact ((hop l₁ op l₂ hops).mp (hclosed l₁ op l₂ hops)).2
  · rintro ⟨hsibling, hadj⟩ l₁ op l₂ hops
    have hmem : op ∈ plan.ops dep := by simp [hops]
    refine (hop l₁ op l₂ hops).mpr ⟨fun hentry parent hparent hdep => ?_, hadj op hmem⟩
    exact (hsibling op hmem hentry parent hparent hdep).mem (h.nodup_ops dep) hops

/-! ### The mini-graphs of a body -/

omit h in
/-- The sets of the estimate of a mini-graph are sets of its depth. -/
theorem mem_genCodeMgEstVisits {dep' : ℕ} (hiter : plan.iter mg.loopDepth ∈ plan.ops mg.loopDepth)
    {id : ℤ} (hid : id ∈ genCodeMgEstVisits plan mg dep') :
    ∃ u ∈ plan.ops mg.loopDepth, u.id = id := by
  rcases List.mem_cons.mp hid with rfl | hid
  · exact ⟨_, hiter, rfl⟩
  · obtain ⟨dep'', -, hsome⟩ := List.mem_filterMap.mp hid
    obtain ⟨u, hu, rfl⟩ := Option.map_eq_some_iff.mp hsome
    exact ⟨u, PlanIR.getParentVsetAt_mem hu, rfl⟩

/-- A mini-graph is built from sets of its depth, and maybe from another mini-graph. -/
theorem closed_mgStmts (hmg : mg ∈ plan.mgs dep)
    (hops : ∀ u ∈ plan.ops dep, .set u.id ∈ scope) :
    ClosedStmts scope (mgStmts plan cfg mg) ↔
      ∀ parent, plan.getParentMgOf mg = some parent → .mg parent.id ∈ scope := by
  have hlevel := (h.mg_loopDepth hmg).1
  have hdepth := h.mg_depth dep mg hmg
  have hsize : dep + 1 < plan.pSize := by
    simp only [PlanIR.maxDep] at hdepth
    omega
  have hiter := hops _ (h.iter_mem dep hsize)
  have hv := hops _ (h.mg_sets dep mg hmg).1
  have hi := hops _ (h.mg_sets dep mg hmg).2
  have hfactor : ∀ scope' : Scope, .mg mg.id ∈ scope' → scope ⊆ scope' →
      ClosedStmts scope' (if cfg.pruningType = .costModel && !mgShouldEager plan mg then
        [.setReuseMultiplier mg.id (reuseSummands plan mg)] else []) := by
    intro scope' hself hsub
    split_ifs
    · refine ⟨?_, trivial⟩
      rw [Stmt.reads, List.cons_subset]
      refine ⟨hself, fun v hvar => ?_⟩
      obtain ⟨summand, hsummand, hvar⟩ := List.mem_flatMap.mp hvar
      obtain ⟨id, hid, rfl⟩ := List.mem_map.mp hvar
      obtain ⟨dep', -, hsome⟩ := List.mem_filterMap.mp hsummand
      simp only [Option.ite_none_right_eq_some, Option.some.injEq] at hsome
      obtain ⟨-, rfl⟩ := hsome
      obtain ⟨u, hu, rfl⟩ := mem_genCodeMgEstVisits (hlevel.symm ▸ h.iter_mem dep hsize) hid
      exact hsub (hops u (hlevel ▸ hu))
    · trivial
  have hafter : ∀ scope' : Scope, scopeAfter scope' (if cfg.pruningType = .costModel &&
      !mgShouldEager plan mg then [.setReuseMultiplier mg.id (reuseSummands plan mg)] else [])
        = scope' := by
    intro scope'
    split_ifs <;> rfl
  have hbuild : ClosedStmts (.mg mg.id :: scope) [.build mg.id
      ((plan.getParentMgOf mg).map MiniGraphIR.id) mg.vsetId mg.vintId
        (plan.iter mg.loopDepth).id] ↔
      ∀ parent, plan.getParentMgOf mg = some parent → .mg parent.id ∈ scope := by
    simp only [ClosedStmts, Stmt.reads, hlevel, and_true, List.cons_subset, List.append_subset,
      List.mem_cons, true_or, MiniGraphIR.vsetId, MiniGraphIR.vintId, hv, hi, hiter, or_true,
      List.nil_subset, true_and]
    cases hparent : plan.getParentMgOf mg with
    | none => simp
    | some parent =>
        obtain ⟨-, -, -, -, hne, -⟩ := PlanIR.mem_mgs_of_getParentMgOf hparent
        simp [hne]
  rw [mgStmts, genCodeMgInit, genCodeMgBuild, ClosedStmts, closedStmts_append, hafter]
  exact Iff.trans (and_iff_right (List.nil_subset _)) (Iff.trans
    (and_iff_right (hfactor _ (by simp [Stmt.declares]) (List.subset_append_right _ _))) hbuild)

omit h in
theorem declares_mgStmts {v : Var} :
    (∃ stmt ∈ mgStmts plan cfg mg, stmt.declares = some v) ↔ v = .mg mg.id := by
  have hbuild : ∀ stmt ∈ genCodeMgBuild plan cfg mg, stmt.declares = none := by
    intro stmt hstmt
    rw [genCodeMgBuild] at hstmt
    rcases List.mem_append.mp hstmt with hstmt | hstmt
    · split_ifs at hstmt
      · rw [List.mem_singleton.mp hstmt]
        rfl
      · simp at hstmt
    · rw [List.mem_singleton.mp hstmt]
      rfl
  rw [mgStmts, genCodeMgInit]
  constructor
  · rintro ⟨stmt, hstmt, hv⟩
    rcases List.mem_cons.mp hstmt with rfl | hstmt
    · exact (Option.some.inj hv).symm
    · simp [hbuild stmt hstmt] at hv
  · rintro rfl
    exact ⟨_, List.mem_cons_self, rfl⟩

/-- The mini-graphs are closed if and only if they come in a good order and those they need from the
loops around are in scope. -/
theorem closed_mgs_iff (hE : EntersAt plan dep scope)
    (hscope : ∀ v, v ∈ scope' ↔ v ∈ scope ∨ Opens plan cfg dep v ∨ ∃ u ∈ plan.ops dep, v = .set u.id) :
    ClosedStmts scope' ((plan.mgs dep).flatMap (mgStmts plan cfg)) ↔ plan.MgsFit dep scope := by
  have hmem : ∀ (l₁ : List MiniGraphIR) (v : Var),
      v ∈ scopeAfter scope' (l₁.flatMap (mgStmts plan cfg)) ↔
        v ∈ scope' ∨ ∃ m ∈ l₁, v = .mg m.id := by
    intro l₁ v
    rw [mem_scopeAfter_flatMap]
    exact or_congr_right (exists_congr fun m => and_congr_right fun _ => declares_mgStmts)
  have hmg : ∀ l₁ mg l₂, plan.mgs dep = l₁ ++ mg :: l₂ →
      (ClosedStmts (scopeAfter scope' (l₁.flatMap (mgStmts plan cfg))) (mgStmts plan cfg mg) ↔
        ∀ parent, plan.getParentMgOf mg = some parent →
          (parent.loopDepth = dep → parent ∈ l₁) ∧
          (parent.loopDepth < dep → .mg parent.id ∈ scope)) := by
    intro l₁ mg l₂ hmgs
    have hin : mg ∈ plan.mgs dep := by simp [hmgs]
    rw [h.closed_mgStmts hin fun u hu =>
      (hmem l₁ _).mpr (Or.inl ((hscope _).mpr (Or.inr (Or.inr ⟨u, hu, rfl⟩))))]
    refine forall₂_congr fun parent hparent => ?_
    obtain ⟨dep', hle, hparentMem, -⟩ := PlanIR.mem_mgs_of_getParentMgOf hparent
    rw [(h.mg_loopDepth hin).1] at hle
    have hlevel := (h.mg_loopDepth hparentMem).1
    have hsplit : .mg parent.id ∈ scopeAfter scope' (l₁.flatMap (mgStmts plan cfg)) ↔
        .mg parent.id ∈ scope ∨ ∃ m ∈ l₁, parent.id = m.id := by
      simp [hmem, hscope, Opens]
    rw [hsplit, hlevel]
    constructor
    · rintro (hscope' | ⟨m, hm, hid⟩)
      · refine ⟨fun hdep => ?_, fun _ => hscope'⟩
        exact absurd hscope' (hE.freshMg dep' hdep.ge parent hparentMem)
      · have hm' : m ∈ plan.mgs dep := by simp [hmgs, hm]
        obtain rfl := h.mg_id dep' dep parent hparentMem m hm' hid
        have := (h.mg_loopDepth hm').1
        exact ⟨fun _ => hm, fun hlt => by omega⟩
    · rintro ⟨hhere, houter⟩
      rcases hle.eq_or_lt with hdep | hlt
      · exact Or.inr ⟨parent, hhere hdep, rfl⟩
      · exact Or.inl (houter hlt)
  rw [closedStmts_flatMap]
  constructor
  · intro hclosed
    constructor
    · intro mg hin parent hparent hdep
      obtain ⟨l₁, l₂, hmgs⟩ := List.append_of_mem hin
      exact ⟨l₁, l₂, hmgs, ((hmg l₁ mg l₂ hmgs).mp (hclosed l₁ mg l₂ hmgs) parent hparent).1 hdep⟩
    · intro mg hin parent hparent hlt
      obtain ⟨l₁, l₂, hmgs⟩ := List.append_of_mem hin
      exact ((hmg l₁ mg l₂ hmgs).mp (hclosed l₁ mg l₂ hmgs) parent hparent).2 hlt
  · rintro ⟨hhere, houter⟩ l₁ mg l₂ hmgs
    have hin : mg ∈ plan.mgs dep := by simp [hmgs]
    exact (hmg l₁ mg l₂ hmgs).mpr fun parent hparent =>
      ⟨fun hdep => (hhere mg hin parent hparent hdep).mem (h.mg_nodup dep) hmgs,
        houter mg hin parent hparent⟩

/-! ### Whole bodies -/

/-- The mini-graphs that are read at a depth have been built above it. -/
theorem loopDepth_of_used (hmg : mg ∈ plan.used dep) :
    mg.loopDepth < dep ∧ mg ∈ plan.mgs mg.loopDepth := by
  obtain ⟨-, op, hop, hread⟩ := (h.mem_used dep mg).mp hmg
  obtain ⟨-, dep', hlt, hmem, -⟩ := PlanIR.mem_mgs_of_getParentMg hread
  have hlevel := (h.mg_loopDepth hmem).1
  have hdep := h.loopDepth_eq hop
  exact ⟨by omega, hlevel.symm ▸ hmem⟩

theorem not_lastOp (hdep : dep < plan.maxDep) (hop : op ∈ plan.ops dep) : plan.isLastOp op = false := by
  have hlevel := h.loopDepth_eq hop
  simp only [PlanIR.maxDep] at hdep
  rw [PlanIR.isLastOp, beq_eq_false_iff_ne]
  omega

omit h in
theorem mem_scope_ops (hlast : ∀ op ∈ plan.ops dep, plan.isLastOp op = false)
    (hscope : ∀ v, v ∈ scope' ↔ v ∈ scope ∨ Opens plan cfg dep v) {v : Var} :
    v ∈ scopeAfter scope' ((plan.ops dep).flatMap (mgOpStmts plan)) ↔
      v ∈ scope ∨ Opens plan cfg dep v ∨ ∃ u ∈ plan.ops dep, v = .set u.id := by
  rw [mem_scopeAfter_flatMap, hscope, or_assoc]
  exact or_congr_right (or_congr_right (exists_congr fun u =>
    and_congr_right fun hu => declares_mgOpStmts (hlast u hu)))

omit h in
theorem mem_scope_mgs {v : Var} :
    v ∈ scopeAfter scope ((plan.mgs dep).flatMap (mgStmts plan cfg)) ↔
      v ∈ scope ∨ ∃ m ∈ plan.mgs dep, v = .mg m.id := by
  rw [mem_scopeAfter_flatMap]
  exact or_congr_right (exists_congr fun m => and_congr_right fun _ => declares_mgStmts)

omit h in
theorem mem_scope_indices {v : Var} :
    v ∈ scopeAfter scope ((plan.used (dep + 1)).flatMap fun mg => genCodeMgIndice plan mg dep) ↔
      v ∈ scope ∨ ∃ mg ∈ plan.used (dep + 1), skipBuildIndices mg (plan.iter dep) = false ∧
        v = .mgIndices mg.id (plan.iter dep).id := by
  rw [mem_scopeAfter_flatMap]
  refine or_congr_right (exists_congr fun mg => and_congr_right fun _ => ?_)
  cases hskip : skipBuildIndices mg (plan.iter dep) <;>
    simp [genCodeMgIndice, hskip, Stmt.declares, eq_comm (a := v)]

/-- What a body leaves in scope. -/
theorem mem_scope_body (hdep : dep < plan.maxDep) {v : Var} :
    v ∈ scopeAfter scope (bodyStmts plan cfg dep) ↔
      v ∈ scope ∨ Opens plan cfg dep v ∨ (∃ u ∈ plan.ops dep, v = .set u.id) ∨
        (∃ m ∈ plan.mgs dep, v = .mg m.id) ∨
        ∃ mg ∈ plan.used (dep + 1), skipBuildIndices mg (plan.iter dep) = false ∧
          v = .mgIndices mg.id (plan.iter dep).id := by
  rw [bodyStmts, scopeAfter_append, scopeAfter_append, scopeAfter_append, mem_scope_indices,
    mem_scope_mgs, mem_scope_ops (fun op hop => h.not_lastOp hdep hop)
      fun v => mem_scopeAfter_readStmts]
  simp only [or_assoc]

theorem closed_readStmts (hE : EntersAt plan dep scope) : ClosedStmts scope (readStmts plan cfg dep) := by
  have hmg := hE.closed_mgAdj fun mg hmg => (h.loopDepth_of_used hmg).1
  exact closedStmts_append.mpr ⟨hE.closed_readAdj, hmg.mono fun v hv => mem_scopeAfter.mpr (Or.inl hv)⟩

/-- A body is closed if and only if its operations and its mini-graphs are. -/
theorem closed_bodyStmts_iff (hE : EntersAt plan dep scope) (hdep : dep < plan.maxDep) :
    ClosedStmts scope (bodyStmts plan cfg dep) ↔ plan.OpsFit dep scope ∧ plan.MgsFit dep scope := by
  have hops : ∀ v, v ∈ scopeAfter (scopeAfter scope (readStmts plan cfg dep))
      ((plan.ops dep).flatMap (mgOpStmts plan)) ↔
        v ∈ scope ∨ Opens plan cfg dep v ∨ ∃ u ∈ plan.ops dep, v = .set u.id :=
    fun v => mem_scope_ops (fun op hop => h.not_lastOp hdep hop) fun v => mem_scopeAfter_readStmts
  have hindices : ClosedStmts (scopeAfter (scopeAfter (scopeAfter scope (readStmts plan cfg dep))
      ((plan.ops dep).flatMap (mgOpStmts plan))) ((plan.mgs dep).flatMap (mgStmts plan cfg)))
      ((plan.used (dep + 1)).flatMap fun mg => genCodeMgIndice plan mg dep) := by
    refine closedStmts_of_reads fun stmt hstmt => ?_
    obtain ⟨mg, hmg, hstmt⟩ := List.mem_flatMap.mp hstmt
    rw [genCodeMgIndice] at hstmt
    split_ifs at hstmt with hskip
    · simp at hstmt
    · rw [List.mem_singleton.mp hstmt, Stmt.reads]
      obtain ⟨hlt, hmem⟩ := h.loopDepth_of_used hmg
      have hsize : dep + 1 < plan.pSize := by
        simp only [PlanIR.maxDep] at hdep
        omega
      refine List.cons_subset.mpr ⟨?_, List.cons_subset.mpr ⟨?_, List.nil_subset _⟩⟩
      · rw [mem_scope_mgs, hops]
        rcases (Nat.lt_succ_iff.mp hlt).eq_or_lt with heq | hlt'
        · exact Or.inr ⟨mg, heq ▸ hmem, rfl⟩
        · exact Or.inl (Or.inl (hE.used (dep + 1) (Nat.le_succ dep) mg hmg hlt'))
      · rw [mem_scope_mgs, hops]
        exact Or.inl (Or.inr (Or.inr ⟨_, h.iter_mem dep hsize, rfl⟩))
  rw [bodyStmts, closedStmts_append, and_iff_right (h.closed_readStmts hE), closedStmts_append,
    h.closed_ops_iff hE hdep.le (fun v => mem_scopeAfter_readStmts), closedStmts_append,
    h.closed_mgs_iff hE hops, and_iff_left hindices]

omit h in
theorem reads_iepFactor {set : List ℕ} {v : Var} (hv : v ∈ (iepFactor plan set).reads) :
    ∃ i, (i = 0 ∨ i ∈ set) ∧ v = .set (plan.iepSet.getD i {}).id := by
  unfold iepFactor at hv
  split at hv
  · simp only [CntExpr.reads, SetExpr.reads, List.mem_singleton] at hv
    exact ⟨0, Or.inl rfl, hv⟩
  · rename_i i
    simp only [CntExpr.reads, SetExpr.reads, List.mem_singleton] at hv
    exact ⟨i, by simp, hv⟩
  · rename_i i j
    simp only at hv
    split_ifs at hv
    · simp only [CntExpr.reads, SetExpr.reads, List.mem_singleton] at hv
      exact ⟨i, by simp, hv⟩
    · simp only [CntExpr.reads, SetExpr.reads, Option.toList, List.flatMap_nil, List.append_nil,
        List.mem_append, List.mem_singleton] at hv
      rcases hv with hv | hv
      · exact ⟨i, by simp, hv⟩
      · exact ⟨j, by simp, hv⟩
  · rename_i i rest _ _
    have hfold : ∀ (js : List ℕ) (value : SetExpr),
        v ∈ (js.foldl (fun value j => .intersect value (.set (plan.iepSet.getD j {}).id) none)
          value).reads → v ∈ value.reads ∨ ∃ j ∈ js, v = .set (plan.iepSet.getD j {}).id := by
      intro js
      induction js with
      | nil => exact fun value hv => Or.inl hv
      | cons j js ih =>
          intro value hv
          rcases ih _ hv with hv | ⟨j', hj', hv⟩
          · simp only [SetExpr.reads, Option.toList, List.flatMap_nil, List.append_nil,
              List.mem_append, List.mem_singleton] at hv
            exact hv.imp id fun hv => ⟨j, by simp, hv⟩
          · exact Or.inr ⟨j', by simp [hj'], hv⟩
    simp only [CntExpr.reads, Option.toList, List.flatMap_nil, List.append_nil, List.mem_append] at hv
    rcases hv with hv | hv
    · rcases hfold _ _ hv with hv | ⟨j, hj, hv⟩
      · simp only [SetExpr.reads, List.mem_singleton] at hv
        exact ⟨i, by simp, hv⟩
      · exact ⟨j, Or.inr (List.mem_cons_of_mem _ (List.mem_of_mem_dropLast hj)), hv⟩
    · simp only [SetExpr.reads, List.mem_singleton] at hv
      exact ⟨rest.getLastD i, Or.inr List.getLastD_mem_cons, hv⟩

/-- The innermost body is closed if and only if its operations are. -/
theorem closed_lastStmts_iff (hE : EntersAt plan plan.maxDep scope) (hiep : plan.IepFit cfg) :
    ClosedStmts scope (lastStmts plan cfg plan.maxDep) ↔ plan.OpsFit plan.maxDep scope := by
  have hmgAdj := hE.closed_mgAdj fun mg hmg => (h.loopDepth_of_used hmg).1
  cases huses : usesIep plan cfg with
  | false =>
      have hnil : iepStmts plan cfg = [] := by simp [iepStmts, huses]
      simp only [lastStmts, huses, Bool.false_eq_true, if_false, hnil, List.append_nil]
      rw [closedStmts_append, and_iff_right (h.closed_readStmts hE)]
      exact h.closed_ops_iff hE le_rfl fun v => mem_scopeAfter_readStmts
  | true =>
      obtain ⟨hlast, hsets⟩ := hiep huses
      have hopen : ClosedStmts scope
          (genCodeMgAdj plan plan.maxDep ++ genCodeReadAdj plan cfg plan.maxDep) :=
        closedStmts_append.mpr ⟨hmgAdj,
          hE.closed_readAdj.mono fun v hv => mem_scopeAfter.mpr (Or.inl hv)⟩
      have hnot : ∀ op ∈ plan.ops plan.maxDep, plan.isLastOp op = false := by
        intro op hop
        rw [PlanIR.isLastOp, h.loopDepth_eq hop, beq_eq_false_iff_ne]
        omega
      have hcounts : ∀ scope' : Scope, (∀ u ∈ plan.ops plan.maxDep, .set u.id ∈ scope') →
          ClosedStmts scope' (iepStmts plan cfg) := by
        intro scope' hin
        refine closedStmts_of_reads fun stmt hstmt v hv => ?_
        simp only [iepStmts, huses, if_true, List.mem_map, List.mem_range] at hstmt
        obtain ⟨groupId, hgroup, rfl⟩ := hstmt
        obtain ⟨factor, hfactor, hv⟩ := List.mem_flatMap.mp hv
        obtain ⟨set, hset, rfl⟩ := List.mem_map.mp hfactor
        obtain ⟨i, hi, rfl⟩ := reads_iepFactor hv
        rw [List.getD_eq_getElem _ _ hgroup] at hset
        exact hin _ (hsets i (hi.imp id fun hi => ⟨_, List.getElem_mem hgroup, set, hset, hi⟩))
      simp only [lastStmts, huses, if_true]
      rw [closedStmts_append, and_iff_right hopen, closedStmts_append,
        h.closed_ops_iff hE le_rfl fun v => mem_scopeAfter_readStmts']
      refine and_iff_left (hcounts _ fun u hu => ?_)
      rw [mem_scope_ops hnot fun v => mem_scopeAfter_readStmts']
      exact Or.inr (Or.inr ⟨u, hu, rfl⟩)

end PlannedMgs

end GraphMini
