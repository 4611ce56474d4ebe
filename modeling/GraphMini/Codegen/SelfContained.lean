import GraphMini.Codegen.NestedScope

/-!
# Self-contained classes

Every variable of the emitted text has one type, so what a call hands over has the type that the other
class declares. A class is self-contained for exactly the plans that are in order from its depth on and
whose mini-graphs below the depth of the class are built from members.
-/

namespace GraphMini

open StdAlgorithm

/-- The declaration has the type that the generators give to its variable. -/
def HasType (plan : PlanIR) (cfg : CodeGenConfig) (d : Decl) : Prop :=
  match d.var with
  | .id _ | .idx _ => d.type = .idType
  | .adj _ | .set _ | .mgAdj _ => d.type = .vertexSet
  | .mgIndices _ _ => d.type = .managedContainer
  | .mg id => ∃ mg ∈ plan.mgs mg.loopDepth, mg.id = id ∧ d.type = .miniGraph (genMgType plan cfg mg)

/-! ### The mini-graphs that a body declares and builds -/

section

variable {plan : PlanIR} {cfg : CodeGenConfig} {dep : ℕ} {id : ℤ} {type : MgType} {bounded : Bool}
  {stmt : Stmt}

theorem changes_readAdj (hin : stmt ∈ genCodeReadAdj plan cfg dep) : stmt.changes = none := by
  rw [genCodeReadAdj] at hin
  rcases List.mem_append.mp hin with hin | hin
  · split_ifs at hin
    · rw [List.mem_singleton.mp hin]
      rfl
    · simp at hin
  · by_cases hread : (!if cfg.pruningType = .none then false
        else (plan.ops dep).all fun op => (plan.getParentMg op).isSome) = true
    · rw [if_pos hread, List.mem_singleton] at hin
      rw [hin]
      rfl
    · rw [if_neg hread] at hin
      simp at hin

theorem changes_mgAdj (hin : stmt ∈ genCodeMgAdj plan dep) : stmt.changes = none := by
  rw [genCodeMgAdj] at hin
  split_ifs at hin
  · simp at hin
  · obtain ⟨mg, -, rfl⟩ := List.mem_map.mp hin
    rfl

theorem changes_op {op : VertexSetIR} (hin : stmt ∈ mgOpStmts plan op) : stmt.changes = none := by
  have hop : ∀ stmt ∈ opStmts plan op, stmt.changes = none := by
    rw [opStmts]
    split <;> split_ifs <;> simp [Stmt.changes]
  rw [mgOpStmts] at hin
  split at hin
  · by_cases hlast : plan.isLastOp op = true
    · rw [if_pos hlast, List.mem_singleton] at hin
      rw [hin]
      rfl
    · rw [if_neg hlast] at hin
      rcases List.mem_pair.mp hin with rfl | rfl <;> rfl
  · exact hop stmt hin

theorem changes_indice {mg : MiniGraphIR} (hin : stmt ∈ genCodeMgIndice plan mg dep) :
    stmt.changes = none := by
  rw [genCodeMgIndice] at hin
  split_ifs at hin
  · simp at hin
  · rw [List.mem_singleton.mp hin]
    rfl

theorem eq_of_mem_mgStmts {mg : MiniGraphIR} (hin : stmt ∈ mgStmts plan cfg mg)
    (hid : stmt.changes = some id) :
    id = mg.id ∧ ∀ type bounded, stmt = .declMg id type bounded → type = genMgType plan cfg mg := by
  rw [mgStmts, genCodeMgInit, genCodeMgBuild] at hin
  rcases List.mem_cons.mp hin with rfl | hin
  · refine ⟨(Option.some.inj hid).symm, fun type bounded heq => ?_⟩
    exact (Stmt.declMg.inj heq).2.1.symm
  · rcases List.mem_append.mp hin with hin | hin
    · split_ifs at hin
      · rw [List.mem_singleton.mp hin] at hid
        simp [Stmt.changes] at hid
      · simp at hin
    · rw [List.mem_singleton.mp hin] at hid ⊢
      exact ⟨(Option.some.inj hid).symm, by simp⟩

/-- A loop body declares and builds the mini-graphs of its own depth. -/
theorem eq_of_mem_bodyStmts (hin : stmt ∈ bodyStmts plan cfg dep) (hid : stmt.changes = some id) :
    ∃ mg ∈ plan.mgs dep, id = mg.id ∧
      ∀ type bounded, stmt = .declMg id type bounded → type = genMgType plan cfg mg := by
  rw [bodyStmts, readStmts] at hin
  simp only [List.mem_append, List.mem_flatMap] at hin
  rcases hin with (hin | hin) | ⟨op, -, hin⟩ | ⟨mg, hmg, hin⟩ | ⟨mg, -, hin⟩
  · simp [changes_readAdj hin] at hid
  · simp [changes_mgAdj hin] at hid
  · simp [changes_op hin] at hid
  · exact ⟨mg, hmg, eq_of_mem_mgStmts hin hid⟩
  · simp [changes_indice hin] at hid

theorem changes_lastStmts (hin : stmt ∈ lastStmts plan cfg dep) : stmt.changes = none := by
  rw [lastStmts, readStmts, iepStmts] at hin
  simp only [List.mem_append, List.mem_flatMap] at hin
  rcases hin with hin | ⟨op, -, hin⟩ | hin
  · split_ifs at hin <;> rcases List.mem_append.mp hin with hin | hin
    · exact changes_mgAdj hin
    · exact changes_readAdj hin
    · exact changes_readAdj hin
    · exact changes_mgAdj hin
  · exact changes_op hin
  · split_ifs at hin
    · obtain ⟨groupId, -, rfl⟩ := List.mem_map.mp hin
      rfl
    · simp at hin

theorem declMg_mem_nest {call : ℕ → Option ParCall} {n : ℕ}
    (hin : .declMg id type bounded ∈ (nest plan cfg call n dep).stmts) :
    ∃ dep', ∃ mg ∈ plan.mgs dep', id = mg.id ∧ type = genMgType plan cfg mg := by
  induction n generalizing dep with
  | zero => simpa [Stmt.changes] using changes_lastStmts hin
  | succ n ih =>
      rw [nest, Block.stmts] at hin
      rcases List.mem_append.mp hin with hin | hin
      · obtain ⟨mg, hmg, hid, htype⟩ := eq_of_mem_bodyStmts hin (rfl : Stmt.changes _ = some id)
        exact ⟨dep, mg, hmg, hid, htype type bounded rfl⟩
      · exact ih hin

theorem mem_calls_nest {call : ℕ → Option ParCall} {n : ℕ} {c : ParCall}
    (hin : c ∈ (nest plan cfg call n dep).calls) : ∃ loop > dep, call loop = some c := by
  induction n generalizing dep with
  | zero => simp [nest, Block.calls] at hin
  | succ n ih =>
      rw [nest, Block.calls] at hin
      rcases List.mem_append.mp hin with hin | hin
      · exact ⟨dep + 1, by omega, by simpa using hin⟩
      · obtain ⟨loop, hlt, hcall⟩ := ih hin
        exact ⟨loop, by omega, hcall⟩

end

namespace PlannedMgs

variable {edge restrict : ℕ → Finset ℕ} {cfg : CodeGenConfig} {plan : PlanIR} {loop : ℕ}
  (h : PlannedMgs edge restrict cfg plan)

include h

/-- A variable has one type. -/
theorem type_unique {d d' : Decl} (hd : HasType plan cfg d) (hd' : HasType plan cfg d')
    (hvar : d.var = d'.var) : d.type = d'.type := by
  rw [HasType, hvar] at hd
  rw [HasType] at hd'
  cases hv : d'.var with
  | mg id =>
      simp only [hv] at hd hd'
      obtain ⟨mg, hmg, hid, htype⟩ := hd
      obtain ⟨mg', hmg', hid', htype'⟩ := hd'
      obtain rfl := h.mg_id _ _ mg hmg mg' hmg' (hid.trans hid'.symm)
      exact htype.trans htype'.symm
  | _ =>
      simp only [hv] at hd hd'
      exact hd.trans hd'.symm

theorem hasType_member {member : Decl} (hmember : member ∈ genMembers plan cfg loop) :
    HasType plan cfg member := by
  simp only [genMembers, List.mem_append, List.mem_map] at hmember
  rcases hmember with ((⟨i, -, rfl⟩ | ⟨u, -, rfl⟩) | hmember) | hmember
  · rfl
  · rfl
  · split_ifs at hmember
    · rw [List.mem_singleton.mp hmember]
      rfl
    · simp at hmember
  · by_cases hcfg : cfg.pruningType = .none
    · simp [hcfg] at hmember
    · rw [if_pos hcfg] at hmember
      rcases List.mem_append.mp hmember with hmember | hmember
      · obtain ⟨mg, -, rfl⟩ := List.mem_map.mp hmember
        rfl
      · obtain ⟨mg, hmg, rfl⟩ := List.mem_map.mp hmember
        exact ⟨mg, h.mem_mgs_of_genUsedMg hmg, rfl, rfl⟩

theorem hasType_nest {call : ℕ → Option ParCall} {n dep : ℕ} {d : Decl}
    (hd : d ∈ (nest plan cfg call n dep).stmts.filterMap Stmt.decl) : HasType plan cfg d := by
  obtain ⟨stmt, hstmt, hdecl⟩ := List.mem_filterMap.mp hd
  cases stmt with
  | declMg id type bounded =>
      obtain rfl := Option.some.inj hdecl
      obtain ⟨dep', mg, hmg, rfl, rfl⟩ := declMg_mem_nest hstmt
      exact ⟨mg, (h.mg_loopDepth hmg).1.symm ▸ hmg, rfl, rfl⟩
  | declId | declAdj | declMgAdj | declSet | declIndices =>
      obtain rfl := Option.some.inj hdecl
      rfl
  | _ => simp [Stmt.decl] at hdecl

/-- The generators of a class and of the calls in it agree on what the class takes. -/
theorem passes_of_call {call : ParCall} {n : ℕ} {body : Block}
    (hcall : call ∈ (nest plan cfg (genCodeTbbCall plan cfg) n loop).calls) :
    LoopClass.Passes
      { members := genMembers plan cfg loop, body := nest plan cfg (genCodeTbbCall plan cfg) n loop }
      call { members := genMembers plan cfg call.loop, body } := by
  obtain ⟨loop', hlt, hcall⟩ := mem_calls_nest hcall
  obtain ⟨-, -, rfl, -, hargs, -⟩ := genCodeTbbCall_eq_some hcall
  refine ⟨hargs (by omega), fun member hmember d hd hvar => ?_⟩
  refine h.type_unique ?_ (h.hasType_member hmember) hvar
  rcases List.mem_append.mp hd with hd | hd
  · exact h.hasType_member hd
  · exact h.hasType_nest hd

theorem genCodeTbbLoop_eq (loop : ℕ) :
    genCodeTbbLoop plan cfg loop = .ok
      (if (cfg.parType = .nestedRt ∧ loop + 1 < plan.getSerialLoop) ∧ parallelSize plan = none then none
        else some {
          members := genMembers plan cfg loop
          body := nest plan cfg (genCodeTbbCall plan cfg) (lastDep plan cfg - loop) loop }) := by
  rw [genCodeTbbLoop, h.genNest_eq]
  rfl

end PlannedMgs

/-- A class is self-contained, and passes on what the classes it calls declare, if and only if the plan
is in order from its depth on, the mini-graphs that are built below its depth are built from members,
and the adjacency lists it passes on have been read. -/
theorem loop_selfContained_iff (sort : List VertexSetIR → List VertexSetIR) (sc : Schedule)
    (cfg : CodeGenConfig) (metaData : MetaData) (pSize : ℕ) (hsc : sc.Connected pSize)
    (hsort : PermutesOps sort (sc.edge pSize) (sc.restrict pSize) pSize)
    (hgroups : cfg.adjMatType = .edgeInducedIEP → ∀ group ∈ sc.inExclusionOptimizeGroup,
      ∀ set ∈ group, ∀ i ∈ set, i < sc.inExclusionOptimizeNum)
    (plan : PlanIR) (hplan : genPlan sort sc cfg metaData = .ok (some plan)) (loop : ℕ)
    (hloop : loop < plan.getSerialLoop) (cls : LoopClass)
    (hcls : genCodeTbbLoop plan cfg loop = .ok (some cls)) :
    (cls.SelfContained loop ∧ ∀ call ∈ cls.body.calls,
      ∃ target, genCodeTbbLoop plan cfg call.loop = .ok (some target) ∧ cls.Passes call target) ↔
    plan.InOrderFrom cfg loop ∧ plan.CapturesParents loop ∧ plan.ReadsForCalls cfg loop := by
  obtain ⟨h, -⟩ := plannedMgs_genPlan hsc hsort hplan
  have hfields := hasIepFields_genPlan hsc hsort hplan
  have hiep : plan.IepFit cfg := by
    intro huses
    have ht : cfg.adjMatType = .edgeInducedIEP := by
      simp only [usesIep, Bool.and_eq_true, decide_eq_true_eq] at huses
      exact huses.1
    exact h.iepFit hfields (hgroups ht) huses
  have hle : loop ≤ plan.maxDep := by
    have := plan.serialLoop_le
    omega
  rw [h.genCodeTbbLoop_eq, h.lastDep_eq hfields] at hcls
  by_cases hdivides : (cfg.parType = .nestedRt ∧ loop + 1 < plan.getSerialLoop) ∧ parallelSize plan = none
  · simp [hdivides] at hcls
  rw [if_neg hdivides] at hcls
  obtain rfl := Option.some.inj (Except.ok.inj hcls)
  rw [← h.closed_class_iff hiep (Nat.add_sub_of_le hle)]
  refine and_iff_left fun call hcall => ?_
  obtain ⟨loop', hlt, hcalled⟩ := mem_calls_nest hcall
  obtain ⟨hserial, -, hcallLoop, -⟩ := PlannedMgs.genCodeTbbCall_eq_some hcalled
  -- the size tests of the called class have the divisors of the tests of this one
  have htarget := h.genCodeTbbLoop_eq call.loop
  rw [if_neg fun hdiv => hdivides ⟨⟨hdiv.1.1, by omega⟩, hdiv.2⟩] at htarget
  exact ⟨_, htarget, h.passes_of_call hcall⟩

/-- A vertex that is joined to all vertices of a path. -/
def fan : Schedule where
  adjMat := "0111110100110101010110010".toList
  restrictPair := []

theorem inOrder_fan : fan.InOrder 5 := by
  constructor <;> decide

theorem loop_selfContained_fan :
    ∃ plan, genPlan (insertionSort VertexSetIR.less) fan { pruningType := .eager, parType := .nested } {}
        = .ok (some plan) ∧ plan.CapturesParents 1 := by
  have htest : (genPlan (insertionSort VertexSetIR.less) fan
      { pruningType := .eager, parType := .nested } {}).toOption.join.any (fun plan =>
        decide (1 < plan.getSerialLoop) &&
          (genCodeTbbLoop plan { pruningType := .eager, parType := .nested } 1).toOption.join.any
            fun cls => decide (cls.SelfContained 1) && cls.body.calls.all fun call =>
              (genCodeTbbLoop plan { pruningType := .eager, parType := .nested }
                call.loop).toOption.join.any fun target => decide (cls.Passes call target)) = true := by
    decide +kernel
  obtain ⟨plan, hplan, htest⟩ := Loop.exists_ok_some_of_any htest
  simp only [Bool.and_eq_true, decide_eq_true_eq] at htest
  obtain ⟨hloop, htest⟩ := htest
  obtain ⟨cls, hcls, htest⟩ := Loop.exists_ok_some_of_any htest
  simp only [Bool.and_eq_true, decide_eq_true_eq, List.all_eq_true] at htest
  have hcalls : ∀ call ∈ cls.body.calls, ∃ target,
      genCodeTbbLoop plan { pruningType := .eager, parType := .nested } call.loop = .ok (some target) ∧
        cls.Passes call target := by
    intro call hcall
    obtain ⟨target, htarget, hpass⟩ := Loop.exists_ok_some_of_any (htest.2 call hcall)
    exact ⟨target, htarget, of_decide_eq_true hpass⟩
  exact ⟨plan, hplan, ((loop_selfContained_iff _ fan _ {} 5 inOrder_fan.connects
    (fun _ _ => insertionSort_perm _ _) (by simp) plan hplan 1 hloop cls hcls).mp
      ⟨htest.1, hcalls⟩).2.1⟩

/-- Seven vertices whose edges skip depths: a mini-graph of depth 3 is built from one of depth 0 that no
operation reads from depth 2 on. -/
def skippingAncestry : Schedule where
  adjMat := "0110111101110111010010110100110101110001001110100".toList
  restrictPair := []

theorem inOrder_skippingAncestry : skippingAncestry.InOrder 7 := by
  constructor <;> decide

theorem loop_not_selfContained :
    ¬ ∀ (sc : Schedule) (cfg : CodeGenConfig) (metaData : MetaData) (pSize : ℕ), sc.InOrder pSize →
      cfg.pruningType ≠ .none →
      ∀ plan, genPlan (insertionSort VertexSetIR.less) sc cfg metaData = .ok (some plan) →
        ∀ loop < plan.getSerialLoop, ∀ cls, genCodeTbbLoop plan cfg loop = .ok (some cls) →
          cls.SelfContained loop := by
  intro hall
  have htest : (genPlan (insertionSort VertexSetIR.less) skippingAncestry
      { pruningType := .eager, parType := .nested } {}).toOption.join.any (fun plan =>
        decide (2 < plan.getSerialLoop) &&
          (genCodeTbbLoop plan { pruningType := .eager, parType := .nested } 2).toOption.join.any
            fun cls => !decide (cls.SelfContained 2)) = true := by decide +kernel
  obtain ⟨plan, hplan, htest⟩ := Loop.exists_ok_some_of_any htest
  simp only [Bool.and_eq_true, decide_eq_true_eq] at htest
  obtain ⟨hloop, htest⟩ := htest
  obtain ⟨cls, hcls, hopen⟩ := Loop.exists_ok_some_of_any htest
  have hclosed := hall skippingAncestry _ {} 7 inOrder_skippingAncestry (by decide) plan hplan 2 hloop
    cls hcls
  simp [hclosed] at hopen

end GraphMini
