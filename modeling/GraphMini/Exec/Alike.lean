import GraphMini.Codegen.Scope
import GraphMini.Exec.Machine
import GraphMini.Lib.Parallel

/-!
# Runs that agree

Two runs of the same statements go the same way if they agree on the mini-graphs and on the variables in
scope. What they add to their counters is the same, whatever the counters are.
-/

namespace GraphMini

variable {M : MgMachine} {g : Graph} {path : List ℕ}

section Eval

variable {env env' : Env}

theorem evalId_congr {e : IdExpr} (h : ∀ v ∈ e.reads, env v = env' v) : evalId env e = evalId env' e := by
  cases e with
  | id dep => exact h (.id dep) (by simp [IdExpr.reads])
  | adjVid dep => exact congrArg (Option.map VertexSet.vid) (h (.adj dep) (by simp [IdExpr.reads]))
  | mgAdjVid mg => exact congrArg (Option.map VertexSet.vid) (h (.mgAdj mg) (by simp [IdExpr.reads]))

theorem evalUpper_congr {upper : Option IdExpr}
    (h : ∀ v ∈ upper.toList.flatMap IdExpr.reads, env v = env' v) :
    evalUpper env upper = evalUpper env' upper := by
  cases upper with
  | none => rfl
  | some e =>
      rw [evalUpper, evalUpper, evalId_congr fun v hv => h v (by simpa using hv)]

theorem evalSet_congr {e : SetExpr} (h : ∀ v ∈ e.reads, env v = env' v) :
    evalSet env e = evalSet env' e := by
  induction e with
  | set id => exact h (.set id) (by simp [SetExpr.reads])
  | adj dep => exact h (.adj dep) (by simp [SetExpr.reads])
  | mgAdj mg => exact h (.mgAdj mg) (by simp [SetExpr.reads])
  | intersect left right upper ihl ihr | subtract left right upper ihl ihr =>
      simp only [SetExpr.reads, List.mem_append] at h
      rw [evalSet, evalSet, ihl fun v hv => h v (Or.inl (Or.inl hv)),
        ihr fun v hv => h v (Or.inl (Or.inr hv)), evalUpper_congr fun v hv => h v (Or.inr hv)]
  | bounded left upper ih | remove left id ih =>
      simp only [SetExpr.reads, List.mem_append] at h
      rw [evalSet, evalSet, ih fun v hv => h v (Or.inl hv), evalId_congr fun v hv => h v (Or.inr hv)]

theorem evalCnt_congr {e : CntExpr} (h : ∀ v ∈ e.reads, env v = env' v) :
    evalCnt env e = evalCnt env' e := by
  cases e with
  | size s => rw [evalCnt, evalCnt, evalSet_congr h]
  | intersectCnt left right upper | subtractCnt left right upper =>
      simp only [CntExpr.reads, List.mem_append] at h
      rw [evalCnt, evalCnt, evalSet_congr fun v hv => h v (Or.inl (Or.inl hv)),
        evalSet_congr fun v hv => h v (Or.inl (Or.inr hv)), evalUpper_congr fun v hv => h v (Or.inr hv)]
  | boundedCnt left upper | removeCnt left id =>
      simp only [CntExpr.reads, List.mem_append] at h
      rw [evalCnt, evalCnt, evalSet_congr fun v hv => h v (Or.inl hv),
        evalId_congr fun v hv => h v (Or.inr hv)]

theorem evalMgIndex_congr {mg : ℤ} {index : MgIndex} (h : ∀ v ∈ index.reads mg, env v = env' v) :
    evalMgIndex env mg index = evalMgIndex env' mg index := by
  cases index with
  | direct dep => exact h (.idx dep) (by simp [MgIndex.reads])
  | lookup setId dep =>
      rw [evalMgIndex, evalMgIndex, h (.mgIndices mg setId) (by simp [MgIndex.reads]),
        h (.idx dep) (by simp [MgIndex.reads])]

end Eval

/-- The results of one statement in two runs. -/
structure SameStep (stmt : Stmt) (f f' : Frame M) (r r' : Flow × Frame M) : Prop where
  flow : r.1 = r'.1
  state : r.2.state = r'.2.state
  counter : r.2.counter - f.counter = r'.2.counter - f'.counter
  declares : ∀ v, stmt.declares = some v → (r'.2.env v).isSome = true ∧ r.2.env v = r'.2.env v
  keeps : ∀ v, stmt.declares ≠ some v → r.2.env v = f.env v ∧ r'.2.env v = f'.env v

section

variable {f f' : Frame M} {stmt : Stmt}

/-- A statement that declares nothing. -/
theorem SameStep.of_none (hnone : stmt.declares = none) {flow : Flow} {state : M.State} (x : ℤ) :
    SameStep stmt f f' (flow, { f with state, counter := f.counter + x })
      (flow, { f' with state, counter := f'.counter + x }) where
  flow := rfl
  state := rfl
  counter := by simp
  declares := fun v hv => by simp [hnone] at hv
  keeps := fun v _ => ⟨rfl, rfl⟩

theorem SameStep.of_same (hnone : stmt.declares = none) (hstate : f.state = f'.state) {flow : Flow} :
    SameStep stmt f f' (flow, f) (flow, f') where
  flow := rfl
  state := hstate
  counter := by simp
  declares := fun v hv => by simp [hnone] at hv
  keeps := fun v _ => ⟨rfl, rfl⟩

theorem SameStep.of_declares (v : Var) (hsome : stmt.declares = some v) (value : v.Ty)
    {state : M.State} :
    SameStep stmt f f' (.next, { f with state, env := f.env.set v value })
      (.next, { f' with state, env := f'.env.set v value }) where
  flow := rfl
  state := rfl
  counter := by simp
  declares := fun w hw => by
    obtain rfl := Option.some.inj (hsome.symm.trans hw)
    simp
  keeps := fun w hw => by
    have hne : w ≠ v := fun heq => hw (heq ▸ hsome)
    exact ⟨Env.set_of_ne _ _ hne, Env.set_of_ne _ _ hne⟩

variable (g path) in
/-- A step that reads the same does the same. -/
theorem execStmt_sameStep (hstate : f.state = f'.state) (h : ∀ v ∈ stmt.reads, f.env v = f'.env v) :
    Option.Rel (SameStep stmt f f') (execStmt g path f stmt) (execStmt g path f' stmt) := by
  cases stmt with
  | declId dep iter =>
      rw [execStmt, execStmt, h (.set iter) (by simp [Stmt.reads]), h (.idx dep) (by simp [Stmt.reads])]
      refine Loop.rel_bind fun s => Loop.rel_bind fun idx => Loop.rel_bind fun id => .some ?_
      rw [Frame.declare, Frame.declare, hstate]
      exact .of_declares (.id dep) rfl id
  | declAdj dep =>
      rw [execStmt, execStmt, h (.id dep) (by simp [Stmt.reads])]
      refine Loop.rel_bind fun id => .some ?_
      rw [Frame.declare, Frame.declare, hstate]
      exact .of_declares (.adj dep) rfl (g.N id)
  | declMgAdj mg index =>
      rw [execStmt, execStmt, h (.mg mg) (by simp [Stmt.reads]), hstate,
        evalMgIndex_congr fun v hv => h v (by simp [Stmt.reads, hv])]
      refine Loop.rel_bind fun _ => Loop.rel_bind fun idx => Loop.rel_bind fun result => .some ?_
      exact .of_declares (.mgAdj mg) rfl result.1
  | declSet id value =>
      rw [execStmt, execStmt, evalSet_congr h]
      refine Loop.rel_bind fun s => .some ?_
      rw [Frame.declare, Frame.declare, hstate]
      exact .of_declares (.set id) rfl s
  | continueIfEmpty id =>
      rw [execStmt, execStmt, h (.set id) (by simp [Stmt.reads])]
      refine Loop.rel_bind fun s => .some ?_
      exact .of_same rfl hstate
  | count amount =>
      rw [execStmt, execStmt, evalCnt_congr h]
      refine Loop.rel_bind fun n => .some ?_
      rw [hstate]
      exact .of_none rfl n
  | countIep val factors =>
      have hfactors : factors.mapM (evalCnt f.env) = factors.mapM (evalCnt f'.env) := by
        refine Loop.mapM_congr fun e he => evalCnt_congr fun v hv => h v ?_
        exact List.mem_flatMap.mpr ⟨e, he, hv⟩
      rw [execStmt, execStmt, hfactors]
      refine Loop.rel_bind fun ns => .some ?_
      rw [hstate]
      exact .of_none rfl _
  | declMg mg type bounded =>
      rw [execStmt, execStmt, hstate]
      exact .some (.of_declares (.mg mg) rfl ())
  | setReuseMultiplier mg summands =>
      have hsummands : (summands.mapM fun summand => summand.1.mapM fun id => f.env (.set id))
          = summands.mapM fun summand => summand.1.mapM fun id => f'.env (.set id) := by
        refine Loop.mapM_congr fun summand hsummand => Loop.mapM_congr fun id hid => h _ ?_
        refine List.mem_cons_of_mem _ (List.mem_flatMap.mpr ⟨summand, hsummand, ?_⟩)
        exact List.mem_map_of_mem hid
      rw [execStmt, execStmt, h (.mg mg) (by simp [Stmt.reads]), hsummands]
      refine Loop.rel_bind fun _ => Loop.rel_bind fun _ => .some ?_
      exact .of_same rfl hstate
  | build mg parent vset vint iter =>
      have hparent : (parent.mapM fun p => f.env (.mg p)) = parent.mapM fun p => f'.env (.mg p) := by
        cases parent with
        | none => rfl
        | some p =>
            rw [Option.mapM_some, Option.mapM_some, h (.mg p) (by simp [Stmt.reads])]
      rw [execStmt, execStmt, h (.mg mg) (by simp [Stmt.reads]), hparent,
        h (.set vset) (by simp [Stmt.reads]), h (.set vint) (by simp [Stmt.reads]),
        h (.set iter) (by simp [Stmt.reads]), hstate]
      refine Loop.rel_bind fun _ => Loop.rel_bind fun _ => Loop.rel_bind fun vertex =>
        Loop.rel_bind fun intersect => Loop.rel_bind fun iter => Loop.rel_bind fun state => .some ?_
      exact ⟨rfl, rfl, by simp, fun v hv => by simp [Stmt.declares] at hv, fun v _ => ⟨rfl, rfl⟩⟩
  | declIndices mg setId =>
      rw [execStmt, execStmt, h (.mg mg) (by simp [Stmt.reads]),
        h (.set setId) (by simp [Stmt.reads]), hstate]
      refine Loop.rel_bind fun _ => Loop.rel_bind fun s => Loop.rel_bind fun indices => .some ?_
      rw [Frame.declare, Frame.declare, hstate]
      exact .of_declares (.mgIndices mg setId) rfl indices

end

/-- Two frames that agree on the variables in scope. `outside` are the mini-graphs that live on although
the first frame has no name for them. -/
structure Alike (outside : ℤ → Bool) (scope : Scope) (f f' : Frame M) : Prop where
  state : f.state = f'.state
  declared : ∀ v ∈ scope, f'.env.declared v = true
  values : ∀ v ∈ scope, f.env v = f'.env v
  alive : ∀ mg, (outside mg || f.env.declared (.mg mg)) = f'.env.declared (.mg mg)

/-- The results of some statements in two runs. -/
structure SameRun (outside : ℤ → Bool) (scope : Scope) (stmts : List Stmt) (f f' : Frame M)
    (r r' : Flow × Frame M) : Prop where
  flow : r.1 = r'.1
  state : r.2.state = r'.2.state
  counter : r.2.counter - f.counter = r'.2.counter - f'.counter
  alike : r.1 = .next → Alike outside (scopeAfter scope stmts) r.2 r'.2

section

variable {outside : ℤ → Bool} {scope : Scope} {f f' : Frame M} {stmt : Stmt} {stmts : List Stmt}
  {r r' : Flow × Frame M}

theorem Alike.step (h : Alike outside scope f f') (hstep : SameStep stmt f f' r r') :
    Alike outside (stmt.declares.toList ++ scope) r.2 r'.2 := by
  constructor
  · exact hstep.state
  · intro v hv
    by_cases hdecl : stmt.declares = some v
    · exact (hstep.declares v hdecl).1
    · rw [Env.declared, (hstep.keeps v hdecl).2]
      refine h.declared v ((List.mem_append.mp hv).resolve_left ?_)
      rwa [Option.mem_toList]
  · intro v hv
    by_cases hdecl : stmt.declares = some v
    · exact (hstep.declares v hdecl).2
    · rw [(hstep.keeps v hdecl).1, (hstep.keeps v hdecl).2]
      refine h.values v ((List.mem_append.mp hv).resolve_left ?_)
      rwa [Option.mem_toList]
  · intro mg
    by_cases hdecl : stmt.declares = some (.mg mg)
    · obtain ⟨hsome, hvalue⟩ := hstep.declares _ hdecl
      rw [Env.declared, Env.declared, hvalue, hsome, Bool.or_true]
    · rw [Env.declared, Env.declared, (hstep.keeps _ hdecl).1, (hstep.keeps _ hdecl).2]
      exact h.alive mg

variable (g path) in
theorem execStmts_sameRun (h : Alike outside scope f f') (hclosed : ClosedStmts scope stmts) :
    Option.Rel (SameRun outside scope stmts f f') (execStmts g path stmts f)
      (execStmts g path stmts f') := by
  induction stmts generalizing scope f f' with
  | nil => exact .some ⟨rfl, h.state, by simp, fun _ => h⟩
  | cons stmt rest ih =>
      obtain ⟨hreads, hclosed⟩ := hclosed
      have hfirst := execStmt_sameStep g path h.state fun v hv =>
        h.values v (hreads hv)
      rw [execStmts, execStmts]
      generalize execStmt g path f stmt = o, execStmt g path f' stmt = o' at hfirst
      cases hfirst with
      | none => exact .none
      | @some r r' hstep =>
          obtain ⟨flow, f₁⟩ := r
          obtain ⟨flow', f₁'⟩ := r'
          obtain rfl : flow = flow' := hstep.flow
          cases flow with
          | skip => exact .some ⟨rfl, hstep.state, hstep.counter, fun hnext => by simp at hnext⟩
          | next =>
              have hrest : Option.Rel (SameRun outside _ rest f₁ f₁') (execStmts g path rest f₁)
                  (execStmts g path rest f₁') := ih (h.step hstep) hclosed
              change Option.Rel _ (execStmts g path rest f₁) (execStmts g path rest f₁')
              generalize execStmts g path rest f₁ = o, execStmts g path rest f₁' = o' at hrest
              cases hrest with
              | none => exact .none
              | some hrun =>
                  refine .some ⟨hrun.flow, hrun.state, ?_, hrun.alike⟩
                  have hfirst : f₁.counter - f.counter = f₁'.counter - f'.counter := hstep.counter
                  have hlater := hrun.counter
                  omega

end

end GraphMini
