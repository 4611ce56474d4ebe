import GraphMini.Codegen.Nested
import GraphMini.Exec.Alike
import GraphMini.Exec.Store

/-!
# What a loop body adds

The amount that a loop body adds to the counter, by itself: the sum over the rounds of its loop, each of
which starts from the mini-graphs that the body has made. The sequential program adds this amount, since
a round destroys what it has built and reads without changing anything.
-/

namespace GraphMini

/-- What a loop body adds to the counter. -/
def blockTotal (M : MgMachine) (g : Graph) : Block → List ℕ → Env → M.State → Option ℤ
  | .last stmts, path, env, state =>
      (execStmts g path stmts ({ env, state } : Frame M)).map fun result => result.2.counter
  | .loop stmts _ dep iter body, path, env, state => do
      match ← execStmts g path stmts ({ env, state } : Frame M) with
      | (.skip, f) => return f.counter
      | (.next, f) =>
          let s : VertexSet ← f.env (.set iter)
          let rest ← Loop.sumM
            (fun i => blockTotal M g body (path ++ [i]) (f.env.set (.idx dep) i) f.state)
            (List.range s.size)
          return f.counter + rest

theorem Stmt.changes_of_declares {stmt : Stmt} {mg : ℤ} (h : stmt.declares = some (.mg mg)) :
    stmt.changes = some mg := by
  cases stmt with
  | declMg id type bounded =>
      obtain rfl := Var.mg.inj (Option.some.inj h)
      rfl
  | _ => simp [Stmt.declares] at h

namespace Block

/-- No statement declares or builds a mini-graph whose name is taken. -/
def Fresh : (ℤ → Prop) → Block → Prop
  | taken, .last stmts => ∀ stmt ∈ stmts, ∀ mg, stmt.changes = some mg → ¬ taken mg
  | taken, .loop stmts _ _ _ body =>
      (∀ stmt ∈ stmts, ∀ mg, stmt.changes = some mg → ¬ taken mg) ∧
        body.Fresh fun mg => taken mg ∨ ∃ stmt ∈ stmts, stmt.changes = some mg

/-- Every mini-graph has a class whose objects are only read once they are built. -/
def ReadOnly (block : Block) : Prop :=
  ∀ mg type bounded, .declMg mg type bounded ∈ block.stmts → MgType.ReadOnly type

end Block

/-- The mini-graphs of a frame have names in it. -/
def Settled {g : Graph} {layout : Layout} (f : Frame (miniGraphMachine g layout)) : Prop :=
  MgStore.Within (fun mg => f.env.declared (.mg mg)) f.state

section

variable {M : MgMachine} {g : Graph} {path : List ℕ} {stmt : Stmt} {stmts : List Stmt}

theorem execStmt_declared {f f' : Frame M} {flow : Flow} (hrun : execStmt g path f stmt = some (flow, f'))
    (v : Var) : f'.env.declared v = true ↔ f.env.declared v = true ∨ stmt.declares = some v := by
  have hself := execStmt_sameStep g path (rfl : f.state = f.state)
    fun (v : Var) (_ : v ∈ stmt.reads) => rfl
  rw [hrun] at hself
  cases hself with
  | some hstep =>
      by_cases hdecl : stmt.declares = some v
      · simp [hdecl, Env.declared, (hstep.declares v hdecl).1]
      · have hkept : f'.env v = f.env v := (hstep.keeps v hdecl).1
        simp [hdecl, Env.declared, hkept]

theorem execStmts_declared {f f' : Frame M} {flow : Flow} {v : Var}
    (hrun : execStmts g path stmts f = some (flow, f')) (hv : f'.env.declared v = true) :
    f.env.declared v = true ∨ ∃ stmt ∈ stmts, stmt.declares = some v := by
  induction stmts generalizing f with
  | nil =>
      obtain ⟨-, rfl⟩ := Prod.mk.inj (Option.some.inj hrun)
      exact Or.inl hv
  | cons stmt rest ih =>
      rw [execStmts] at hrun
      obtain ⟨⟨flow₁, f₁⟩, hfirst, hrest⟩ := Option.bind_eq_some_iff.mp hrun
      have hin : f₁.env.declared v = true ∨ ∃ stmt ∈ rest, stmt.declares = some v := by
        cases flow₁ with
        | skip =>
            obtain ⟨-, rfl⟩ := Prod.mk.inj (Option.some.inj hrest)
            exact Or.inl hv
        | next => exact ih hrest
      rcases hin with hin | ⟨stmt', hmem, hdecl⟩
      · rcases (execStmt_declared hfirst v).mp hin with hin | hdecl
        · exact Or.inl hin
        · exact Or.inr ⟨stmt, List.mem_cons_self, hdecl⟩
      · exact Or.inr ⟨stmt', List.mem_cons_of_mem _ hmem, hdecl⟩

theorem declared_set (env : Env) (v : Var) (value : v.Ty) {mg : ℤ} (hv : v ≠ .mg mg) :
    (env.set v value).declared (.mg mg) = env.declared (.mg mg) := by
  rw [Env.declared, Env.set_of_ne env value hv.symm]
  rfl

end

section

variable {g : Graph} {layout : Layout} {path : List ℕ} {stmt : Stmt} {stmts : List Stmt}
  {f f' : Frame (miniGraphMachine g layout)} {flow : Flow} {keep : ℤ → Bool} {base : MgStore}

/-- What a statement does to the mini-graphs. -/
inductive StoreStep (g : Graph) (layout : Layout) (path : List ℕ) : Stmt → MgStore → MgStore → Prop where
  | declare {s : MgStore} {mg : ℤ} {type : MgType} {bounded : Bool} :
      StoreStep g layout path (.declMg mg type bounded) s (s.declare mg type bounded)
  | build {s s' : MgStore} {mg : ℤ} {parent : Option ℤ} {vset vint iter : ℤ}
      {vertex intersect iterated : VertexSet}
      (hrun : s.build g layout path mg parent vertex intersect iterated = some s') :
      StoreStep g layout path (.build mg parent vset vint iter) s s'
  | same {stmt : Stmt} {s : MgStore} (hnone : stmt.changes = none) : StoreStep g layout path stmt s s

theorem Settled.storeStep (h : Settled f) (hrun : execStmt g path f stmt = some (flow, f')) :
    StoreStep g layout path stmt f.state f'.state := by
  cases stmt with
  | declMg mg type bounded =>
      obtain ⟨-, rfl⟩ := Prod.mk.inj (Option.some.inj hrun)
      exact .declare
  | build mg parent vset vint iter =>
      simp only [execStmt, Option.bind_eq_bind, Option.bind_eq_some_iff, Option.pure_def,
        Option.some.injEq, Prod.mk.injEq] at hrun
      obtain ⟨_, -, _, -, vertex, -, intersect, -, iterated, -, state, hbuild, -, rfl⟩ := hrun
      exact .build hbuild
  | declMgAdj mg index =>
      simp only [execStmt, Option.bind_eq_bind, Option.bind_eq_some_iff, Option.pure_def,
        Option.some.injEq, Prod.mk.injEq] at hrun
      obtain ⟨_, -, idx, -, ⟨s, state⟩, hN, -, rfl⟩ := hrun
      obtain rfl : state = f.state := MgStore.Within.N_eq h hN
      exact .same rfl
  | setReuseMultiplier mg summands =>
      simp only [execStmt, Option.bind_eq_bind, Option.bind_eq_some_iff, Option.pure_def,
        Option.some.injEq, Prod.mk.injEq] at hrun
      obtain ⟨_, -, _, -, -, rfl⟩ := hrun
      exact .same rfl
  | declId | declIndices =>
      simp only [execStmt, Option.bind_eq_bind, Option.bind_eq_some_iff, Option.pure_def,
        Option.some.injEq, Prod.mk.injEq] at hrun
      obtain ⟨_, -, _, -, _, -, -, rfl⟩ := hrun
      exact .same rfl
  | declAdj | declSet | continueIfEmpty | count | countIep =>
      simp only [execStmt, Option.bind_eq_bind, Option.bind_eq_some_iff, Option.pure_def,
        Option.some.injEq, Prod.mk.injEq] at hrun
      obtain ⟨_, -, -, rfl⟩ := hrun
      exact .same rfl

theorem Settled.step (h : Settled f) (hrun : execStmt g path f stmt = some (flow, f'))
    (htype : ∀ mg type bounded, stmt = .declMg mg type bounded → type.ReadOnly) : Settled f' := by
  have hgrow : MgStore.Within (fun mg => f'.env.declared (.mg mg)) f.state :=
    MgStore.Within.mono h fun mg hmg => (execStmt_declared hrun _).mpr (Or.inl hmg)
  have hstep := h.storeStep hrun
  have hdeclared := execStmt_declared hrun
  rw [Settled]
  generalize hs : f.state = s, hs' : f'.state = s' at hstep hgrow
  cases hstep with
  | declare => exact hgrow.declare ((hdeclared _).mpr (Or.inr rfl)) (htype _ _ _ rfl) _
  | build hbuild => exact hgrow.build hbuild
  | same => exact hgrow

theorem Settled.extends (h : Settled f) (hrun : execStmt g path f stmt = some (flow, f'))
    (hfresh : ∀ mg, stmt.changes = some mg → keep mg = false)
    (hext : MgStore.Extends keep base f.state) : MgStore.Extends keep base f'.state := by
  have hstep := h.storeStep hrun
  rw [Settled] at h
  generalize hs : f.state = s, hs' : f'.state = s' at hstep hext h
  cases hstep with
  | declare => exact hext.declare (hfresh _ rfl) _ _
  | build hbuild => exact hext.build h (hfresh _ rfl) hbuild
  | same => exact hext

/-- Statements of a loop body build on top of what is there. -/
theorem execStmts_settled (h : Settled f) (hrun : execStmts g path stmts f = some (flow, f'))
    (htype : ∀ mg type bounded, .declMg mg type bounded ∈ stmts → type.ReadOnly) :
    Settled f' ∧ ∀ (keep : ℤ → Bool) (base : MgStore),
      (∀ stmt ∈ stmts, ∀ mg, stmt.changes = some mg → keep mg = false) →
      MgStore.Extends keep base f.state → MgStore.Extends keep base f'.state := by
  induction stmts generalizing f with
  | nil =>
      obtain ⟨-, rfl⟩ := Prod.mk.inj (Option.some.inj hrun)
      exact ⟨h, fun _ _ _ hext => hext⟩
  | cons stmt rest ih =>
      rw [execStmts] at hrun
      obtain ⟨⟨flow₁, f₁⟩, hfirst, hrest⟩ := Option.bind_eq_some_iff.mp hrun
      have hsettled := h.step hfirst fun mg type bounded heq => htype mg type bounded (by simp [heq])
      have hext : ∀ (keep : ℤ → Bool) (base : MgStore),
          (∀ stmt' ∈ stmt :: rest, ∀ mg, stmt'.changes = some mg → keep mg = false) →
          MgStore.Extends keep base f.state → MgStore.Extends keep base f₁.state :=
        fun keep base hfresh hbase => h.extends hfirst (hfresh stmt List.mem_cons_self) hbase
      cases flow₁ with
      | skip =>
          obtain ⟨-, rfl⟩ := Prod.mk.inj (Option.some.inj hrest)
          exact ⟨hsettled, hext⟩
      | next =>
          obtain ⟨hlast, hkeep⟩ := ih hsettled hrest fun mg type bounded hmem =>
            htype mg type bounded (List.mem_cons_of_mem _ hmem)
          exact ⟨hlast, fun keep base hfresh hbase => hkeep keep base
            (fun stmt' hmem => hfresh stmt' (List.mem_cons_of_mem _ hmem)) (hext keep base hfresh hbase)⟩

/-- The statements of a loop body, compared with a run of them alone. -/
structure BodyRun (outside : ℤ → Bool) (scope : Scope)
    (taken : ℤ → Prop) (f f₀ : Frame (miniGraphMachine g layout))
    (r r₀ : Flow × Frame (miniGraphMachine g layout)) : Prop where
  flow : r.1 = r₀.1
  state : r.2.state = r₀.2.state
  counter : r.2.counter = f.counter + r₀.2.counter
  builds : MgStore.Extends (fun mg => f₀.env.declared (.mg mg)) f₀.state r₀.2.state
  settled : Settled r₀.2
  taken : ∀ mg, r₀.2.env.declared (.mg mg) = true → taken mg
  alike : r.1 = .next → Alike outside scope r.2 r₀.2

section

variable {f₀ : Frame (miniGraphMachine g layout)} {outside : ℤ → Bool} {scope : Scope}
  {taken : ℤ → Prop}

theorem Alike.restart (h : Alike outside scope f f₀) (counter : ℤ) :
    Alike outside scope f { env := f₀.env, state := f₀.state, counter } :=
  ⟨h.state, h.declared, h.values, h.alive⟩

theorem Settled.restart (h : Settled f) (counter : ℤ) :
    Settled ({ env := f.env, state := f.state, counter } : Frame (miniGraphMachine g layout)) :=
  h

variable (path) in
theorem execStmts_bodyRun (halike : Alike outside scope f f₀) (hcounter : f₀.counter = 0)
    (h : Settled f₀) (hclosed : ClosedStmts scope stmts)
    (htype : ∀ mg type bounded, .declMg mg type bounded ∈ stmts → type.ReadOnly)
    (htaken : ∀ mg, f₀.env.declared (.mg mg) = true → taken mg)
    (hfresh : ∀ stmt ∈ stmts, ∀ mg, stmt.changes = some mg → ¬ taken mg) :
    Option.Rel (BodyRun outside (scopeAfter scope stmts)
        (fun mg => taken mg ∨ ∃ stmt ∈ stmts, stmt.changes = some mg) f f₀)
      (execStmts g path stmts f) (execStmts g path stmts f₀) := by
  have hsame := execStmts_sameRun g path halike hclosed
  cases hrun₀ : execStmts g path stmts f₀ with
  | none =>
      rw [hrun₀] at hsame
      generalize execStmts g path stmts f = o at hsame
      cases hsame
      exact .none
  | some r₀ =>
      rw [hrun₀] at hsame
      generalize execStmts g path stmts f = o at hsame
      cases hsame with
      | @some r _ hsame =>
          obtain ⟨hsettled, hext⟩ := execStmts_settled h hrun₀ htype
          refine .some ⟨hsame.flow, hsame.state, ?_, ?_, hsettled, fun mg hmg => ?_, hsame.alike⟩
          · have := hsame.counter
            omega
          · refine hext _ _ (fun stmt hstmt mg hmg => ?_) (.refl _ _)
            by_contra hdeclared
            exact hfresh stmt hstmt mg hmg (htaken mg (by simpa using hdeclared))
          · rcases execStmts_declared hrun₀ hmg with hin | ⟨stmt, hstmt, hdecl⟩
            · exact Or.inl (htaken mg hin)
            · exact Or.inr ⟨stmt, hstmt, Stmt.changes_of_declares hdecl⟩

theorem BodyRun.builds_left {r r₀ : Flow × Frame (miniGraphMachine g layout)}
    (h : BodyRun outside scope taken f f₀ r r₀) :
    MgStore.Extends (fun mg => f₀.env.declared (.mg mg)) f₀.state r.2.state := by
  rw [h.state]
  exact h.builds

/-- A variable of a loop is set in both frames. -/
theorem Alike.set (h : Alike outside scope f f₀) (v : Var) (value : v.Ty) (hv : ∀ mg, v ≠ .mg mg)
    (counter counter' : ℤ) :
    Alike outside (v :: scope)
      ({ env := f.env.set v value, state := f.state, counter } : Frame (miniGraphMachine g layout))
      { env := f₀.env.set v value, state := f₀.state, counter := counter' } := by
  have hset : ∀ env : Env, (env.set v value) v = some value := fun env => Env.set_self env v value
  have hother : ∀ (env : Env) w, w ≠ v → (env.set v value) w = env w := fun env w hw =>
    Env.set_of_ne env value hw
  constructor
  · exact h.state
  · intro w hw
    change ((f₀.env.set v value) w).isSome = true
    by_cases hsame : w = v
    · rw [hsame, hset]
      rfl
    · rw [hother _ w hsame]
      exact h.declared w ((List.mem_cons.mp hw).resolve_left hsame)
  · intro w hw
    change (f.env.set v value) w = (f₀.env.set v value) w
    by_cases hsame : w = v
    · rw [hsame, hset, hset]
    · rw [hother _ w hsame, hother _ w hsame]
      exact h.values w ((List.mem_cons.mp hw).resolve_left hsame)
  · intro mg
    rw [declared_set f.env v value (hv mg), declared_set f₀.env v value (hv mg)]
    exact h.alive mg

theorem Settled.set (h : Settled f) (v : Var) (value : v.Ty) (hv : ∀ mg, v ≠ .mg mg) (counter : ℤ) :
    Settled ({ env := f.env.set v value, state := f.state, counter } : Frame (miniGraphMachine g layout)) :=
  MgStore.Within.mono h fun mg hmg => by rwa [declared_set f.env v value (hv mg)]

/-- The mini-graphs that are alive at the end of a round are those in scope before it. -/
theorem Settled.leave (h : Settled f₀) {v : Var} {value : v.Ty} (hv : ∀ mg, v ≠ .mg mg)
    {keep : ℤ → Bool} (hkeep : ∀ mg, keep mg = f₀.env.declared (.mg mg)) {s : MgStore}
    (hext : MgStore.Extends (fun mg => (f₀.env.set v value).declared (.mg mg)) f₀.state s) :
    s.leave keep = f₀.state := by
  have hsame : keep = fun mg => (f₀.env.set v value).declared (.mg mg) := by
    funext mg
    rw [declared_set f₀.env v value (hv mg)]
    exact hkeep mg
  rw [hsame]
  exact hext.leave (h.set v value hv 0)

theorem Block.ReadOnly.of_stmts {call : Option ParCall} {dep : ℕ} {iter : ℤ} {body : Block}
    (h : (Block.loop stmts call dep iter body).ReadOnly) :
    ∀ mg type bounded, .declMg mg type bounded ∈ stmts → type.ReadOnly :=
  fun mg type bounded hmem => h mg type bounded (List.mem_append_left _ hmem)

theorem Block.ReadOnly.of_body {call : Option ParCall} {dep : ℕ} {iter : ℤ} {body : Block}
    (h : (Block.loop stmts call dep iter body).ReadOnly) : body.ReadOnly :=
  fun mg type bounded hmem => h mg type bounded (List.mem_append_right _ hmem)

variable (path) in
/-- The sequential program adds the total of a body. -/
theorem execBlock_adds {block : Block} (halike : Alike (fun _ => false) scope f f₀) (h : Settled f₀)
    (hclosed : ClosedBlock scope block) (hread : block.ReadOnly) (hfresh : block.Fresh taken)
    (htaken : ∀ mg, f₀.env.declared (.mg mg) = true → taken mg) :
    Loop.Adds (fun f' => MgStore.Extends (fun mg => f₀.env.declared (.mg mg)) f₀.state f'.state)
      Frame.counter f (blockTotal (miniGraphMachine g layout) g block path f₀.env f₀.state)
      (execBlock g block path f) := by
  induction block generalizing f f₀ path scope taken with
  | last stmts =>
      have hrun := execStmts_bodyRun path (halike.restart 0) rfl (h.restart 0)
        hclosed hread htaken hfresh
      rw [blockTotal, execBlock]
      generalize execStmts g path stmts f = o,
        execStmts g path stmts ({ env := f₀.env, state := f₀.state } : Frame _) = o₀ at hrun ⊢
      cases hrun with
      | none => exact .none
      | some hrun => exact .some ⟨hrun.builds_left, hrun.counter⟩
  | loop stmts call dep iter body ih =>
      obtain ⟨hstmts, -, hiter, hbody⟩ := hclosed
      have hrun := execStmts_bodyRun path (halike.restart 0) rfl (h.restart 0)
        hstmts hread.of_stmts htaken hfresh.1
      rw [blockTotal, execBlock]
      generalize execStmts g path stmts f = o,
        execStmts g path stmts ({ env := f₀.env, state := f₀.state } : Frame _) = o₀ at hrun ⊢
      cases hrun with
      | none => exact .none
      | @some r r₀ hrun =>
          obtain ⟨flow, f₁⟩ := r
          obtain ⟨flow₀, f₂⟩ := r₀
          obtain rfl : flow = flow₀ := hrun.flow
          cases flow with
          | skip => exact .some ⟨hrun.builds_left, hrun.counter⟩
          | next =>
              have halike : Alike _ _ f₁ f₂ := hrun.alike rfl
              have hsettled : Settled f₂ := hrun.settled
              simp only [Option.bind_eq_bind, Option.bind_some, halike.values _ hiter]
              cases hset : f₂.env (.set iter) with
              | none => exact .none
              | some set =>
                  -- every round starts from what the statements have built
                  refine Loop.Adds.shift (Loop.adds_foldlM (fun f' i _ hsame => ?_) ⟨rfl, hrun.state⟩ :
                    Loop.Adds (fun f' => f'.env = f₁.env ∧ f'.state = f₂.state) Frame.counter f₁ _ _)
                    hrun.counter fun f' hf' => ?_
                  · obtain ⟨henv, hstate⟩ := hsame
                    have hround := ih (path ++ [i])
                      (halike.set (.idx dep) i (by simp) f'.counter 0)
                      (hsettled.set (.idx dep) i (by simp) 0) hbody hread.of_body hfresh.2
                      fun mg hmg => hrun.taken mg (by rwa [declared_set _ _ _ (by simp)] at hmg)
                    rw [halike.state] at hround
                    rw [Frame.declare, henv, hstate]
                    change Loop.Adds _ _ _ _ (Option.bind _ fun inner => some (f'.leave inner))
                    refine hround.finish rfl fun inner hinner => ⟨⟨henv, ?_⟩, rfl⟩
                    refine hsettled.leave (by simp) (fun mg => ?_) hinner
                    rw [henv]
                    exact halike.alive mg
                  · rw [hf'.2]
                    exact hrun.builds

end

end

end GraphMini
