import GraphMini.Exec.NestRun

/-!
# What a program without pruning counts

A loop body adds the number of ways to place the vertices that are left, by induction on the loops
below it. From the outermost loop this is the number of embeddings of the pattern.
-/

namespace GraphMini

open VertexSetIR

variable {M : MgMachine} {t : AdjMatType} {g : Graph} {placed : List ℕ} {done : List VertexSetIR}
  {env : Env}

/-- `Ready` reads no variable but those it is about. -/
theorem Ready.of_eq {env' : Env} (h : Ready t g placed done env)
    (hid : ∀ i < placed.length, env' (.id i) = env (.id i))
    (hadj : ∀ i < placed.length, env' (.adj i) = env (.adj i))
    (hset : ∀ id, env' (.set id) = env (.set id)) : Ready t g placed done env' where
  lt := h.lt
  id i hi := (hid i hi).trans (h.id i hi)
  adj i hi := (hadj i hi).trans (h.adj i hi)
  set op hop := by
    rw [hset]
    exact h.set op hop

/-- The vertices after one more has been placed. -/
theorem getD_snoc {x i : ℕ} (hi : i < (placed ++ [x]).length) :
    (i < placed.length ∧ (placed ++ [x]).getD i 0 = placed.getD i 0)
      ∨ (i = placed.length ∧ (placed ++ [x]).getD i 0 = x) := by
  rw [List.length_append, List.length_singleton] at hi
  rcases Nat.lt_succ_iff_lt_or_eq.mp hi with hi | rfl
  · exact Or.inl ⟨hi, List.getD_append _ _ _ _ hi⟩
  · refine Or.inr ⟨rfl, ?_⟩
    rw [List.getD_append_right _ _ _ _ le_rfl]
    simp

/-- The next vertex is placed once its id and its adjacency list are declared. -/
theorem Ready.place {env' : Env} {dep : ℕ} (hlen : placed.length = dep)
    (h : Ready t g placed done env) {x : ℕ} (hx : x < g.numVertex)
    (hdone : ∀ op ∈ done, op.loopDepth < dep)
    (hid : ∀ i < dep, env' (.id i) = env (.id i)) (hadj : ∀ i < dep, env' (.adj i) = env (.adj i))
    (hset : ∀ id, env' (.set id) = env (.set id)) (hidx : env' (.id dep) = some x)
    (hadjx : env' (.adj dep) = some (g.N x)) : Ready t g (placed ++ [x]) done env' := by
  subst hlen
  constructor
  · intro i hi
    rcases getD_snoc hi with ⟨hlt, heq⟩ | ⟨-, heq⟩
    · rw [heq]
      exact h.lt i hlt
    · rwa [heq]
  · intro i hi
    rcases getD_snoc hi with ⟨hlt, heq⟩ | ⟨rfl, heq⟩
    · rw [heq, hid i hlt]
      exact h.id i hlt
    · rw [heq, hidx]
  · intro i hi
    rcases getD_snoc hi with ⟨hlt, heq⟩ | ⟨rfl, heq⟩
    · rw [heq, hadj i hlt]
      exact h.adj i hlt
    · rw [heq, hadjx]
  · intro op hop
    obtain ⟨s, henv, hs⟩ := h.set op hop
    exact ⟨s, (hset op.id).trans henv, hs.append (hdone op hop)⟩

/-- A loop body is entered with the position of its vertex. -/
def Position (plan : PlanIR) (env : Env) (x : ℕ) : ℕ → Prop
  | 0 => env (.id 0) = some x
  | dep + 1 => ∃ (s : VertexSet) (i : ℕ), env (.set (plan.iter dep).id) = some s
      ∧ env (.idx (dep + 1)) = some i ∧ s.data[i]? = some x

section Nest

variable {edge restrict : ℕ → Finset ℕ} {plan : PlanIR} (h : Planned edge restrict plan)
  {cfg : CodeGenConfig} (hcfg : cfg.pruningType = .none) {dep : ℕ}

theorem PlannedSets.opsBelow_loopDepth (h : PlannedSets edge restrict plan) :
    ∀ op ∈ plan.opsBelow dep, op.loopDepth < dep := by
  intro op hop
  obtain ⟨k, hk, hop⟩ := List.mem_flatMap.mp hop
  rw [h.loopDepth_eq hop]
  exact List.mem_range.mp hk

theorem execStmt_declAdj {f : Frame M} {path : List ℕ} {x : ℕ} (hid : f.env (.id dep) = some x) :
    execStmt g path f (.declAdj dep) = some (.next, f.declare (.adj dep) (g.N x)) := by
  simp [execStmt, hid]

include h hcfg

/-- Reading the vertex of a loop body and its adjacency list. -/
theorem execStmts_readAdj {f : Frame M} {path : List ℕ} {x : ℕ} (hlen : placed.length = dep)
    (hready : Ready t g placed (plan.opsBelow dep) f.env) (hx : x < g.numVertex)
    (hpos : Position plan f.env x dep) :
    ∃ f', execStmts g path (genCodeReadAdj plan cfg dep) f = some (.next, f')
      ∧ f'.counter = f.counter ∧ Ready t g (placed ++ [x]) (plan.opsBelow dep) f'.env := by
  cases dep with
  | zero =>
      have hid : f.env (.id 0) = some x := hpos
      have hstmts : genCodeReadAdj plan cfg 0 = [.declAdj 0] := by simp [genCodeReadAdj, hcfg]
      refine ⟨f.declare (.adj 0) (g.N x), ?_, rfl,
        hready.place hlen hx h.opsBelow_loopDepth (by simp) (by simp) ?_ ?_ ?_⟩
      · rw [hstmts, execStmts_cons (execStmt_declAdj hid)]
        rfl
      · simp [Env.set_of_ne]
      · simpa [Env.set_of_ne] using hid
      · simp
  | succ k =>
      obtain ⟨s, i, hs, hi, hget⟩ := hpos
      have hstmts : genCodeReadAdj plan cfg (k + 1)
          = [.declId (k + 1) (plan.iter k).id, .declAdj (k + 1)] := by
        simp [genCodeReadAdj, hcfg]
      have hdeclId : execStmt g path f (.declId (k + 1) (plan.iter k).id)
          = some (.next, f.declare (.id (k + 1)) x) := by
        simp [execStmt, hs, hi, hget]
      have hid : (f.declare (.id (k + 1)) x).env (.id (k + 1)) = some x := by simp
      refine ⟨(f.declare (.id (k + 1)) x).declare (.adj (k + 1)) (g.N x), ?_, rfl,
        hready.place hlen hx h.opsBelow_loopDepth ?_ ?_ ?_ ?_ ?_⟩
      · rw [hstmts, execStmts_cons hdeclId, execStmts_cons (execStmt_declAdj hid)]
        rfl
      · intro j hj
        simp [Env.set_of_ne, hj.ne]
      · intro j hj
        simp [Env.set_of_ne, hj.ne]
      · simp [Env.set_of_ne]
      · simp [Env.set_of_ne]
      · simp

end Nest

/-! ### The loops -/

section Loops

variable {edge restrict : ℕ → Finset ℕ} {plan : PlanIR} (h : Planned edge restrict plan)
  (hg : g.Valid) {cfg : CodeGenConfig} (hcfg : cfg.pruningType = .none)
  {last : ℕ} (hlastDep : last + 2 ≤ plan.pSize) {lastStmts : List Stmt}
  (hlastBody : genLastBody plan cfg last = .ok lastStmts) (weight : List ℕ → ℤ)

/-- What all ways to go on to the innermost loop add up to. -/
abbrev loopTotal (t : AdjMatType) (g : Graph) (edge restrict : ℕ → Finset ℕ)
    (weight : List ℕ → ℤ) : ℕ → List ℕ → ℤ :=
  Completion.total (Finset.range g.numVertex) (Admissible t g edge restrict) weight

/-- The innermost body adds `weight`. -/
def LastBodyAdds (M : MgMachine) (plan : PlanIR) (g : Graph) (last : ℕ) (lastStmts : List Stmt)
    (weight : List ℕ → ℤ) : Prop :=
  ∀ (path : List ℕ) (f : Frame M) (placed : List ℕ) (x : ℕ), placed.length = last →
    x < g.numVertex → Ready plan.adjMatType g placed (plan.opsBelow last) f.env →
    Position plan f.env x last →
    ∃ flow f', execStmts g path lastStmts f = some (flow, f')
      ∧ f'.counter = f.counter + weight (placed ++ [x])

/-- Where a vertex has no candidate, nothing is added. -/
def NothingLeft (t : AdjMatType) (g : Graph) (edge restrict : ℕ → Finset ℕ) (pSize last : ℕ)
    (weight : List ℕ → ℤ) : Prop :=
  ∀ (placed : List ℕ) (k v : ℕ), placed.length + k = last + 1 → placed.length ≤ v → v < pSize →
    (∀ x, ¬ Candidate t g (edge v) (restrict v) placed placed.length x) →
    loopTotal t g edge restrict weight k placed = 0

variable (hadds : LastBodyAdds M plan g last lastStmts weight)
  (hnothing : NothingLeft plan.adjMatType g edge restrict plan.pSize last weight)

include h hg hcfg hlastDep hlastBody hadds hnothing

/-- A loop body adds what all ways to go on from it add up to. -/
theorem execBlock_genNest (call : ℕ → Option ParCall) (remaining dep : ℕ)
    (hdep : dep + remaining = last) :
    ∃ block, genNest plan cfg call remaining dep = .ok block
      ∧ ∀ (path : List ℕ) (f : Frame M) (placed : List ℕ) (x : ℕ), placed.length = dep →
        x < g.numVertex → Ready plan.adjMatType g placed (plan.opsBelow dep) f.env →
        Position plan f.env x dep →
        ∃ f', execBlock g block path f = some f' ∧ f'.counter
          = f.counter + loopTotal plan.adjMatType g edge restrict weight remaining (placed ++ [x]) := by
  induction remaining generalizing dep with
  | zero =>
      obtain rfl : dep = last := by omega
      refine ⟨.last lastStmts, ?_, ?_⟩
      · rw [genNest, hlastBody]
        rfl
      · intro path f placed x hlen hx hready hpos
        obtain ⟨flow, f', hrun, hcounter⟩ := hadds path f placed x hlen hx hready hpos
        exact ⟨f', by rw [execBlock, hrun]; rfl, hcounter⟩
  | succ remaining ih =>
      obtain ⟨body, hbody, hih⟩ := ih (dep + 1) (by omega)
      refine ⟨.loop (genCodeReadAdj plan cfg dep ++ (plan.ops dep).flatMap (opStmts plan))
        (call (dep + 1)) (dep + 1) (plan.iter dep).id body, ?_, ?_⟩
      · rw [genNest, hbody, genLoopBody, h.genOps_eq hcfg]
        simp only [hcfg, if_true]
        rfl
      · intro path f placed x hlen hx hready hpos
        have hlen' : (placed ++ [x]).length = dep + 1 := by simp [hlen]
        obtain ⟨f₁, hrun₁, hcounter₁, hready₁⟩ := execStmts_readAdj h hcfg hlen hready hx hpos
        obtain ⟨flow, f₂, hrun₂, hcounter₂, hflow⟩ := opsRun_flatMap h hg hlen' (by omega)
          (List.nil_append _).symm (by simpa using hready₁)
        rw [execBlock, execStmts_append hrun₁, hrun₂]
        cases flow with
        | skip =>
            -- some vertex has no candidate any more
            obtain ⟨op, hop, hnone⟩ := hflow
            obtain ⟨-, v, hlow, hhigh, hsame⟩ := h.ops_sound dep op hop
            obtain ⟨he, hr, -⟩ := same_iff.mp hsame
            refine ⟨f₂, rfl, ?_⟩
            rw [hnothing (placed ++ [x]) (remaining + 1) v (by omega) (by omega) hhigh ?_]
            · rw [hcounter₂, hcounter₁, add_zero]
            · intro y hy
              rw [hlen'] at hy
              exact hnone y (he ▸ hr ▸ (candidate_cut le_rfl).mpr hy)
        | next =>
            have hiter : plan.iter dep ∈ plan.opsBelow (dep + 1) := by
              rw [PlanIR.opsBelow_succ]
              exact List.mem_append_right _ (h.iter_mem dep (by omega))
            obtain ⟨s, hs, hdenotes⟩ := hflow.set _ hiter
            have hsame := h.iter_same dep (by omega)
            rw [← hlen'] at hsame
            have hround : ∀ (f' : Frame M) (i : ℕ), i ∈ List.range s.size → f'.env = f₂.env →
                ∃ f'', (do
                  let inner ← execBlock g body (path ++ [i]) (f'.declare (.idx (dep + 1)) i)
                  return f'.leave inner : Option (Frame M)) = some f'' ∧ f''.env = f₂.env
                ∧ f''.counter = f'.counter
                  + loopTotal plan.adjMatType g edge restrict weight remaining
                      ((placed ++ [x]) ++ [s.data.getD i 0]) := by
              intro f' i hi henv
              have hi' : i < s.data.length := List.mem_range.mp hi
              have hget : s.data.getD i 0 = s.data[i] := List.getD_eq_getElem _ _ hi'
              have hready' : Ready plan.adjMatType g (placed ++ [x]) (plan.opsBelow (dep + 1))
                  (f'.declare (.idx (dep + 1)) i).env := by
                refine hflow.of_eq ?_ ?_ ?_ <;> intros <;> simp [henv, Env.set_of_ne]
              have hpos' : Position plan (f'.declare (.idx (dep + 1)) i).env (s.data.getD i 0)
                  (dep + 1) := by
                refine ⟨s, i, by simp [henv, Env.set_of_ne, hs], by simp, ?_⟩
                rw [hget, List.getElem?_eq_getElem hi']
              have hlt : s.data.getD i 0 < g.numVertex :=
                ((hdenotes.2 _).mp (hget ▸ List.getElem_mem hi')).1
              obtain ⟨inner, hinner, hcounter⟩ := hih (path ++ [i]) _ (placed ++ [x]) _ hlen' hlt
                hready' hpos'
              exact ⟨f'.leave inner, by rw [hinner]; rfl, henv, hcounter⟩
            obtain ⟨f₃, hrun₃, -, hcounter₃⟩ := Loop.foldlM_some hround rfl
            refine ⟨f₃, by simpa [hs] using hrun₃, ?_⟩
            rw [hcounter₃, hcounter₂, hcounter₁, loopTotal, Completion.total,
              ← hdenotes.sum_map_eq hsame hlen', VertexSet.size, Loop.sum_range_getElem s.data]
            exact fun i hi => by rw [List.getD_eq_getElem _ _ hi]

end Loops

end GraphMini
