import GraphMini.Codegen.BodyScope
import GraphMini.Exec.Always
import GraphMini.Exec.Count
import GraphMini.Exec.EntrySpec
import GraphMini.Exec.StoreSpec
import GraphMini.Exec.Total

/-!
# What the frames of a run hold

The invariant of a run with pruning: a variable that is in scope holds what its name says, for the
vertices that have been placed, and a mini-graph that is in scope has been built from the sets that it
names. Then the first statements of a loop body: they place the vertex of the body and read its lists.
-/

namespace GraphMini

open VertexSetIR MgStore

/-- The mini-graphs of a frame. -/
abbrev Frame.store {g : Graph} {layout : Layout} (f : Frame (miniGraphMachine g layout)) : MgStore :=
  f.state

/-- The positions that a build stores fit into their cells, and where the program has mini-graphs of
`MiniGraphCostModel`, a build of one reaches its entries. -/
def BuildFits (cfg : CodeGenConfig) (g : Graph) (layout : Layout) :
    StmtPred (miniGraphMachine g layout) := fun path f stmt =>
  match stmt with
  | .build mg parent vset vint iter =>
      ∀ vertex ∈ (f.env (.set vset) : Option VertexSet),
        ∀ intersect ∈ (f.env (.set vint) : Option VertexSet),
          ∀ iterated ∈ (f.env (.set iter) : Option VertexSet),
            ∀ req ∈ MgStore.request layout path f.store mg parent vertex intersect iterated,
              req.OffsetsFit g f.store.objects ∧
                (cfg.pruningType = .costModel → req.type = .costModel → req.ReachesIter)
  | _ => True

instance (req : BuildRequest) (g : Graph) (objects : List MiniGraph) :
    Decidable (req.OffsetsFit g objects) :=
  inferInstanceAs (Decidable (_ < _))

instance (cfg : CodeGenConfig) (g : Graph) (layout : Layout) (path : List ℕ)
    (f : Frame (miniGraphMachine g layout)) (stmt : Stmt) : Decidable (BuildFits cfg g layout path f stmt) := by
  unfold BuildFits
  split <;> infer_instance

section Checks

variable (g : Graph) (layout : Layout)

/-- The set lies in the vertex set of the mini-graph. -/
def Covered (state : MgStore) (mg : ℤ) (s : VertexSet) : Prop :=
  match state.object mg with
  | some m => s.data ⊆ m.vertex.data
  | none => False

instance (state : MgStore) (mg : ℤ) (s : VertexSet) : Decidable (Covered state mg s) := by
  unfold Covered
  split <;> infer_instance

/-- Each call of `indices`, for an iterated set or for the vertex set of a child, gets a set within the
vertex set, and so does `MiniGraphLazy::build` with its iter set; no assertion fails. -/
def AssertionsHold : StmtPred (miniGraphMachine g layout) := fun path f stmt =>
  match stmt with
  | .declIndices mg setId =>
      match (f.env (.set setId) : Option VertexSet) with
      | some s => Covered f.store mg s ∧ (execStmt g path f (.declIndices mg setId)).isSome = true
      | none => False
  | .build mg parent vset vint iter =>
      match (f.env (.set vset) : Option VertexSet), (f.env (.set iter) : Option VertexSet),
        f.store.declared mg with
      | some vertex, some iterated, some (type, _) =>
          (∀ p ∈ parent, Covered f.store p vertex) ∧
            (type = .lazy → iterated.data ⊆ vertex.data) ∧
            (execStmt g path f (.build mg parent vset vint iter)).isSome = true
      | _, _, _ => False
  | _ => True

instance (path : List ℕ) (f : Frame (miniGraphMachine g layout)) (stmt : Stmt) :
    Decidable (AssertionsHold g layout path f stmt) := by
  unfold AssertionsHold
  split <;> try infer_instance
  · split <;> infer_instance
  · split <;> infer_instance

/-- A statement that asks nothing of the mini-graphs and about which nothing is assumed. -/
def Stmt.Plain : Stmt → Prop
  | .declIndices _ _ | .build _ _ _ _ _ => False
  | _ => True

variable {g layout} in
theorem assertionsHold_of_plain {stmt : Stmt} (h : stmt.Plain) (path : List ℕ)
    (f : Frame (miniGraphMachine g layout)) : AssertionsHold g layout path f stmt := by
  cases stmt <;> trivial

end Checks

/-- The variables of a scope are declared. -/
def Declares {M : MgMachine} (scope : Scope) (f : Frame M) : Prop := ∀ v ∈ scope, f.env.declared v = true

/-- The variables hold what their names say when `placed` has been placed. -/
structure InScope (plan : PlanIR) (g : Graph) (placed : List ℕ) (env : Env) : Prop where
  lt : ∀ i < placed.length, placed.getD i 0 < g.numVertex
  id : ∀ i < placed.length, env (.id i) = some (placed.getD i 0 : ℕ)
  adj : ∀ (i : ℕ) (s : VertexSet), env (.adj i) = some s →
    i < placed.length ∧ s = g.N (placed.getD i 0)
  set : ∀ dep, ∀ op ∈ plan.ops dep, ∀ s : VertexSet, env (.set op.id) = some s →
    op.loopDepth < placed.length ∧ Denotes plan.adjMatType g placed op s
  mg : ∀ name, env.declared (.mg name) = true →
    ∃ dep < placed.length, ∃ mg ∈ plan.mgs dep, mg.id = name

/-- The request of a mini-graph's build names the sets of the plan. -/
structure StandsFor (plan : PlanIR) (g : Graph) (placed : List ℕ) (mg : MiniGraphIR)
    (req : BuildRequest) : Prop where
  vertex : Denotes plan.adjMatType g placed mg.vertices req.vertex.toVertexSet
  intersect : Denotes plan.adjMatType g placed mg.intersect req.intersect
  iter : Denotes plan.adjMatType g placed (plan.iter mg.loopDepth) req.iter.toVertexSet
  bounded : req.bounded = plan.isBounded mg

/-- A frame in which the variables and the mini-graphs are what their names say. -/
structure Sound (plan : PlanIR) (g : Graph) {layout : Layout} (placed : List ℕ)
    (reqs : List BuildRequest) (f : Frame (miniGraphMachine g layout)) : Prop where
  vars : InScope plan g placed f.env
  recorded : Recorded g reqs f.state
  names : ∀ name ∈ f.state.built, f.env.declared (.mg name) = true
  built : ∀ dep, ∀ mg ∈ plan.mgs dep, f.env.declared (.mg mg.id) = true →
    ∃ req, requestOf f.state.built reqs mg.id = some req ∧ StandsFor plan g placed mg req

/-- How the mini-graph is read in the loop over `iter`. -/
def mgIndex (plan : PlanIR) (dep : ℕ) (mg : MiniGraphIR) : MgIndex :=
  let iter := plan.iter (dep - 1)
  if skipBuildIndices mg iter then .direct dep else .lookup iter.id dep

/-- The index of the current vertex in a mini-graph that the body reads. -/
def IndexFound (plan : PlanIR) (dep x : ℕ) (reqs : List BuildRequest) (built : List ℤ) (env : Env)
    (mg : MiniGraphIR) : Prop :=
  ∃ j req, evalMgIndex env mg.id (mgIndex plan dep mg) = some j ∧
    requestOf built reqs mg.id = some req ∧ req.vertex.data[j]? = some x

/-- The list of the current vertex has been read from the mini-graph. -/
def ListRead (plan : PlanIR) (g : Graph) (placed : List ℕ) (x : ℕ) (reqs : List BuildRequest)
    (built : List ℤ) (env : Env) (mg : MiniGraphIR) : Prop :=
  ∃ (e : VertexSet) (req : BuildRequest), env (.mgAdj mg.id) = some e ∧
    requestOf built reqs mg.id = some req ∧ StandsFor plan g placed mg req ∧ Answers g req x e

/-- Between two frames of a body the lists of the mini-graphs and what they are found by stay. -/
structure KeepsLists {M : MgMachine} (f f' : Frame M) : Prop where
  counter : f'.counter = f.counter
  state : f'.state = f.state
  mgAdj : ∀ mg, f'.env (.mgAdj mg) = f.env (.mgAdj mg)
  idx : ∀ i, f'.env (.idx i) = f.env (.idx i)
  mgIndices : ∀ mg setId, f'.env (.mgIndices mg setId) = f.env (.mgIndices mg setId)
  mg : ∀ id, f'.env (.mg id) = f.env (.mg id)

section

variable {plan : PlanIR} {g : Graph} {layout : Layout} {placed : List ℕ} {reqs : List BuildRequest}
  {f f' : Frame (miniGraphMachine g layout)} {env : Env} {path : List ℕ} {dep x : ℕ}

theorem Declares.of_env {M : MgMachine} {scope : Scope} {f f' : Frame M} (h : Declares scope f)
    (henv : f'.env = f.env) : Declares scope f' := by
  intro v hv
  rw [henv]
  exact h v hv

theorem Declares.declare {M : MgMachine} {scope : Scope} {f : Frame M} (h : Declares scope f) (v : Var)
    (value : v.Ty) : Declares (v :: scope) (f.declare v value) := by
  intro w hw
  by_cases hsame : w = v
  · rw [hsame, Env.declared, Frame.declare_env, Env.set_self]
    rfl
  · rw [Env.declared, Frame.declare_env, Env.set_of_ne _ _ hsame]
    exact h w ((List.mem_cons.mp hw).resolve_left hsame)

/-- After some statements the variables of the scope after them are declared. -/
theorem Declares.after {M : MgMachine} {scope : Scope} {stmts : List Stmt} {f f' : Frame M}
    (h : Declares scope f) (hrun : execStmts g path stmts f = some (.next, f')) :
    Declares (scopeAfter scope stmts) f' := by
  induction stmts generalizing scope f with
  | nil =>
      obtain rfl : f = f' := by simpa [execStmts] using hrun
      exact h
  | cons stmt rest ih =>
      rw [execStmts] at hrun
      obtain ⟨⟨flow, f₁⟩, hfirst, hrest⟩ := Option.bind_eq_some_iff.mp hrun
      cases flow with
      | skip => simp at hrest
      | next =>
          refine ih (fun v hv => ?_) hrest
          rw [execStmt_declared hfirst]
          rcases List.mem_append.mp hv with hv | hv
          · exact Or.inr (Option.mem_toList.mp hv)
          · exact Or.inl (h v hv)

/-- A run ends in the scope after its statements. -/
theorem Runs.withScope {M : MgMachine} {assumption guarantee : StmtPred M} {scope : Scope}
    {stmts : List Stmt} {f : Frame M} {post : Flow → Frame M → Prop}
    (h : Runs assumption guarantee g path stmts f post) (hscope : Declares scope f) :
    Runs assumption guarantee g path stmts f fun flow f' =>
      post flow f' ∧ (flow = .next → Declares (scopeAfter scope stmts) f') := by
  intro hassume
  obtain ⟨hkeeps, flow, f', hrun, hpost⟩ := h hassume
  refine ⟨hkeeps, flow, f', hrun, hpost, ?_⟩
  rintro rfl
  exact hscope.after hrun

theorem Declares.get {M : MgMachine} {scope : Scope} {f : Frame M} (h : Declares scope f) {v : Var}
    (hv : v ∈ scope) : ∃ value, f.env v = some value :=
  Option.isSome_iff_exists.mp (h v hv)

theorem KeepsLists.refl (f : Frame (miniGraphMachine g layout)) : KeepsLists f f :=
  ⟨rfl, rfl, fun _ => rfl, fun _ => rfl, fun _ _ => rfl, fun _ => rfl⟩

theorem KeepsLists.trans {f'' : Frame (miniGraphMachine g layout)} (h : KeepsLists f f')
    (h' : KeepsLists f' f'') : KeepsLists f f'' where
  counter := h'.counter.trans h.counter
  state := h'.state.trans h.state
  mgAdj mg := (h'.mgAdj mg).trans (h.mgAdj mg)
  idx i := (h'.idx i).trans (h.idx i)
  mgIndices mg setId := (h'.mgIndices mg setId).trans (h.mgIndices mg setId)
  mg id := (h'.mg id).trans (h.mg id)

theorem IndexFound.of_eq {env' : Env} {built : List ℤ} {mg : MiniGraphIR}
    (hindex : IndexFound plan dep x reqs built env mg) (hidx : ∀ i, env' (.idx i) = env (.idx i))
    (hindices : ∀ id setId, env' (.mgIndices id setId) = env (.mgIndices id setId)) :
    IndexFound plan dep x reqs built env' mg := by
  obtain ⟨j, req, hj, hreq, hv⟩ := hindex
  refine ⟨j, req, ?_, hreq, hv⟩
  rw [← hj]
  apply evalMgIndex_congr
  intro v hv
  rw [mgIndex] at hv
  split at hv <;> simp only [MgIndex.reads, List.mem_cons, List.not_mem_nil, or_false] at hv
  · rw [hv, hidx]
  · rcases hv with rfl | rfl
    · exact hindices _ _
    · exact hidx _

theorem KeepsLists.indexFound (hkeeps : KeepsLists f f') {mg : MiniGraphIR}
    (hindex : IndexFound plan dep x reqs f.store.built f.env mg) :
    IndexFound plan dep x reqs f'.store.built f'.env mg := by
  have hbuilt : f'.store.built = f.store.built := congrArg MgStore.built hkeeps.state
  rw [hbuilt]
  exact hindex.of_eq hkeeps.idx hkeeps.mgIndices

/-- The lists stay read. -/
theorem KeepsLists.listRead (hkeeps : KeepsLists f f') {mg : MiniGraphIR}
    (h : ListRead plan g placed x reqs f.store.built f.env mg) :
    ListRead plan g placed x reqs f'.store.built f'.env mg := by
  obtain ⟨e, req, he, hreq, hrest⟩ := h
  refine ⟨e, req, (hkeeps.mgAdj mg.id).trans he, ?_, hrest⟩
  have hstate : f'.store = f.store := hkeeps.state
  rw [hstate]
  exact hreq

/-- A variable that is none of those that the invariant is about. -/
theorem InScope.of_eq {env' : Env} (h : InScope plan g placed env)
    (hid : ∀ i, env' (.id i) = env (.id i)) (hadj : ∀ i, env' (.adj i) = env (.adj i))
    (hset : ∀ id, env' (.set id) = env (.set id)) (hmg : ∀ id, env' (.mg id) = env (.mg id)) :
    InScope plan g placed env' where
  lt := h.lt
  id i hi := (hid i).trans (h.id i hi)
  adj i s hs := h.adj i s ((hadj i).symm.trans hs)
  set dep op hop s hs := h.set dep op hop s ((hset op.id).symm.trans hs)
  mg name hname := by
    apply h.mg name
    rwa [Env.declared, ← hmg]

/-- Placing one more vertex. -/
theorem InScope.place (h : InScope plan g placed env) (hx : x < g.numVertex) {env' : Env}
    (hid : ∀ i < placed.length, env' (.id i) = env (.id i)) (hself : env' (.id placed.length) = some x)
    (hadj : ∀ i, env' (.adj i) = env (.adj i)) (hset : ∀ id, env' (.set id) = env (.set id))
    (hmg : ∀ id, env' (.mg id) = env (.mg id)) : InScope plan g (placed ++ [x]) env' := by
  constructor
  · intro i hi
    rcases getD_snoc hi with ⟨hlt, heq⟩ | ⟨-, heq⟩
    · rw [heq]
      exact h.lt i hlt
    · rwa [heq]
  · intro i hi
    rcases getD_snoc hi with ⟨hlt, heq⟩ | ⟨rfl, heq⟩
    · rw [heq, hid i hlt]
      exact h.id i hlt
    · rw [heq, hself]
  · intro i s hs
    obtain ⟨hlt, hs⟩ := h.adj i s ((hadj i).symm.trans hs)
    refine ⟨by simp; omega, ?_⟩
    rw [hs, List.getD_append _ _ _ _ hlt]
  · intro dep op hop s hs
    obtain ⟨hlt, hdenotes⟩ := h.set dep op hop s ((hset op.id).symm.trans hs)
    exact ⟨by simp; omega, hdenotes.append hlt⟩
  · intro name hname
    obtain ⟨dep, hdep, hmem⟩ := h.mg name (by rwa [Env.declared, ← hmg])
    exact ⟨dep, by simp; omega, hmem⟩

theorem StandsFor.append {mg : MiniGraphIR} {req : BuildRequest} {y : List ℕ}
    (h : StandsFor plan g placed mg req) (hvertices : mg.vertices.loopDepth < placed.length)
    (hintersect : mg.intersect.loopDepth < placed.length)
    (hiter : (plan.iter mg.loopDepth).loopDepth < placed.length) :
    StandsFor plan g (placed ++ y) mg req where
  vertex := h.vertex.append hvertices
  intersect := h.intersect.append hintersect
  iter := h.iter.append hiter
  bounded := h.bounded

end

/-! ### Reading the vertex of a loop body and its lists -/

section

variable {edge restrict : ℕ → Finset ℕ} {cfg : CodeGenConfig} {plan : PlanIR}
  (h : PlannedMgs edge restrict cfg plan) {g : Graph} {layout : Layout} {placed : List ℕ}
  {reqs : List BuildRequest} {f f' : Frame (miniGraphMachine g layout)} {path : List ℕ} {dep x : ℕ}

include h

theorem PlannedMgs.lt_of_mem_mgs {mg : MiniGraphIR} (hmg : mg ∈ plan.mgs dep) : dep + 1 < plan.pSize := by
  have hdepth := h.mg_depth dep mg hmg
  have hthree := h.three_le
  rw [PlanIR.maxDep] at hdepth
  omega

/-- What a mini-graph stands for does not change when a vertex is placed below it. -/
theorem StandsFor.place {mg : MiniGraphIR} {req : BuildRequest} (hmg : mg ∈ plan.mgs dep)
    (hdep : dep < placed.length) {y : List ℕ} (hreq : StandsFor plan g placed mg req) :
    StandsFor plan g (placed ++ y) mg req := by
  obtain ⟨hvertices, hintersect⟩ := h.mg_loopDepth hmg
  apply hreq.append
  · exact hvertices.trans_lt hdep
  · exact hintersect.trans_lt hdep
  · rw [hvertices, h.iter_loopDepth (h.lt_of_mem_mgs hmg)]
    exact hdep

/-- The mini-graphs of a frame are those of outer depths. -/
theorem Sound.mg_depth_lt (hf : Sound plan g placed reqs f) {mg : MiniGraphIR} (hmg : mg ∈ plan.mgs dep)
    (hdeclared : f.env.declared (.mg mg.id) = true) : dep < placed.length := by
  obtain ⟨dep', hdep', mg', hmg', hid⟩ := hf.vars.mg _ hdeclared
  obtain rfl := h.mg_id dep' dep mg' hmg' mg hmg hid
  have hd := (h.mg_loopDepth hmg').1
  rw [(h.mg_loopDepth hmg).1] at hd
  omega

/-- Placing a vertex in a frame. -/
theorem Sound.place (hf : Sound plan g placed reqs f) (hx : x < g.numVertex)
    (hstate : f'.state = f.state)
    (hid : ∀ i < placed.length, f'.env (.id i) = f.env (.id i))
    (hself : f'.env (.id placed.length) = some x) (hadj : ∀ i, f'.env (.adj i) = f.env (.adj i))
    (hset : ∀ id, f'.env (.set id) = f.env (.set id)) (hmg : ∀ id, f'.env (.mg id) = f.env (.mg id)) :
    Sound plan g (placed ++ [x]) reqs f' where
  vars := hf.vars.place hx hid hself hadj hset hmg
  recorded := hstate ▸ hf.recorded
  names name hname := by
    rw [hstate] at hname
    rw [Env.declared, hmg]
    exact hf.names name hname
  built dep mg hmem hdeclared := by
    rw [Env.declared, hmg] at hdeclared
    obtain ⟨req, hreq, hstands⟩ := hf.built dep mg hmem hdeclared
    exact ⟨req, hstate ▸ hreq, StandsFor.place h hmem (hf.mg_depth_lt h hmem hdeclared) hstands⟩

omit h in
/-- A new value of a variable that the invariant is not about, and other contents of the objects. -/
theorem Sound.of_eq (hf : Sound plan g placed reqs f) (hbuilt : f'.state.built = f.state.built)
    (hrec : Recorded g reqs f'.state) (hid : ∀ i, f'.env (.id i) = f.env (.id i))
    (hadj : ∀ i, f'.env (.adj i) = f.env (.adj i)) (hset : ∀ id, f'.env (.set id) = f.env (.set id))
    (hmg : ∀ id, f'.env (.mg id) = f.env (.mg id)) : Sound plan g placed reqs f' where
  vars := hf.vars.of_eq hid hadj hset hmg
  recorded := hrec
  names name hname := by
    rw [hbuilt] at hname
    rw [Env.declared, hmg]
    exact hf.names name hname
  built dep mg hmem hdeclared := by
    rw [Env.declared, hmg] at hdeclared
    rw [hbuilt]
    exact hf.built dep mg hmem hdeclared

omit h in
/-- The adjacency list of a placed vertex. -/
theorem Sound.declareAdj (hf : Sound plan g placed reqs f) (hdep : dep < placed.length) :
    Sound plan g placed reqs (f.declare (.adj dep) (g.N (placed.getD dep 0))) where
  vars :=
    { lt := hf.vars.lt
      id := fun i hi => by simpa [Env.set_of_ne] using hf.vars.id i hi
      adj := fun i s hs => by
        by_cases heq : i = dep
        · subst heq
          refine ⟨hdep, ?_⟩
          simpa using hs.symm
        · apply hf.vars.adj i s
          simpa [Env.set_of_ne, heq] using hs
      set := fun dep op hop s hs => hf.vars.set dep op hop s (by simpa [Env.set_of_ne] using hs)
      mg := fun name hname => hf.vars.mg name (by simpa [Env.declared, Env.set_of_ne] using hname) }
  recorded := hf.recorded
  names := fun name hname => by
    simpa [Env.declared, Env.set_of_ne] using hf.names name hname
  built := fun dep mg hmem hdeclared =>
    hf.built dep mg hmem (by simpa [Env.declared, Env.set_of_ne] using hdeclared)

omit h in
/-- A statement that is plain goes through with the guarantee. -/
theorem Runs.plain {stmt : Stmt} {flow : Flow} {post : Flow → Frame (miniGraphMachine g layout) → Prop}
    (hrun : execStmt g path f stmt = some (flow, f')) (hpost : post flow f')
    (hplain : stmt.Plain := by trivial) :
    Runs (BuildFits cfg g layout) (AssertionsHold g layout) g path [stmt] f post :=
  Runs.single fun _ => ⟨assertionsHold_of_plain hplain path f, flow, f', hrun, hpost⟩

omit h in
theorem KeepsLists.of_declare {v : Var} (value : v.Ty) (hadj : ∀ mg, v ≠ .mgAdj mg) (hidx : ∀ i, v ≠ .idx i)
    (hindices : ∀ mg setId, v ≠ .mgIndices mg setId) (hmg : ∀ id, v ≠ .mg id) :
    KeepsLists f (f.declare v value) where
  counter := rfl
  state := rfl
  mgAdj mg := Env.set_of_ne _ _ (hadj mg).symm
  idx i := Env.set_of_ne _ _ (hidx i).symm
  mgIndices mg setId := Env.set_of_ne _ _ (hindices mg setId).symm
  mg id := Env.set_of_ne _ _ (hmg id).symm

omit h in
/-- The adjacency list of the vertex that has been placed last. -/
theorem runs_declAdj (hf : Sound plan g (placed ++ [x]) reqs f) (hlen : placed.length = dep) (needed : Bool) :
    Runs (BuildFits cfg g layout) (AssertionsHold g layout) g path (if needed then [.declAdj dep] else []) f
      fun flow f' => flow = .next ∧ Sound plan g (placed ++ [x]) reqs f' ∧ KeepsLists f f' := by
  cases needed with
  | false => exact .nil ⟨rfl, hf, .refl f⟩
  | true =>
      have hin : dep < (placed ++ [x]).length := by simp [hlen]
      have hkeeps : KeepsLists f (f.declare (.adj dep) (g.N ((placed ++ [x]).getD dep 0))) := by
        apply KeepsLists.of_declare <;> simp
      exact .plain (execStmt_declAdj (hf.vars.id dep hin)) ⟨rfl, hf.declareAdj hin, hkeeps⟩

/-- Reading the vertex of a loop body and, where it is needed, its adjacency list. -/
theorem runs_readAdj (hf : Sound plan g placed reqs f) (hlen : placed.length = dep) (hx : x < g.numVertex)
    (hpos : Position plan f.env x dep) :
    Runs (BuildFits cfg g layout) (AssertionsHold g layout) g path (genCodeReadAdj plan cfg dep) f
      fun flow f' => flow = .next ∧ Sound plan g (placed ++ [x]) reqs f' ∧ KeepsLists f f' := by
  rw [genCodeReadAdj]
  cases dep with
  | zero =>
      have hself : f.env (.id placed.length) = some x := by rw [hlen]; exact hpos
      apply runs_declAdj _ hlen
      exact hf.place h hx rfl (fun _ _ => rfl) hself (fun _ => rfl) (fun _ => rfl) fun _ => rfl
  | succ k =>
      obtain ⟨s, i, hs, hi, hget⟩ := hpos
      have hrun : execStmt g path f (.declId (k + 1) (plan.iter k).id)
          = some (.next, f.declare (.id (k + 1)) x) := by
        simp [execStmt, hs, hi, hget]
      have hplaced : Sound plan g (placed ++ [x]) reqs (f.declare (.id (k + 1)) x) := by
        refine Sound.place h hf hx ?_ ?_ ?_ ?_ ?_ ?_
        · rfl
        · intro j hj
          simp [Env.set_of_ne, (hlen ▸ hj).ne]
        · rw [hlen]
          exact Env.set_self _ _ _
        all_goals intros; simp [Env.set_of_ne]
      have hkeeps : KeepsLists f (f.declare (.id (k + 1)) x) := by
        apply KeepsLists.of_declare <;> simp
      apply Runs.append fun flow f' => flow = .next ∧ f' = f.declare (.id (k + 1)) x
      · exact .plain hrun ⟨rfl, rfl⟩
      · rintro f' ⟨-, rfl⟩
        apply (runs_declAdj hplaced hlen _).mono
        rintro flow f' ⟨hflow, hsound, hkeeps'⟩
        exact ⟨hflow, hsound, hkeeps.trans hkeeps'⟩
      · rintro f' ⟨hflow, -⟩
        simp at hflow

/-- The mini-graphs that a body reads have been declared outside of it. -/
theorem declared_of_closed_mgAdj {scope : Scope} (hscope : Declares scope f)
    (hclosed : ClosedStmts scope (genCodeMgAdj plan dep)) :
    ∀ mg ∈ plan.used dep, f.env.declared (.mg mg.id) = true := by
  intro mg hmg
  have hdep : dep ≠ 0 := by
    rintro rfl
    rw [h.used_zero] at hmg
    simp at hmg
  rw [genCodeMgAdj, if_neg hdep, List.map_eq_flatMap, closedStmts_flatMap] at hclosed
  obtain ⟨l₁, l₂, hsplit⟩ := List.append_of_mem hmg
  have hreads := (hclosed l₁ mg l₂ hsplit).1 (by simp [Stmt.reads] : Var.mg mg.id ∈ _)
  rw [mem_scopeAfter_flatMap] at hreads
  rcases hreads with hin | ⟨mg', -, stmt, hstmt, hdeclares⟩
  · exact hscope _ hin
  · rw [List.mem_singleton.mp hstmt] at hdeclares
    simp [Stmt.declares] at hdeclares

/-- Between two frames of a body only lists of mini-graphs have been read. -/
structure ReadsLists (f f' : Frame (miniGraphMachine g layout)) : Prop where
  counter : f'.counter = f.counter
  built : f'.store.built = f.store.built
  env : ∀ v, (∀ mg, v ≠ .mgAdj mg) → f'.env v = f.env v

omit h in
theorem ReadsLists.trans {f'' : Frame (miniGraphMachine g layout)} (h : ReadsLists f f')
    (h' : ReadsLists f' f'') : ReadsLists f f'' where
  counter := h'.counter.trans h.counter
  built := h'.built.trans h.built
  env v hv := (h'.env v hv).trans (h.env v hv)

omit h in
/-- The index does not depend on the lists that have been read. -/
theorem ReadsLists.indexFound (hreads : ReadsLists f f') {mg : MiniGraphIR}
    (hindex : IndexFound plan dep x reqs f.store.built f.env mg) :
    IndexFound plan dep x reqs f'.store.built f'.env mg := by
  rw [hreads.built]
  apply hindex.of_eq
  · intro i
    exact hreads.env _ (by simp)
  · intro id setId
    exact hreads.env _ (by simp)

omit h in
/-- Reading the list of the current vertex from one mini-graph. -/
theorem execStmt_declMgAdj (hg : g.Valid) (hf : Sound plan g placed reqs f) {mg : MiniGraphIR}
    (hmg : mg ∈ plan.mgs dep) {dep' : ℕ} (hdeclared : f.env.declared (.mg mg.id) = true)
    (hindex : IndexFound plan dep' x reqs f.store.built f.env mg) :
    ∃ f', execStmt g path f (.declMgAdj mg.id (mgIndex plan dep' mg)) = some (.next, f') ∧
      Sound plan g placed reqs f' ∧ ReadsLists f f' ∧
      ListRead plan g placed x reqs f'.store.built f'.env mg ∧
      ∀ id, id ≠ mg.id → f'.env (.mgAdj id) = f.env (.mgAdj id) := by
  obtain ⟨value, hvalue⟩ := Option.isSome_iff_exists.mp hdeclared
  obtain ⟨req, hreq, hstands⟩ := hf.built dep mg hmg hdeclared
  obtain ⟨j, req', hj, hreq', hv⟩ := hindex
  obtain rfl : req = req' := Option.some.inj (hreq.symm.trans hreq')
  obtain ⟨e, s', hN, hanswers, hrec, hbuilt, -⟩ := hf.recorded.N_spec hg hreq hv
  set f' : Frame (miniGraphMachine g layout) :=
    { f with state := s', env := f.env.set (.mgAdj mg.id) e } with hf'
  have hrun : execStmt g path f (.declMgAdj mg.id (mgIndex plan dep' mg)) = some (.next, f') := by
    have hN' : (miniGraphMachine g layout).N f.state mg.id j = some (e, s') := hN
    simp only [execStmt, hvalue, hj, hN', Option.bind_eq_bind, Option.bind_some]
    rfl
  have hother : ∀ v, (∀ mg, v ≠ .mgAdj mg) → f'.env v = f.env v :=
    fun v hv => Env.set_of_ne _ _ (hv mg.id)
  have hbuilt' : f'.store.built = f.store.built := hbuilt
  refine ⟨f', hrun, ?_, ⟨rfl, hbuilt', hother⟩, ?_, fun id hid => ?_⟩
  · exact hf.of_eq hbuilt' hrec (fun i => hother (.id i) (by simp)) (fun i => hother (.adj i) (by simp))
      (fun id => hother (.set id) (by simp)) fun id => hother (.mg id) (by simp)
  · refine ⟨e, req, Env.set_self _ _ _, ?_, hstands, hanswers⟩
    rw [hbuilt']
    exact hreq
  · exact Env.set_of_ne _ _ (by simpa using hid)

/-- Reading the lists of the current vertex from the mini-graphs. -/
theorem runs_mgAdj {scope : Scope} (hg : g.Valid) (hf : Sound plan g placed reqs f) (hscope : Declares scope f)
    (hclosed : ClosedStmts scope (genCodeMgAdj plan dep))
    (hindex : ∀ mg ∈ plan.used dep, f.env.declared (.mg mg.id) = true →
      IndexFound plan dep x reqs f.store.built f.env mg) :
    Runs (BuildFits cfg g layout) (AssertionsHold g layout) g path (genCodeMgAdj plan dep) f
      fun flow f' => flow = .next ∧ Sound plan g placed reqs f' ∧ ReadsLists f f' ∧
        ∀ mg ∈ plan.used dep, ListRead plan g placed x reqs f'.store.built f'.env mg := by
  have hdeclared := declared_of_closed_mgAdj h hscope hclosed
  have hmem : ∀ mg ∈ plan.used dep, ∃ dep', mg ∈ plan.mgs dep' := by
    intro mg hmg
    obtain ⟨-, op, -, hread⟩ := (h.mem_used dep mg).mp hmg
    obtain ⟨-, dep', -, hmem, -⟩ := PlanIR.mem_mgs_of_getParentMg hread
    exact ⟨dep', hmem⟩
  by_cases hdep : dep = 0
  · subst hdep
    exact .nil ⟨rfl, hf, ⟨rfl, rfl, fun _ _ => rfl⟩, by simp [h.used_zero]⟩
  rw [genCodeMgAdj, if_neg hdep, List.map_eq_flatMap]
  set inv : List MiniGraphIR → Frame (miniGraphMachine g layout) → Prop := fun before f' =>
    Sound plan g placed reqs f' ∧ ReadsLists f f' ∧
      ∀ mg ∈ before, ListRead plan g placed x reqs f'.store.built f'.env mg with hinv
  refine Runs.mono (Runs.flatMap inv (fun _ => False) (fun before mg after f₁ hl hbefore => ?_)
    ⟨hf, ⟨rfl, rfl, fun _ _ => rfl⟩, by simp⟩) (fun flow f' hend => ?_)
  · obtain ⟨hf₁, hreads, hlists⟩ := hbefore
    have hmg : mg ∈ plan.used dep := by rw [hl]; simp
    obtain ⟨dep', hmgs⟩ := hmem mg hmg
    have hdecl : f₁.env.declared (.mg mg.id) = true := by
      rw [Env.declared, hreads.env _ (by simp)]
      exact hdeclared mg hmg
    obtain ⟨f₂, hrun, hf₂, hreads₂, hlist, hother⟩ :=
      execStmt_declMgAdj hg hf₁ hmgs hdecl (hreads.indexFound (hindex mg hmg (hdeclared mg hmg)))
    refine .plain hrun ⟨hf₂, hreads.trans hreads₂, fun mg' hmg' => ?_⟩
    by_cases hid : mg'.id = mg.id
    · -- one id is one mini-graph
      obtain ⟨dep'', hmgs'⟩ : ∃ dep'', mg' ∈ plan.mgs dep'' := by
        rcases List.mem_append.mp hmg' with hin | hin
        · exact hmem mg' (by rw [hl]; exact List.mem_append_left _ hin)
        · rw [List.mem_singleton.mp hin]
          exact ⟨dep', hmgs⟩
      obtain rfl := h.mg_id _ _ mg' hmgs' mg hmgs hid
      exact hlist
    · have hin : mg' ∈ before := by
        rcases List.mem_append.mp hmg' with hin | hin
        · exact hin
        · exact absurd (by rw [List.mem_singleton.mp hin]) hid
      obtain ⟨e, req, he, hreq, hrest⟩ := hlists mg' hin
      exact ⟨e, req, (hother mg'.id hid).trans he, hreads₂.built ▸ hreq, hrest⟩
  · cases flow with
    | next => exact ⟨rfl, hend⟩
    | skip => exact absurd hend id

end

end GraphMini
