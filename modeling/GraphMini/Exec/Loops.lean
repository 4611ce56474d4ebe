import GraphMini.Exec.Builds
import GraphMini.Exec.IepSpec
import GraphMini.Exec.IndexSpec
import GraphMini.Exec.Operations

/-!
# The loop nest in a run with pruning

A body is entered with its vertex fixed and the mini-graphs that it reads built around it. What it
builds itself lasts until its end, so that every round of a loop finds the mini-graphs of the loops
around it as they were.
-/

namespace GraphMini

open VertexSetIR MgStore

/-- A loop body is entered for the vertex `x`. -/
structure Enters (plan : PlanIR) (g : Graph) {layout : Layout} (dep : ℕ) (placed : List ℕ) (x : ℕ)
    (reqs : List BuildRequest) (f : Frame (miniGraphMachine g layout)) : Prop where
  sound : Sound plan g placed reqs f
  length : placed.length = dep
  lt : x < g.numVertex
  position : Position plan f.env x dep
  iter : 0 < dep → Candidate plan.adjMatType g (plan.iter (dep - 1)).edges (plan.iter (dep - 1)).restricts
    placed dep x
  index : ∀ mg ∈ plan.used dep, f.env.declared (.mg mg.id) = true →
    IndexFound plan dep x reqs f.store.built f.env mg

/-- The vertex of a body is placed and the lists that it uses are read. -/
structure Opened (plan : PlanIR) (g : Graph) {layout : Layout} (dep : ℕ) (placed : List ℕ)
    (reqs : List BuildRequest) (f f' : Frame (miniGraphMachine g layout)) : Prop where
  sound : Sound plan g placed reqs f'
  lists : ∀ mg ∈ plan.used dep, ListRead plan g placed (placed.getD dep 0) reqs f'.store.built f'.env mg
  counter : f'.counter = f.counter
  built : f'.store.built = f.store.built
  mg : ∀ id, f'.env (.mg id) = f.env (.mg id)

/-- What a body leaves behind is gone with its scope. -/
def Returns (g : Graph) {layout : Layout} (reqs : List BuildRequest)
    (f f' : Frame (miniGraphMachine g layout)) : Prop :=
  Grown g (fun mg => f.env.declared (.mg mg)) f.store.built reqs f'.store

/-- The loop below a body can begin. -/
structure Prepared (plan : PlanIR) (g : Graph) {layout : Layout} (dep : ℕ) (placed : List ℕ)
    (reqs : List BuildRequest) (s : VertexSet) (f' : Frame (miniGraphMachine g layout)) : Prop where
  sound : Sound plan g placed reqs f'
  iter : f'.env (.set (plan.iter dep).id) = some s
  index : ∀ mg ∈ plan.used (dep + 1), f'.env.declared (.mg mg.id) = true →
    Indexes plan dep s reqs f'.store.built f'.env mg

/-- The end of the statements of a body with a loop below it: the loop can begin, or some operation has
no candidate. -/
def BodyEnd (plan : PlanIR) (g : Graph) {layout : Layout} (dep : ℕ) (placed : List ℕ)
    (reqs : List BuildRequest) (f : Frame (miniGraphMachine g layout)) (flow : Flow)
    (f' : Frame (miniGraphMachine g layout)) : Prop :=
  f'.counter = f.counter ∧
    match flow with
    | .next => ∃ names added s, f'.store.built = names ++ f.store.built ∧ names.length = added.length ∧
        (∀ name ∈ names, f.env.declared (.mg name) = false) ∧ Prepared plan g dep placed (added ++ reqs) s f'
    | .skip => Returns g reqs f f' ∧ ∃ op ∈ plan.ops dep,
        ∀ x, ¬ Candidate plan.adjMatType g op.edges op.restricts placed (dep + 1) x

section

variable {plan : PlanIR} {g : Graph} {layout : Layout} {placed : List ℕ} {reqs : List BuildRequest}
  {f f' : Frame (miniGraphMachine g layout)} {env env' : Env} {path : List ℕ} {dep x : ℕ}

theorem Position.of_eq (h : Position plan env x dep) (hid : ∀ i, env' (.id i) = env (.id i))
    (hidx : ∀ i, env' (.idx i) = env (.idx i)) (hset : ∀ id, env' (.set id) = env (.set id)) :
    Position plan env' x dep := by
  cases dep with
  | zero => exact (hid 0).trans h
  | succ k =>
      obtain ⟨s, i, hs, hi, hx⟩ := h
      exact ⟨s, i, (hset _).trans hs, (hidx _).trans hi, hx⟩

/-- The vertex of a body comes from the set iterated around it. -/
theorem Enters.candidate (hE : Enters plan g dep placed x reqs f) (hdep : 0 < dep) :
    Candidate plan.adjMatType g (plan.iter (dep - 1)).edges (plan.iter (dep - 1)).restricts (placed ++ [x]) dep
      ((placed ++ [x]).getD dep 0) := by
  have hself : (placed ++ [x]).getD dep 0 = x := by simp [← hE.length]
  rw [hself]
  exact (candidate_append hE.length.ge).mpr (hE.iter hdep)

/-- A body that builds nothing. -/
theorem Opened.returns (h : Opened plan g dep placed reqs f f') : Returns g reqs f f' :=
  ⟨[], [], h.built, rfl, by simp, h.sound.recorded⟩

/-- Other statements that build nothing. -/
theorem Returns.of_state {f'' : Frame (miniGraphMachine g layout)} (h : Returns g reqs f f')
    (hstate : f''.state = f'.state) : Returns g reqs f f'' := by
  have hstore : f''.store = f'.store := hstate
  rw [Returns, hstore]
  exact h

end

section

variable {edge restrict : ℕ → Finset ℕ} {cfg : CodeGenConfig} {plan : PlanIR}
  (h : PlannedMgs edge restrict cfg plan) {g : Graph} {layout : Layout} {placed : List ℕ}
  {reqs : List BuildRequest} {f f' : Frame (miniGraphMachine g layout)} {path : List ℕ} {dep x : ℕ}
  {scope : Scope}

include h

/-- A round of the loop below a body begins. -/
theorem Prepared.enters {F : Frame (miniGraphMachine g layout)} {s : VertexSet} {i : ℕ}
    (hprepared : Prepared plan g dep placed reqs s F) (hdep : dep + 1 < plan.pSize)
    (hlen : placed.length = dep + 1) (henv : f.env = F.env) (hbuilt : f.store.built = F.store.built)
    (hrec : Recorded g reqs f.store) (hx : s.data[i]? = some x) :
    Enters plan g (dep + 1) placed x reqs (f.declare (.idx (dep + 1)) i) := by
  have hother : ∀ v, v ≠ .idx (dep + 1) → (f.declare (.idx (dep + 1)) i).env v = F.env v := by
    intro v hv
    rw [Frame.declare_env, Env.set_of_ne _ _ hv, henv]
  have hself : (f.declare (.idx (dep + 1)) i).env (.idx (dep + 1)) = some i := Env.set_self _ _ _
  have hiter := h.iter_mem dep hdep
  obtain ⟨-, hdenotes⟩ := hprepared.sound.vars.set dep _ hiter s hprepared.iter
  have hcandidate := (hdenotes.2 x).mp (List.mem_of_getElem? hx)
  rw [h.loopDepth_eq hiter] at hcandidate
  have hiter' : (f.declare (.idx (dep + 1)) i).env (.set (plan.iter dep).id) = some s :=
    (hother _ (by simp)).trans hprepared.iter
  have hbuilt' : (f.declare (.idx (dep + 1)) i).store.built = F.store.built := hbuilt
  have hrec' : Recorded g reqs (f.declare (.idx (dep + 1)) i).store := hrec
  constructor
  · apply hprepared.sound.of_eq hbuilt' hrec'
    all_goals
      intro j
      exact hother _ (by simp)
  · exact hlen
  · exact hcandidate.1
  · exact ⟨s, i, hiter', hself, hx⟩
  · exact fun _ => hcandidate
  · intro mg hmg hdeclared
    rw [Env.declared, hother _ (by simp)] at hdeclared
    rw [hbuilt']
    apply Indexes.indexFound _ hself hx
    apply (hprepared.index mg hmg hdeclared).of_eq
    exact fun setId => hother _ (by simp)

omit h in
/-- The end of a round. -/
theorem Returns.leave {inner : Frame (miniGraphMachine g layout)} {i : ℕ}
    (hreturns : Returns g reqs (f.declare (.idx dep) i) inner)
    (hnames : ∀ name ∈ f.store.built, f.env.declared (.mg name) = true) :
    (f.leave inner).store.built = f.store.built ∧ Recorded g reqs (f.leave inner).store := by
  have hkeep : (fun mg => (f.declare (.idx dep) i).env.declared (.mg mg)) = fun mg => f.env.declared (.mg mg) := by
    funext mg
    rw [Env.declared, Frame.declare_env, Env.set_of_ne _ _ (by simp)]
    rfl
  rw [Returns, hkeep] at hreturns
  exact Grown.leave hreturns hnames

/-- The statements of a body up to its operations. -/
theorem runs_readStmts (hg : g.Valid) (hE : Enters plan g dep placed x reqs f) (hscope : Declares scope f)
    (hclosed : ClosedStmts scope (readStmts plan cfg dep)) :
    Runs (BuildFits cfg g layout) (AssertionsHold g layout) g path (readStmts plan cfg dep) f
      fun flow f' => flow = .next ∧ Opened plan g dep (placed ++ [x]) reqs f f' := by
  rw [readStmts, closedStmts_append] at hclosed
  have hself : (placed ++ [x]).getD dep 0 = x := by simp [← hE.length]
  apply Runs.append _ ((runs_readAdj h hE.sound hE.length hE.lt hE.position).withScope hscope)
  · rintro f₁ ⟨⟨-, hf₁, hkeeps⟩, hscope₁⟩
    have hindex : ∀ mg ∈ plan.used dep, f₁.env.declared (.mg mg.id) = true →
        IndexFound plan dep x reqs f₁.store.built f₁.env mg := by
      intro mg hmg hdeclared
      rw [Env.declared, hkeeps.mg] at hdeclared
      exact hkeeps.indexFound (hE.index mg hmg hdeclared)
    apply (runs_mgAdj h hg hf₁ (hscope₁ rfl) hclosed.2 hindex).mono
    rintro flow f₂ ⟨hflow, hf₂, hreads, hlists⟩
    refine ⟨hflow, hf₂, ?_, ?_, ?_, fun id => ?_⟩
    · rw [hself]
      exact hlists
    · exact hreads.counter.trans hkeeps.counter
    · exact hreads.built.trans (congrArg MgStore.built hkeeps.state)
    · rw [hreads.env _ (by simp), hkeeps.mg]
  · rintro f' ⟨⟨hflow, -⟩, -⟩
    simp at hflow

/-- The mini-graphs of a depth are not declared before its body. -/
theorem Sound.mg_fresh (hf : Sound plan g placed reqs f) (hlen : placed.length = dep) :
    ∀ mg ∈ plan.mgs dep, f.env.declared (.mg mg.id) = false := by
  intro mg hmg
  by_contra hnot
  have hlt := hf.mg_depth_lt h hmg (by simpa using hnot)
  omega

omit h in
/-- The sets of a depth are in scope after its operations. -/
theorem mem_scopeAfter_ops {u : VertexSetIR} (hu : u ∈ plan.ops dep) (hlast : plan.isLastOp u = false) :
    Var.set u.id ∈ scopeAfter scope ((plan.ops dep).flatMap (mgOpStmts plan)) := by
  refine mem_scopeAfter_flatMap.mpr (Or.inr ⟨u, hu, ?_⟩)
  exact (declares_mgOpStmts hlast).mpr rfl

/-- A body with a loop below it. -/
theorem runs_bodyStmts (hg : g.Valid) (hsound : plan.BoundedReads) (hE : Enters plan g dep placed x reqs f)
    (hdep : dep < plan.maxDep) (hscope : Declares scope f)
    (hclosed : ClosedStmts scope (bodyStmts plan cfg dep)) :
    Runs (BuildFits cfg g layout) (AssertionsHold g layout) g path (bodyStmts plan cfg dep) f
      (BodyEnd plan g dep (placed ++ [x]) reqs f) := by
  have hlen : (placed ++ [x]).length = dep + 1 := by simp [hE.length]
  have hsize : dep + 2 < plan.pSize := by
    have hthree := h.three_le
    rw [PlanIR.maxDep] at hdep
    omega
  rw [bodyStmts, closedStmts_append, closedStmts_append, closedStmts_append] at hclosed
  obtain ⟨hread, hops, hmgs, hindices⟩ := hclosed
  have hin : ∀ u ∈ plan.ops dep, Var.set u.id ∈ scopeAfter (scopeAfter scope (readStmts plan cfg dep))
      ((plan.ops dep).flatMap (mgOpStmts plan)) :=
    fun u hu => mem_scopeAfter_ops hu (h.not_lastOp hdep hu)
  apply Runs.append _ ((runs_readStmts h hg hE hscope hread).withScope hscope)
  · rintro f₁ ⟨⟨-, hopened⟩, hscope₁⟩
    have hrun : Runs (BuildFits cfg g layout) (AssertionsHold g layout) g path _ _ _ :=
      runs_ops h hg hopened.sound hlen hdep.le (by omega) hsound (hscope₁ rfl) hops hopened.lists
        hE.candidate
    apply Runs.append _ (hrun.withScope (hscope₁ rfl))
    · rintro f₂ ⟨⟨hkeeps, hf₂⟩, hscope₂⟩
      have hmg : ∀ id, f₂.env (.mg id) = f.env (.mg id) := fun id => (hkeeps.mg id).trans (hopened.mg id)
      have hfresh : ∀ mg ∈ plan.mgs dep, f₂.env.declared (.mg mg.id) = false := by
        intro mg hmem
        rw [Env.declared, hmg]
        exact hE.sound.mg_fresh h hE.length mg hmem
      have hbuilt₂ : f₂.store.built = f.store.built :=
        (congrArg MgStore.built hkeeps.state).trans hopened.built
      apply Runs.append _ ((runs_mgs h hg hf₂ hlen (hscope₂ rfl) hin hmgs hfresh).withScope (hscope₂ rfl))
      · rintro f₃ ⟨⟨-, hadds⟩, hscope₃⟩
        obtain ⟨names, added, hnames, hlength, hnew, hf₃⟩ := hadds.grown
        obtain ⟨s, hs⟩ := (hscope₂ rfl).get (hin _ (h.iter_mem dep (by omega)))
        have hs₃ : f₃.env (.set (plan.iter dep).id) = some s := (hadds.env _ (by simp)).trans hs
        apply (runs_indices h hf₃ (by omega) hs₃ (hscope₃ rfl) hindices).mono
        rintro flow f₄ ⟨rfl, hadds₄, hindex⟩
        refine ⟨?_, names, added, s, ?_, hlength, ?_, hadds₄.sound hf₃, ?_, hindex⟩
        · rw [hadds₄.counter, hadds.counter, hkeeps.counter, hopened.counter]
        · have hbuilt₄ : f₄.store.built = f₃.store.built := congrArg MgStore.built hadds₄.state
          rw [hbuilt₄, hnames, hbuilt₂]
        · intro name hname
          rw [Env.declared, ← hmg]
          exact hnew name hname
        · exact (hadds₄.env _ (by simp)).trans hs₃
      · rintro f' ⟨⟨hflow, -⟩, -⟩
        simp at hflow
    · rintro f' ⟨⟨hkeeps, hnone⟩, -⟩
      exact ⟨hkeeps.counter.trans hopened.counter, hopened.returns.of_state hkeeps.state, hnone⟩
  · rintro f' ⟨⟨hflow, -⟩, -⟩
    simp at hflow

end

/-! ### The loops -/

section

variable {plan : PlanIR} {cfg : CodeGenConfig} {dep : ℕ} {val : ℤ} {factors : List CntExpr}

theorem countIep_notMem_opStmts {op : VertexSetIR} : .countIep val factors ∉ mgOpStmts plan op := by
  have hop : .countIep val factors ∉ opStmts plan op := by
    rw [opStmts]
    split <;> split_ifs <;> simp
  rw [mgOpStmts]
  split
  · split_ifs <;> simp
  · exact hop

theorem countIep_notMem_readAdj : .countIep val factors ∉ genCodeReadAdj plan cfg dep := by
  simp only [genCodeReadAdj, List.mem_append, not_or]
  constructor
  · split_ifs <;> simp
  · split_ifs <;> simp

theorem countIep_notMem_mgAdj : .countIep val factors ∉ genCodeMgAdj plan dep := by
  rw [genCodeMgAdj]
  split_ifs <;> simp

theorem countIep_notMem_bodyStmts : .countIep val factors ∉ bodyStmts plan cfg dep := by
  simp only [bodyStmts, readStmts, List.mem_append, List.mem_flatMap, not_or, not_exists, not_and]
  refine ⟨⟨countIep_notMem_readAdj, countIep_notMem_mgAdj⟩, fun op _ => countIep_notMem_opStmts,
    fun mg _ => ?_, fun mg _ => ?_⟩
  · simp only [mgStmts, genCodeMgInit, genCodeMgBuild]
    split_ifs <;> simp
  · rw [genCodeMgIndice]
    split_ifs <;> simp

end

/-- A guarantee that asks more than the assertions only of the inclusion-exclusion counts. -/
def AsksOnCounts {g : Graph} {layout : Layout} (guarantee : StmtPred (miniGraphMachine g layout)) : Prop :=
  ∀ path f stmt, (∀ val factors, stmt ≠ .countIep val factors) → AssertionsHold g layout path f stmt →
    guarantee path f stmt

theorem AsksOnCounts.runs {g : Graph} {layout : Layout} {guarantee assumption : StmtPred (miniGraphMachine g layout)}
    (hguarantee : AsksOnCounts guarantee) {path : List ℕ} {stmts : List Stmt}
    {f : Frame (miniGraphMachine g layout)} {post : Flow → Frame (miniGraphMachine g layout) → Prop}
    (hruns : Runs assumption (AssertionsHold g layout) g path stmts f post)
    (hstmts : ∀ val factors, .countIep val factors ∉ stmts) : Runs assumption guarantee g path stmts f post := by
  apply hruns.weaken
  intro f stmt hstmt hhold
  apply hguarantee path f stmt _ hhold
  rintro val factors rfl
  exact hstmts val factors hstmt

/-- What the innermost body does when it is entered: it adds `weight`, provided that the groups of the
inclusion-exclusion counts fit the sets of its depth. -/
def LastRuns (plan : PlanIR) (cfg : CodeGenConfig) (g : Graph) (layout : Layout)
    (guarantee : StmtPred (miniGraphMachine g layout)) (weight : List ℕ → ℤ) : Prop :=
  ∀ (scope : Scope) (placed : List ℕ) (x : ℕ) (reqs : List BuildRequest)
    (f : Frame (miniGraphMachine g layout)) (path : List ℕ), Enters plan g plan.maxDep placed x reqs f →
    Declares scope f → ClosedStmts scope (lastStmts plan cfg plan.maxDep) →
    Runs (BuildFits cfg g layout) guarantee g path (lastStmts plan cfg plan.maxDep) f
      fun _ f' => Returns g reqs f f' ∧
        (plan.IepCounts cfg → f'.counter = f.counter + weight (placed ++ [x]))

/-- Where an operation has no candidate, nothing is added. -/
def NothingAdded (plan : PlanIR) (g : Graph) (edge restrict : ℕ → Finset ℕ) (weight : List ℕ → ℤ) : Prop :=
  ∀ (placed : List ℕ) (dep k : ℕ), placed.length = dep + 1 → dep + k = plan.maxDep → ∀ op ∈ plan.ops dep,
    (∀ x, ¬ Candidate plan.adjMatType g op.edges op.restricts placed (dep + 1) x) →
    loopTotal plan.adjMatType g edge restrict weight k placed = 0

section

variable {edge restrict : ℕ → Finset ℕ} {cfg : CodeGenConfig} {plan : PlanIR}
  (h : PlannedMgs edge restrict cfg plan) {g : Graph} {layout : Layout} {weight : List ℕ → ℤ}
  {guarantee : StmtPred (miniGraphMachine g layout)}

include h

/-- A loop nest gives back the mini-graphs of the loops around it and adds what all ways to go on from
its vertex add up to. -/
theorem runs_nest (hg : g.Valid) (hsound : plan.BoundedReads) (hguarantee : AsksOnCounts guarantee)
    (hlast : LastRuns plan cfg g layout guarantee weight)
    (hnothing : plan.IepCounts cfg → NothingAdded plan g edge restrict weight) (call : ℕ → Option ParCall)
    {n dep : ℕ} (hdep : dep + n = plan.maxDep) {scope : Scope} {placed : List ℕ} {x : ℕ} {reqs : List BuildRequest}
    {f : Frame (miniGraphMachine g layout)} {path : List ℕ} (hE : Enters plan g dep placed x reqs f)
    (hscope : Declares scope f) (hclosed : ClosedBlock scope (nest plan cfg call n dep)) :
    RunsBlock (BuildFits cfg g layout) guarantee g (nest plan cfg call n dep) path f
      fun f' => Returns g reqs f f' ∧ (plan.IepCounts cfg → f'.counter = f.counter
        + loopTotal plan.adjMatType g edge restrict weight n (placed ++ [x])) := by
  induction n generalizing dep scope placed x reqs f path with
  | zero =>
      obtain rfl : dep = plan.maxDep := by omega
      exact .last (hlast scope placed x reqs f path hE hscope hclosed)
  | succ n ih =>
      obtain ⟨hstmts, -, -, hbody⟩ := hclosed
      have hlen : (placed ++ [x]).length = dep + 1 := by simp [hE.length]
      have hstmts' : Runs (BuildFits cfg g layout) guarantee g path _ _ _ :=
        hguarantee.runs (runs_bodyStmts h hg hsound hE (by omega) hscope hstmts)
          fun _ _ => countIep_notMem_bodyStmts
      apply RunsBlock.loop (hstmts'.withScope hscope)
      · rintro f' ⟨⟨hcounter, hreturns, op, hop, hnone⟩, -⟩
        refine ⟨hreturns, fun hcounts => ?_⟩
        rw [hcounter, hnothing hcounts _ dep (n + 1) hlen (by omega) op hop hnone, add_zero]
      · rintro f₁ ⟨⟨hcounter, names, added, s, hnames, hlength, hnew, hprepared⟩, hscope₁⟩
        have hsize : dep + 1 < plan.pSize := by
          have hthree := h.three_le
          rw [PlanIR.maxDep] at hdep
          omega
        have hiter := h.iter_mem dep hsize
        obtain ⟨-, hdenotes⟩ := hprepared.sound.vars.set dep _ hiter s hprepared.iter
        set amount : ℕ → ℤ := fun y =>
          loopTotal plan.adjMatType g edge restrict weight n ((placed ++ [x]) ++ [y]) with hamount
        set inv : ℕ → Frame (miniGraphMachine g layout) → Prop := fun i f' =>
          f'.env = f₁.env ∧ f'.store.built = f₁.store.built ∧ Recorded g (added ++ reqs) f'.store ∧
            (plan.IepCounts cfg →
              f'.counter = f₁.counter + ((List.range i).map fun j => amount (s.data.getD j 0)).sum)
        refine ⟨s, hprepared.iter, inv, ⟨rfl, rfl, hprepared.sound.recorded, by simp⟩, ?_, ?_⟩
        · rintro f' ⟨-, hbuilt, hrec, hadds⟩
          refine ⟨⟨names, added, hbuilt.trans hnames, hlength, hnew, hrec⟩, fun hfit => ?_⟩
          have hsame := h.iter_same dep hsize
          rw [← hlen] at hsame
          have hsum : ((List.range s.size).map fun j => amount (s.data.getD j 0)).sum
              = loopTotal plan.adjMatType g edge restrict weight (n + 1) (placed ++ [x]) := by
            rw [loopTotal, Completion.total, ← hdenotes.sum_map_eq hsame hlen, VertexSet.size,
              Loop.sum_range_getElem s.data]
            exact fun j hj => by rw [List.getD_eq_getElem _ _ hj]
          rw [hadds hfit, hsum, hcounter]
        · rintro i hi f' ⟨henv, hbuilt, hrec, hadds⟩
          have hx : s.data[i]? = some (s.data.getD i 0) := by
            rw [List.getD_eq_getElem _ _ hi, List.getElem?_eq_getElem hi]
          have hE' := hprepared.enters h hsize hlen henv hbuilt hrec hx
          have hscope' : Declares (.idx (dep + 1) :: scopeAfter scope (bodyStmts plan cfg dep))
              (f'.declare (.idx (dep + 1)) i) := by
            exact ((hscope₁ rfl).of_env henv).declare _ _
          intro hassume
          obtain ⟨hkeeps, inner, hrun, hreturns, hcount⟩ :=
            ih (by omega) hE' hscope' hbody hassume
          obtain ⟨hbuilt', hrec'⟩ := hreturns.leave (by rw [henv, hbuilt]; exact hprepared.sound.names)
          refine ⟨hkeeps, inner, hrun, henv, hbuilt'.trans hbuilt, hrec', fun hfit => ?_⟩
          rw [Frame.leave_counter, hcount hfit, Frame.declare_counter, hadds hfit, List.range_succ,
            List.map_append, List.sum_append, List.map_singleton, List.sum_singleton, add_assoc]

end

end GraphMini
