import GraphMini.Codegen.SelfContained
import GraphMini.Exec.Loops

/-!
# The innermost body in a run with pruning

Without inclusion and exclusion the innermost body counts the candidates of the last vertex. With it the
body makes the sets of its depth and adds the counts of all groups, unless one of the sets is empty.
-/

namespace GraphMini

open VertexSetIR MgStore

/-! ### Expressions whose variables are declared -/

section

variable {env : Env}

theorem exists_evalId {e : IdExpr} (h : ∀ v ∈ e.reads, env.declared v = true) : ∃ x, evalId env e = some x := by
  cases e with
  | id dep => exact Option.isSome_iff_exists.mp (h _ List.mem_cons_self)
  | adjVid dep =>
      obtain ⟨s, hs⟩ := Option.isSome_iff_exists.mp (h _ List.mem_cons_self)
      exact ⟨VertexSet.vid s, by simp only [evalId, hs, Option.map_some]⟩
  | mgAdjVid mg =>
      obtain ⟨s, hs⟩ := Option.isSome_iff_exists.mp (h _ List.mem_cons_self)
      exact ⟨VertexSet.vid s, by simp only [evalId, hs, Option.map_some]⟩

theorem exists_evalUpper {upper : Option IdExpr}
    (h : ∀ v ∈ upper.toList.flatMap IdExpr.reads, env.declared v = true) :
    ∃ bound, evalUpper env upper = some bound := by
  cases upper with
  | none => exact ⟨none, rfl⟩
  | some e =>
      obtain ⟨x, hx⟩ := exists_evalId fun v hv => h v (by simpa using hv)
      exact ⟨some x, by rw [evalUpper, hx]; rfl⟩

theorem exists_evalSet {e : SetExpr} (h : ∀ v ∈ e.reads, env.declared v = true) :
    ∃ s, evalSet env e = some s := by
  induction e with
  | set id => exact Option.isSome_iff_exists.mp (h _ List.mem_cons_self)
  | adj dep => exact Option.isSome_iff_exists.mp (h _ List.mem_cons_self)
  | mgAdj mg => exact Option.isSome_iff_exists.mp (h _ List.mem_cons_self)
  | intersect left right upper ihl ihr | subtract left right upper ihl ihr =>
      simp only [SetExpr.reads, List.forall_mem_append] at h
      obtain ⟨l, hl⟩ := ihl h.1.1
      obtain ⟨r, hr⟩ := ihr h.1.2
      obtain ⟨bound, hbound⟩ := exists_evalUpper h.2
      simp [evalSet, hl, hr, hbound]
  | bounded left upper ih | remove left upper ih =>
      simp only [SetExpr.reads, List.forall_mem_append] at h
      obtain ⟨l, hl⟩ := ih h.1
      obtain ⟨x, hx⟩ := exists_evalId h.2
      simp [evalSet, hl, hx]

theorem exists_evalCnt {e : CntExpr} (h : ∀ v ∈ e.reads, env.declared v = true) :
    ∃ n, evalCnt env e = some n := by
  cases e with
  | size s =>
      obtain ⟨l, hl⟩ := exists_evalSet h
      simp [evalCnt, hl]
  | intersectCnt left right upper | subtractCnt left right upper =>
      simp only [CntExpr.reads, List.forall_mem_append] at h
      obtain ⟨l, hl⟩ := exists_evalSet h.1.1
      obtain ⟨r, hr⟩ := exists_evalSet h.1.2
      obtain ⟨bound, hbound⟩ := exists_evalUpper h.2
      simp [evalCnt, hl, hr, hbound]
  | boundedCnt left upper | removeCnt left upper =>
      simp only [CntExpr.reads, List.forall_mem_append] at h
      obtain ⟨l, hl⟩ := exists_evalSet h.1
      obtain ⟨x, hx⟩ := exists_evalId h.2
      simp [evalCnt, hl, hx]

end

/-- The counts of groups whose variables are declared go through. -/
theorem exists_execStmts_iep {M : MgMachine} {g : Graph} {path : List ℕ} {plan : PlanIR} {ids : List ℕ}
    {f : Frame M} {scope : Scope} (hscope : Declares scope f)
    (hclosed : ClosedStmts scope (ids.map (genCodeIep plan))) :
    ∃ f', execStmts g path (ids.map (genCodeIep plan)) f = some (.next, f') ∧ f'.state = f.state := by
  induction ids generalizing f with
  | nil => exact ⟨f, rfl, rfl⟩
  | cons id ids ih =>
      obtain ⟨hreads, hrest⟩ := hclosed
      have hfactors : ∀ factor ∈ (plan.iepGroups.getD id []).map (iepFactor plan),
          ∃ n, evalCnt f.env factor = some n := fun factor hfactor =>
        exists_evalCnt fun v hv => hscope v (hreads (List.mem_flatMap.mpr ⟨factor, hfactor, hv⟩))
      obtain ⟨ns, hns⟩ := Loop.exists_mapM hfactors
      set f₁ : Frame M := { f with counter := f.counter + plan.iepVals.getD id 0 * (ns.map Nat.cast).prod }
      have hstmt : execStmt g path f (genCodeIep plan id) = some (.next, f₁) := by
        rw [genCodeIep, execStmt, hns]
        rfl
      have hscope₁ : Declares scope f₁ := hscope
      obtain ⟨f', hrun, hstate⟩ := ih hscope₁ hrest
      exact ⟨f', by rw [List.map_cons, execStmts_cons hstmt, hrun], hstate⟩

/-! ### The reads of the body in the inclusion-exclusion mode -/

section

variable {edge restrict : ℕ → Finset ℕ} {cfg : CodeGenConfig} {plan : PlanIR}
  (h : PlannedMgs edge restrict cfg plan) {g : Graph} {layout : Layout} {placed : List ℕ}
  {reqs : List BuildRequest} {f f' : Frame (miniGraphMachine g layout)} {path : List ℕ} {dep x : ℕ}
  {scope : Scope}

include h

/-- Before the counts of the inclusion-exclusion mode the mini-graphs are read first. -/
theorem runs_iepReadStmts (hg : g.Valid) (hE : Enters plan g dep placed x reqs f) (hscope : Declares scope f)
    (hclosed : ClosedStmts scope (genCodeMgAdj plan dep)) :
    Runs (BuildFits cfg g layout) (AssertionsHold g layout) g path
      (genCodeMgAdj plan dep ++ genCodeReadAdj plan cfg dep) f
      fun flow f' => flow = .next ∧ Opened plan g dep (placed ++ [x]) reqs f f' := by
  have hself : (placed ++ [x]).getD dep 0 = x := by simp [← hE.length]
  apply Runs.append _ (runs_mgAdj h hg hE.sound hscope hclosed hE.index)
  · rintro f₁ ⟨-, hf₁, hreads, hlists⟩
    have hpos : Position plan f₁.env x dep := by
      apply hE.position.of_eq
      all_goals
        intro i
        exact hreads.env _ (by simp)
    apply (runs_readAdj h hf₁ hE.length hE.lt hpos).mono
    rintro flow f₂ ⟨hflow, hf₂, hkeeps⟩
    refine ⟨hflow, hf₂, fun mg hmg => ?_, ?_, ?_, fun id => ?_⟩
    · -- what the mini-graph stands for stays when the vertex is placed
      obtain ⟨e, req, he, hreq, hstands, hanswers⟩ := hkeeps.listRead (hlists mg hmg)
      rw [hself]
      refine ⟨e, req, he, hreq, ?_, hanswers⟩
      have hused := h.loopDepth_of_used hmg
      exact StandsFor.place h hused.2 (by rw [hE.length]; exact hused.1) hstands
    · exact hkeeps.counter.trans hreads.counter
    · have hbuilt : f₂.store.built = f₁.store.built := congrArg MgStore.built hkeeps.state
      exact hbuilt.trans hreads.built
    · rw [hkeeps.mg, hreads.env _ (by simp)]
  · rintro f' ⟨hflow, -⟩
    simp at hflow

/-! ### The innermost body -/

variable {guarantee : StmtPred (miniGraphMachine g layout)}

/-- Without inclusion and exclusion. -/
theorem lastRuns_extensions (hg : g.Valid) (hsound : plan.BoundedReads) (hguarantee : AsksOnCounts guarantee)
    (huses : usesIep plan cfg = false) (hlast : plan.maxDep + 2 = plan.pSize) :
    LastRuns plan cfg g layout guarantee fun placed => extensions plan.adjMatType g edge restrict 1 placed := by
  intro scope placed x reqs f path hE hscope hclosed
  have hlen : (placed ++ [x]).length = plan.maxDep + 1 := by simp [hE.length]
  simp only [lastStmts, huses, iepStmts, Bool.false_eq_true, if_false, List.append_nil] at hclosed ⊢
  rw [closedStmts_append] at hclosed
  apply hguarantee.runs _ fun val factors => ?_
  rotate_left
  · simp only [readStmts, List.mem_append, List.mem_flatMap, not_or, not_exists, not_and]
    exact ⟨⟨countIep_notMem_readAdj, countIep_notMem_mgAdj⟩, fun op _ => countIep_notMem_opStmts⟩
  apply Runs.append _ ((runs_readStmts h hg hE hscope hclosed.1).withScope hscope)
  · rintro f₁ ⟨⟨-, hopened⟩, hscope₁⟩
    apply (runs_lastOp h hg hopened.sound hlen le_rfl hlast hsound (hscope₁ rfl) hclosed.2 hopened.lists
      hE.candidate).mono
    rintro flow f₂ ⟨hstate, hcounter⟩
    exact ⟨hopened.returns.of_state hstate, fun _ => by rw [hcounter, hopened.counter]⟩
  · rintro f' ⟨⟨hflow, -⟩, -⟩
    simp at hflow

/-- The counts find the sets of their depth, and the guarantee holds of them. -/
def CountsFind (plan : PlanIR) {g : Graph} {layout : Layout}
    (guarantee : StmtPred (miniGraphMachine g layout)) : Prop :=
  ∀ (placed : List ℕ) (reqs : List BuildRequest) (path : List ℕ) (f : Frame (miniGraphMachine g layout)),
    placed.length = plan.maxDep + 1 → Sound plan g placed reqs f →
    (∀ op ∈ plan.ops plan.maxDep, f.env.declared (.set op.id) = true) →
    ∀ id < plan.iepGroups.length, guarantee path f (genCodeIep plan id)

omit h in
/-- A count changes the counter alone. -/
theorem alwaysStmts_counts {ids : List ℕ} (hcounts : ∀ f', f'.env = f.env → f'.state = f.state →
      ∀ id ∈ ids, guarantee path f' (genCodeIep plan id)) :
    AlwaysStmts guarantee g path (ids.map (genCodeIep plan)) f := by
  induction ids generalizing f with
  | nil => trivial
  | cons id ids ih =>
      refine ⟨hcounts f rfl rfl id List.mem_cons_self, fun r hr _ => ih fun f' henv hstate id' hid' => ?_⟩
      rw [Option.mem_def, genCodeIep, execStmt] at hr
      obtain ⟨ns, -, hns⟩ := Option.bind_eq_some_iff.mp hr
      obtain rfl := Option.some.inj hns
      exact hcounts f' henv hstate id' (List.mem_cons_of_mem _ hid')

/-- With inclusion and exclusion. -/
theorem lastRuns_iep (hg : g.Valid) (hsound : plan.BoundedReads) (hguarantee : AsksOnCounts guarantee)
    (hfind : CountsFind plan guarantee) (huses : usesIep plan cfg = true)
    (hlast : plan.maxDep + 2 < plan.pSize) :
    LastRuns plan cfg g layout guarantee (iepAmount plan plan.adjMatType g) := by
  intro scope placed x reqs f path hE hscope hclosed
  have hlen : (placed ++ [x]).length = plan.maxDep + 1 := by simp [hE.length]
  simp only [lastStmts, huses, if_true] at hclosed ⊢
  rw [closedStmts_append, closedStmts_append, closedStmts_append] at hclosed
  obtain ⟨⟨hmgAdj, -⟩, hops, hiep⟩ := hclosed
  have hread : Runs (BuildFits cfg g layout) guarantee g path _ _ _ :=
    hguarantee.runs (runs_iepReadStmts h hg hE hscope hmgAdj) fun val factors hin =>
      (List.mem_append.mp hin).elim countIep_notMem_mgAdj countIep_notMem_readAdj
  apply Runs.append _ (hread.withScope hscope)
  · rintro f₁ ⟨⟨-, hopened⟩, hscope₁⟩
    have hdeclare : Runs (BuildFits cfg g layout) guarantee g path _ _ _ :=
      hguarantee.runs (runs_ops h hg hopened.sound hlen le_rfl hlast.ne hsound (hscope₁ rfl) hops
        hopened.lists hE.candidate) fun val factors hin => by
          obtain ⟨op, -, hin⟩ := List.mem_flatMap.mp hin
          exact countIep_notMem_opStmts hin
    apply Runs.append _ (hdeclare.withScope (hscope₁ rfl))
    · rintro f₂ ⟨⟨hkeeps, hf₂⟩, hscope₂⟩
      simp only [iepStmts, huses, if_true] at hiep ⊢
      obtain ⟨f₃, hrun, hstate⟩ := exists_execStmts_iep (hscope₂ rfl) hiep
      have hdeclared : ∀ op ∈ plan.ops plan.maxDep, f₂.env.declared (.set op.id) = true := by
        intro op hop
        apply hscope₂ rfl
        apply mem_scopeAfter_ops hop
        rw [PlanIR.isLastOp, h.loopDepth_eq hop, beq_eq_false_iff_ne]
        exact hlast.ne
      refine fun _ => ⟨alwaysStmts_counts fun f' henv hstate' id hid => ?_, .next, f₃, hrun,
        (hopened.returns.of_state hkeeps.state).of_state hstate, fun hcounts => ?_⟩
      · refine hfind (placed ++ [x]) reqs path f' hlen ?_ (henv ▸ hdeclared) id (List.mem_range.mp hid)
        apply hf₂.of_eq (congrArg MgStore.built hstate') (hstate' ▸ hf₂.recorded)
        all_goals
          intro i
          rw [henv]
      · have hsets : ∀ i, (i = 0 ∨ ∃ group ∈ plan.iepGroups, ∃ block ∈ group, i ∈ block) →
            AtHand plan.adjMatType g (placed ++ [x]) f₂.env (plan.iepVertex i) := by
          intro i hi
          have hop := (hcounts.fit huses).2 i hi
          obtain ⟨s, hs⟩ := Option.isSome_iff_exists.mp (hdeclared _ hop)
          exact ⟨s, hs, (hf₂.vars.set _ _ hop s hs).2⟩
        have hamount := (execStmts_iep hsets).symm.trans hrun
        rw [← (Prod.mk.inj (Option.some.inj hamount)).2, hkeeps.counter, hopened.counter]
    · rintro f' ⟨⟨hkeeps, op, hop, hnone⟩, -⟩
      refine ⟨hopened.returns.of_state hkeeps.state, fun hcounts => ?_⟩
      have hempty : fitting plan.adjMatType g (placed ++ [x]) op = ∅ := by
        refine Finset.eq_empty_of_forall_notMem fun y hy => hnone y ?_
        rw [← h.loopDepth_eq hop]
        exact mem_fitting.mp hy
      rw [hkeeps.counter, hopened.counter, iepAmount_eq_zero hcounts huses hop hempty, add_zero]
  · rintro f' ⟨⟨hflow, -⟩, -⟩
    simp at hflow

/-- A vertex without a candidate stays without one, down to the innermost body. -/
theorem nothingAdded {weight : List ℕ → ℤ}
    (hbase : ∀ placed : List ℕ, placed.length = plan.maxDep + 1 → ∀ op ∈ plan.ops plan.maxDep,
      (∀ x, ¬ Candidate plan.adjMatType g op.edges op.restricts placed (plan.maxDep + 1) x) →
      weight placed = 0) : NothingAdded plan g edge restrict weight := by
  have hsize : plan.maxDep + 2 ≤ plan.pSize := by
    have hthree := h.three_le
    rw [PlanIR.maxDep]
    omega
  intro placed dep k hlen hdep op hop hnone
  induction k generalizing placed dep op with
  | zero =>
      obtain rfl : dep = plan.maxDep := by omega
      exact hbase placed hlen op hop hnone
  | succ k ih =>
      obtain ⟨hedges, v, hlow, hhigh, hsame⟩ := h.ops_sound dep op hop
      obtain ⟨he, hr, -⟩ := same_iff.mp hsame
      have hcut : ∀ x, ¬ Candidate plan.adjMatType g (edge v) (restrict v) placed (dep + 1) x :=
        fun x hx => hnone x (he ▸ hr ▸ (candidate_cut le_rfl).mpr hx)
      rw [loopTotal, Completion.total]
      apply Finset.sum_eq_zero
      intro x hx
      rcases (show v = dep + 1 ∨ dep + 1 < v by omega) with rfl | hlt
      · -- the vertex itself is placed next
        have hadm := (Finset.mem_filter.mp hx).2
        rw [Admissible, hlen] at hadm
        exact absurd hadm (hcut x)
      · have hedges' : 0 < (cut (edge v) (restrict v) (dep + 1)).edgeNum := by
          rw [edgeNum, he] at hedges
          obtain ⟨i, hi⟩ := Finset.card_pos.mp hedges
          rw [edgeNum]
          refine Finset.card_pos.mpr ⟨i, ?_⟩
          simp only [cut, Finset.mem_filter] at hi ⊢
          exact ⟨hi.1, by omega⟩
        obtain ⟨op', hop', hsame'⟩ := h.ops_complete (dep + 1) v hlt hhigh hedges'
        obtain ⟨he', hr', -⟩ := same_iff.mp hsame'
        refine ih (placed ++ [x]) (dep + 1) (by simp [hlen]) (by omega) op' hop' fun y hy => hcut y ?_
        rw [he', hr', candidate_cut le_rfl] at hy
        exact (candidate_append (by omega)).mp (hy.mono (Nat.le_succ _))

theorem nothingAdded_extensions (hlast : plan.maxDep + 2 = plan.pSize) :
    NothingAdded plan g edge restrict fun placed => extensions plan.adjMatType g edge restrict 1 placed := by
  apply nothingAdded h
  intro placed hlen op hop hnone
  obtain ⟨-, v, hlow, hhigh, hsame⟩ := h.ops_sound plan.maxDep op hop
  obtain ⟨he, hr, -⟩ := same_iff.mp hsame
  have hzero : extensions plan.adjMatType g edge restrict 1 placed = 0 := by
    apply extensions_eq_zero (v := v) (by omega) (by omega)
    intro x hx
    rw [hlen] at hx
    exact hnone x (he ▸ hr ▸ (candidate_cut le_rfl).mpr hx)
  simp [hzero]

/-- What the innermost body adds. -/
def lastWeight (plan : PlanIR) (cfg : CodeGenConfig) (g : Graph) (edge restrict : ℕ → Finset ℕ)
    (placed : List ℕ) : ℤ :=
  if usesIep plan cfg then iepAmount plan plan.adjMatType g placed
  else extensions plan.adjMatType g edge restrict 1 placed

/-- The frame of the outermost loop. -/
theorem enters_start {v : ℕ} (hv : v < g.numVertex) :
    Enters plan g 0 [] v [] (Frame.start (miniGraphMachine g layout) v) := by
  have hempty : ∀ w, w ≠ .id 0 → (Frame.start (miniGraphMachine g layout) v).env w = none :=
    fun w hw => Env.set_of_ne _ _ hw
  have hself : (Frame.start (miniGraphMachine g layout) v).env (.id 0) = some v := by
    rw [Frame.start_env, Env.set_self]
  have hmg : ∀ id, (Frame.start (miniGraphMachine g layout) v).env.declared (.mg id) = false := fun id => by
    rw [Env.declared, hempty _ (by simp)]
    rfl
  constructor
  · constructor
    · constructor
      · simp
      · simp
      · intro i s hs
        simp [hempty] at hs
      · intro dep op hop s hs
        simp [hempty] at hs
      · intro name hname
        simp [hmg] at hname
    · exact recorded_empty g
    · intro name hname
      exact absurd hname (List.not_mem_nil)
    · intro dep mg hmem hdeclared
      simp [hmg] at hdeclared
  · rfl
  · exact hv
  · exact hself
  · exact fun hpos => absurd hpos (lt_irrefl 0)
  · intro mg hmem
    simp [h.used_zero] at hmem

/-- One iteration of the outermost loop of a closed program. -/
theorem runs_start {sc : Schedule} (hfields : plan.HasIepFields sc cfg.adjMatType) (hg : g.Valid)
    (hsound : plan.BoundedReads) (hguarantee : AsksOnCounts guarantee)
    (hfind : usesIep plan cfg = true → CountsFind plan guarantee) (call : ℕ → Option ParCall)
    (hclosed : ClosedBlock [.id 0] (nest plan cfg call (lastDep plan cfg) 0)) {v : ℕ}
    (hv : v < g.numVertex) :
    RunsBlock (BuildFits cfg g layout) guarantee g (nest plan cfg call (lastDep plan cfg) 0) [v]
      (Frame.start (miniGraphMachine g layout) v) fun f' => plan.IepCounts cfg → f'.counter
        = loopTotal plan.adjMatType g edge restrict (lastWeight plan cfg g edge restrict) plan.maxDep [v] := by
  have hdepth := h.lastDep_eq hfields
  rw [hdepth] at hclosed ⊢
  have hscope : Declares [.id 0] (Frame.start (miniGraphMachine g layout) v) := by
    intro w hw
    rw [List.mem_singleton.mp hw, Env.declared, Frame.start_env, Env.set_self]
    rfl
  have hthree := h.three_le
  have hlast : LastRuns plan cfg g layout guarantee (lastWeight plan cfg g edge restrict) ∧
      (plan.IepCounts cfg → NothingAdded plan g edge restrict (lastWeight plan cfg g edge restrict)) := by
    unfold lastWeight
    cases huses : usesIep plan cfg with
    | false =>
        have hlast : plan.maxDep + 2 = plan.pSize := by
          rw [← hdepth, lastDep, huses, if_neg Bool.false_ne_true]
          omega
        simp only [Bool.false_eq_true, if_false]
        exact ⟨lastRuns_extensions h hg hsound hguarantee huses hlast, fun _ => nothingAdded_extensions h hlast⟩
    | true =>
        have hiep : cfg.adjMatType = .edgeInducedIEP ∧ 1 < plan.iepNum := by
          simpa [usesIep] using huses
        have hlast : plan.maxDep + 2 < plan.pSize := by
          rw [← hdepth, lastDep, huses, if_pos rfl, hfields.depth hiep.1]
          omega
        simp only [if_true]
        refine ⟨lastRuns_iep h hg hsound hguarantee (hfind huses) huses hlast, fun hcounts => nothingAdded h ?_⟩
        intro placed _ op hop hnone
        apply iepAmount_eq_zero hcounts huses hop
        refine Finset.eq_empty_of_forall_notMem fun x hx => hnone x ?_
        rw [← h.loopDepth_eq hop]
        exact mem_fitting.mp hx
  apply (runs_nest h hg hsound hguarantee hlast.1 hlast.2 call (by omega) (enters_start h hv) hscope hclosed).mono
  rintro f' ⟨-, hcounter⟩ hcounts
  rw [hcounter hcounts, List.nil_append]
  exact zero_add _

/-- What an iteration of the outermost loop adds. -/
theorem execVertex_total {sc : Schedule} {prog : OmpProgram} (hfields : plan.HasIepFields sc cfg.adjMatType)
    (hg : g.Valid) (hsound : plan.BoundedReads) (hcounts : plan.IepCounts cfg)
    (hprog : genCodeOmp plan cfg = .ok prog) (hclosed : prog.Closed)
    (hfits : prog.Always (BuildFits cfg g layout) g) {v : ℕ} (hv : v < g.numVertex) :
    execVertex (miniGraphMachine g layout) g prog.body v = some
      (loopTotal plan.adjMatType g edge restrict (lastWeight plan cfg g edge restrict) plan.maxDep [v]) := by
  rw [h.genCodeOmp_eq] at hprog
  obtain rfl := Except.ok.inj hprog
  have hguarantee : AsksOnCounts (fun _ _ _ => True : StmtPred (miniGraphMachine g layout)) :=
    fun _ _ _ _ _ => trivial
  obtain ⟨-, f', hrun, hcounter⟩ := runs_start h hfields hg hsound hguarantee
    (fun _ _ _ _ _ _ _ _ _ _ => trivial) _ hclosed hv (hfits v hv)
  calc execVertex (miniGraphMachine g layout) g _ v = some f'.counter := by
        rw [execVertex]
        erw [hrun]
        rfl
    _ = _ := by rw [hcounter hcounts]

/-! ### Without pruning -/

theorem boundedReads_of_none (hcfg : cfg.pruningType = .none) : plan.BoundedReads := by
  intro dep _ op _ mg hmg
  rw [h.getParentMg_none hcfg] at hmg
  simp at hmg

theorem changes_nest_of_none (hcfg : cfg.pruningType = .none) {call : ℕ → Option ParCall} {n : ℕ} {stmt : Stmt}
    (hin : stmt ∈ (nest plan cfg call n dep).stmts) : stmt.changes = none := by
  induction n generalizing dep with
  | zero => exact changes_lastStmts hin
  | succ n ih =>
      rw [nest, Block.stmts] at hin
      rcases List.mem_append.mp hin with hin | hin
      · cases hid : stmt.changes with
        | none => rfl
        | some id =>
            obtain ⟨mg, hmg, -⟩ := eq_of_mem_bodyStmts hin hid
            simp [h.mgs_none hcfg] at hmg
      · exact ih hin

/-- Nothing is built. -/
theorem buildFits_of_none (hcfg : cfg.pruningType = .none) (call : ℕ → Option ParCall) (n : ℕ) (path : List ℕ)
    (f : Frame (miniGraphMachine g layout)) :
    (nest plan cfg call n dep).Always (BuildFits cfg g layout) g path f := by
  apply Block.always_of_forall
  intro path f stmt hstmt
  have hchanges := changes_nest_of_none h hcfg hstmt
  cases stmt with
  | build => simp [Stmt.changes] at hchanges
  | _ => trivial

end

end GraphMini
