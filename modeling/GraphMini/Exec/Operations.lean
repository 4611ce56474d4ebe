import GraphMini.Exec.Frames

/-!
# The operations of a loop body in a run with pruning

Whatever an operation takes its set from, a parent set and an adjacency list, a parent set and the list
of a mini-graph, or the list alone, the set it declares is the one its name says, provided that lists
cut below their vertex are read by operations restricted at their own depth.
-/

namespace GraphMini

open VertexSetIR MgStore

/-- No operation of the emitted loops reads a mini-graph cut below its vertex unless it is restricted at
its own depth. -/
def PlanIR.BoundedReads (plan : PlanIR) : Prop :=
  ∀ dep ≤ plan.maxDep, ∀ op ∈ plan.ops dep, ∀ mg, plan.getParentMg op = some mg →
    plan.isBounded mg = true → op.isRestricted op.loopDepth = true

instance (plan : PlanIR) : Decidable plan.BoundedReads :=
  decidable_of_iff (∀ dep ≤ plan.maxDep, ∀ op ∈ plan.ops dep, ∀ mg ∈ plan.getParentMg op,
    plan.isBounded mg = true → op.isRestricted op.loopDepth = true) Iff.rfl

section

variable {t : AdjMatType} {g : Graph} {placed : List ℕ} {u v : VertexSetIR} {m x : ℕ}

/-- A superset stands for more vertices, also before all depths of the set are matched. -/
theorem Candidate.of_superset (h : u.isSupersetOf t v = true) (hm : u.loopDepth < m)
    (hx : Candidate t g v.edges v.restricts placed m x) :
    Candidate t g u.edges u.restricts placed (u.loopDepth + 1) x := by
  obtain ⟨-, hbits⟩ := isSupersetOf_iff.mp h
  refine ⟨hx.1, fun i hi => ?_⟩
  obtain ⟨hne, hadj, hnot, hlt⟩ := hx.2 i (by omega)
  obtain ⟨hedge, hback, hres⟩ := hbits i (by omega)
  exact ⟨hne, fun h => hadj (hedge h), fun ht h => hnot ht fun h' => h (hback ht h'),
    fun h => hlt (hres h)⟩

end

section

variable {edge restrict : ℕ → Finset ℕ} {cfg : CodeGenConfig} {plan : PlanIR}
  (h : PlannedMgs edge restrict cfg plan) {g : Graph} {layout : Layout} {placed : List ℕ}
  {reqs : List BuildRequest} {f f' : Frame (miniGraphMachine g layout)} {path : List ℕ} {dep x : ℕ}
  {op parent : VertexSetIR} {mg : MiniGraphIR}

/-- The candidates of a parent set lie in the intersect part of a mini-graph that the operation
reads. -/
theorem Derivation.candidate_intersect {siblings : List VertexSetIR} {s : VertexSet}
    (hder : Derivation plan siblings op (some parent))
    (hs : Denotes plan.adjMatType g placed parent s)
    (hsup : mg.intersect.isSupersetOf plan.adjMatType op = true)
    (hdepth : mg.intersect.loopDepth < op.loopDepth) :
    ∀ x ∈ s.data, Candidate plan.adjMatType g mg.intersect.edges mg.intersect.restricts placed
      (mg.intersect.loopDepth + 1) x := by
  intro x hx
  cases hder with
  | sibling _ _ hsame _ =>
      have hcand := (((hs.congr hsame).2 x).mp hx).mono (Nat.le_succ _)
      apply Candidate.of_superset hsup hdepth
      refine (candidate_congr (fun _ _ => Iff.rfl) (fun i hi => ?_) fun _ _ => rfl).mp hcand
      simp [unrestricted, hi.ne]
  | above _ dep' hdep _ hsame =>
      have hcand := ((hs.congr hsame).2 x).mp hx
      rw [prefixAt_loopDepth, prefixAt, candidate_cut le_rfl] at hcand
      exact Candidate.of_superset hsup (by omega) hcand

include h

/-- The set of an operation is declared. -/
theorem Sound.declareSet (hf : Sound plan g placed reqs f) (hop : op ∈ plan.ops dep)
    (hlt : op.loopDepth < placed.length) {s : VertexSet} (hs : Denotes plan.adjMatType g placed op s) :
    Sound plan g placed reqs (f.declare (.set op.id) s) where
  vars :=
    { lt := hf.vars.lt
      id := fun i hi => by simpa [Env.set_of_ne] using hf.vars.id i hi
      adj := fun i s hs => hf.vars.adj i s (by simpa [Env.set_of_ne] using hs)
      set := fun dep' u hu s' hs' => by
        by_cases hid : u.id = op.id
        · obtain rfl := h.eq_of_id hu hop hid
          have heq : s = s' := by simpa using hs'
          exact ⟨hlt, heq ▸ hs⟩
        · apply hf.vars.set dep' u hu s'
          simpa [Env.set_of_ne, hid] using hs'
      mg := fun name hname => hf.vars.mg name (by simpa [Env.declared, Env.set_of_ne] using hname) }
  recorded := hf.recorded
  names := fun name hname => by simpa [Env.declared, Env.set_of_ne] using hf.names name hname
  built := fun dep mg hmem hdeclared =>
    hf.built dep mg hmem (by simpa [Env.declared, Env.set_of_ne] using hdeclared)

/-- Without a mini-graph: the expression of each kind of operation has the set of the operation. -/
theorem evalSet_opStmts (hg : g.Valid) (hf : Sound plan g placed reqs f) (hlen : placed.length = dep + 1)
    (hop : op ∈ plan.ops dep) (hreads : ∀ v ∈ setReads plan op, f.env.declared v = true) :
    ∃ s, Denotes plan.adjMatType g placed op s ∧
      match plan.getParentVset op with
      | some parent =>
          if parent.loopDepth = op.loopDepth then
            evalSet f.env (.bounded (.set parent.id) (.id op.loopDepth)) = some s
          else evalSet f.env (prefixExpr plan.adjMatType op parent.id) = some s ∧
            evalCnt f.env (prefixCnt plan.adjMatType op parent.id) = some s.size
      | none => evalSet f.env (chainExpr plan.adjMatType op) = some s := by
  have hd : op.loopDepth = dep := h.loopDepth_eq hop
  have hlt : op.loopDepth < placed.length := by omega
  have hder := h.derivation hop
  rw [setReads] at hreads
  cases hparent : plan.getParentVset op with
  | some u =>
      rw [hparent] at hder hreads
      obtain ⟨s, hs⟩ := Option.isSome_iff_exists.mp (hreads (.set u.id) (by simp))
      cases hder with
      | sibling _ hmem hsame hrestricted =>
          have hdep : u.loopDepth = op.loopDepth := (same_iff.mp hsame).2.2
          obtain ⟨-, hdenotes⟩ := hf.vars.set dep u hmem s hs
          refine ⟨VertexSet.bounded s (placed.getD op.loopDepth 0), ?_, ?_⟩
          · exact hdenotes.of_sibling hsame hrestricted (VertexSet.bounded_data hdenotes.1 _)
          · simp [hdep, evalSet, evalId, hs, hf.vars.id _ hlt]
      | above _ dep' hdep hmem hsame =>
          have hne : u.loopDepth ≠ op.loopDepth := by
            rw [h.loopDepth_eq hmem]
            omega
          obtain ⟨-, hdenotes⟩ := hf.vars.set dep' u hmem s hs
          obtain ⟨N, hN⟩ := Option.isSome_iff_exists.mp
            (hreads (.adj op.loopDepth) (by simp [hne]))
          obtain ⟨-, rfl⟩ := hf.vars.adj _ N hN
          obtain ⟨s', p, heval, hcnt, hdata, hp⟩ := evalSet_prefixExpr plan.adjMatType op hs hdenotes.1 hg
            (hf.vars.lt _ hlt) hN
          refine ⟨s', hdenotes.of_filter hsame hdep hdata fun x _ => hdep ▸ hp x, ?_⟩
          simp only [hne, if_false]
          exact ⟨heval, hcnt⟩
  | none =>
      rw [hparent] at hder hreads
      cases hder with
      | root hedges =>
          have hready : Ready plan.adjMatType g placed [] f.env := by
            refine ⟨hf.vars.lt, hf.vars.id, fun i hi => ?_, by simp⟩
            have hin : Var.adj i ∈ (Var.adj op.loopDepth :: (List.range op.loopDepth).map Var.adj) := by
              rcases (show i = op.loopDepth ∨ i < op.loopDepth by omega) with rfl | hi
              · exact List.mem_cons_self
              · exact List.mem_cons_of_mem _ (List.mem_map_of_mem (List.mem_range.mpr hi))
            obtain ⟨N, hN⟩ := Option.isSome_iff_exists.mp (hreads _ hin)
            obtain ⟨-, rfl⟩ := hf.vars.adj _ N hN
            exact hN
          obtain ⟨s, heval, hs⟩ := evalSet_chainExpr hready hg hlt hedges
          exact ⟨s, hs, heval⟩

/-- From a mini-graph: the list of the current vertex gives the set of the operation. -/
theorem evalSet_mgOpStmts (hg : g.Valid) (hf : Sound plan g placed reqs f) (hlen : placed.length = dep + 1)
    (hle : dep ≤ plan.maxDep) (hop : op ∈ plan.ops dep) (hsound : plan.BoundedReads)
    (hmg : plan.getParentMg op = some mg) (hparent : plan.getParentVset op = some parent)
    (hlist : ListRead plan g placed (placed.getD dep 0) reqs f.store.built f.env mg)
    (hiter : Candidate plan.adjMatType g (plan.iter (dep - 1)).edges (plan.iter (dep - 1)).restricts placed
      dep (placed.getD dep 0))
    (hreads : plan.isEntry mg op = false → f.env.declared (.set parent.id) = true) :
    ∃ s, Denotes plan.adjMatType g placed op s ∧
      evalSet f.env (if plan.isEntry mg op then entryExpr op mg.id else mgExpr op parent.id mg.id) = some s ∧
      (plan.isEntry mg op = false → evalCnt f.env (mgCnt op parent.id mg.id) = some s.size) := by
  have hd : op.loopDepth = dep := h.loopDepth_eq hop
  obtain ⟨hzero, dep', hdep', hmem, hsup, hedge⟩ := PlanIR.mem_mgs_of_getParentMg hmg
  obtain ⟨hvertices, hintersect⟩ := h.mg_loopDepth hmem
  rw [MiniGraphIR.isSupersetOfSets, Bool.and_eq_true] at hsup
  obtain ⟨e, req, he, -, hstands, hanswers⟩ := hlist
  have hy : placed.getD dep 0 < g.numVertex := hf.vars.lt dep (by omega)
  have hbounded : req.bounded = true → op.loopDepth ∈ op.restricts := by
    intro hb
    rw [hstands.bounded] at hb
    exact of_decide_eq_true (hsound dep hle op hop mg hmg hb)
  cases hentry : plan.isEntry mg op with
  | true =>
      have hcomputed : mg.computed plan.adjMatType (plan.iter (op.loopDepth - 1)) op = true := hentry
      have hdepth : op.loopDepth = mg.intersect.loopDepth + 1 :=
        PlannedMgs.loopDepth_of_isEntry hentry
      obtain ⟨hv, hi⟩ := h.mg_sets dep' mg hmem
      -- the vertex of this body comes from the set that the build pruned for
      have hprecise : req.Precise (placed.getD dep 0) := by
        apply Or.inr ∘ Or.inr
        have hlast : mg.loopDepth = dep - 1 := by omega
        rw [hstands.iter.2, hlast, h.iter_loopDepth (by have := h.lt_pSize hop; omega)]
        rwa [show dep - 1 + 1 = dep by omega]
      obtain ⟨s, heval, hs⟩ := evalSet_entryExpr hg hcomputed (h.bounded hi) (h.bounded hop) hy
        (by rw [hd]) (by rw [hd]; exact hf.vars.id dep (by omega)) he hanswers hprecise hstands.intersect
        hbounded
      exact ⟨s, hs, by simpa using heval, by simp⟩
  | false =>
      have hder := h.derivation hop
      rw [hparent] at hder
      obtain ⟨s, hs⟩ := Option.isSome_iff_exists.mp (hreads hentry)
      obtain ⟨dep'', hmem''⟩ : ∃ dep'', parent ∈ plan.ops dep'' := by
        cases hder with
        | sibling _ hin _ _ => exact ⟨dep, hin⟩
        | above _ k _ hin _ => exact ⟨k, hin⟩
      obtain ⟨-, hdenotes⟩ := hf.vars.set dep'' parent hmem'' s hs
      have hsub := hder.candidate_intersect hdenotes hsup.2 (by omega)
      obtain ⟨s', p, heval, hcnt, hdata, hp⟩ := evalSet_mgExpr hs hdenotes.1 he
        (hanswers.prunedList hg hy hstands.intersect) hsub hbounded (hedge.symm) hg hy
      refine ⟨s', ?_, by simpa using heval, fun _ => hcnt⟩
      cases hder with
      | sibling _ _ hsame hrestricted =>
          exact hdenotes.of_sibling_filter hsame hrestricted hdata fun x hx => by rw [hd]; exact hd ▸ hp x hx
      | above _ k hk _ hsame =>
          refine hdenotes.of_filter hsame hk hdata fun x hx => ?_
          have := hp x hx
          rw [hd] at this hk
          rw [← hk]
          exact this

/-- The end of the operations of a body: their sets are declared, or one of them is empty. -/
def OpsEnd (plan : PlanIR) (g : Graph) (placed : List ℕ) (dep : ℕ) (reqs : List BuildRequest)
    (f : Frame (miniGraphMachine g layout)) (flow : Flow) (f' : Frame (miniGraphMachine g layout)) : Prop :=
  KeepsLists f f' ∧
    match flow with
    | .next => Sound plan g placed reqs f'
    | .skip => ∃ op ∈ plan.ops dep,
        ∀ x, ¬ Candidate plan.adjMatType g op.edges op.restricts placed (dep + 1) x

omit h in
theorem keepsLists_declareSet (f : Frame (miniGraphMachine g layout)) (id : ℤ) (s : VertexSet) :
    KeepsLists f (f.declare (.set id) s) := by
  apply KeepsLists.of_declare <;> simp

/-- A set that is declared. -/
theorem runs_declSet (hf : Sound plan g placed reqs f) (hlen : placed.length = dep + 1)
    (hop : op ∈ plan.ops dep) {e : SetExpr} {s : VertexSet} (heval : evalSet f.env e = some s)
    (hs : Denotes plan.adjMatType g placed op s) :
    Runs (BuildFits cfg g layout) (AssertionsHold g layout) g path [.declSet op.id e] f
      (OpsEnd plan g placed dep reqs f) := by
  have hlt : op.loopDepth < placed.length := by
    rw [h.loopDepth_eq hop, hlen]
    exact Nat.lt_succ_self dep
  exact .plain (execStmt_declSet heval)
    ⟨keepsLists_declareSet f op.id s, hf.declareSet h hop hlt hs⟩

/-- A set that is declared; the body is left where it is empty. -/
theorem runs_declSet_continue (hf : Sound plan g placed reqs f) (hlen : placed.length = dep + 1)
    (hop : op ∈ plan.ops dep) {e : SetExpr} {s : VertexSet} (heval : evalSet f.env e = some s)
    (hs : Denotes plan.adjMatType g placed op s) :
    Runs (BuildFits cfg g layout) (AssertionsHold g layout) g path
      [.declSet op.id e, .continueIfEmpty op.id] f (OpsEnd plan g placed dep reqs f) := by
  have hd := h.loopDepth_eq hop
  have hlt : op.loopDepth < placed.length := by omega
  have hcontinue : execStmt g path (f.declare (.set op.id) s) (.continueIfEmpty op.id)
      = some (if s.size = 0 then .skip else .next, f.declare (.set op.id) s) :=
    execStmt_continueIfEmpty (Env.set_self _ _ _)
  change Runs _ _ g path ([.declSet op.id e] ++ [.continueIfEmpty op.id]) f _
  apply Runs.append fun flow f' => flow = .next ∧ f' = f.declare (.set op.id) s
  · exact .plain (execStmt_declSet heval) ⟨rfl, rfl⟩
  · rintro f' ⟨-, rfl⟩
    refine .plain hcontinue ⟨keepsLists_declareSet f op.id s, ?_⟩
    by_cases hempty : s.size = 0
    · rw [if_pos hempty]
      refine ⟨op, hop, fun x hx => ?_⟩
      have hmem : x ∈ s.data := (hs.2 x).mpr (hd.symm ▸ hx)
      simp [List.length_eq_zero_iff.mp hempty] at hmem
    · rw [if_neg hempty]
      exact hf.declareSet h hop hlt hs
  · rintro f' ⟨hflow, -⟩
    simp at hflow

/-- What an operation reads is declared. -/
theorem declared_of_closed_mgOpStmts {scope : Scope} (hf : Sound plan g placed reqs f)
    (hlen : placed.length = dep + 1) (hop : op ∈ plan.ops dep) (hscope : Declares scope f)
    (hclosed : ClosedStmts scope (mgOpStmts plan op)) :
    ∀ v ∈ opReads plan op, f.env.declared v = true := by
  have hid : f.env.declared (.id op.loopDepth) = true := by
    rw [Env.declared, hf.vars.id _ (by rw [h.loopDepth_eq hop]; omega)]
    rfl
  have hclosed' := hclosed.mono (List.subset_cons_self (Var.id op.loopDepth) scope)
  rw [closed_mgOpStmts List.mem_cons_self h.lastOp_of_readsEntry] at hclosed'
  intro v hv
  rcases List.mem_cons.mp (hclosed' hv) with rfl | hin
  · exact hid
  · exact hscope v hin

/-- The statements of one operation. -/
theorem runs_mgOpStmts {scope : Scope} (hg : g.Valid) (hf : Sound plan g placed reqs f)
    (hlen : placed.length = dep + 1) (hle : dep ≤ plan.maxDep) (hop : op ∈ plan.ops dep)
    (hlast : plan.isLastOp op = false) (hsound : plan.BoundedReads) (hscope : Declares scope f)
    (hclosed : ClosedStmts scope (mgOpStmts plan op))
    (hlists : ∀ mg ∈ plan.used dep,
      ListRead plan g placed (placed.getD dep 0) reqs f.store.built f.env mg)
    (hiter : 0 < dep → Candidate plan.adjMatType g (plan.iter (dep - 1)).edges
      (plan.iter (dep - 1)).restricts placed dep (placed.getD dep 0)) :
    Runs (BuildFits cfg g layout) (AssertionsHold g layout) g path (mgOpStmts plan op) f
      (OpsEnd plan g placed dep reqs f) := by
  have hreads := declared_of_closed_mgOpStmts h hf hlen hop hscope hclosed
  rw [opReads] at hreads
  rw [mgOpStmts]
  cases hmg : plan.getParentMg op with
  | some mg =>
      obtain ⟨parent, hparent⟩ := h.exists_parent hop hmg
      have hpos : 0 < dep := by
        have hzero := (PlanIR.mem_mgs_of_getParentMg hmg).1
        rw [h.loopDepth_eq hop] at hzero
        exact Nat.pos_of_ne_zero hzero
      have hused : mg ∈ plan.used dep := (h.mem_used dep mg).mpr ⟨hle, op, hop, hmg⟩
      simp only [hmg, hparent] at hreads
      obtain ⟨s, hs, heval, -⟩ := evalSet_mgOpStmts h hg hf hlen hle hop hsound hmg hparent
        (hlists mg hused) (hiter hpos) fun hentry => hreads _ (by simp [hentry])
      simp only [hparent, hlast, Bool.false_eq_true, if_false]
      exact runs_declSet_continue h hf hlen hop heval hs
  | none =>
      simp only [hmg] at hreads
      obtain ⟨s, hs, heval⟩ := evalSet_opStmts h hg hf hlen hop hreads
      simp only
      rw [opStmts]
      cases hparent : plan.getParentVset op with
      | some parent =>
          simp only [hparent] at heval
          by_cases hdep : parent.loopDepth = op.loopDepth
          · simp only [hdep, if_true] at heval ⊢
            exact runs_declSet h hf hlen hop heval hs
          · simp only [hdep, if_false, hlast, Bool.false_eq_true] at heval ⊢
            exact runs_declSet h hf hlen hop heval.1 hs
      | none =>
          simp only [hparent] at heval
          simp only [hlast, Bool.false_eq_true, if_false]
          exact runs_declSet_continue h hf hlen hop heval hs

/-- The operations of a body with another loop below it. -/
theorem runs_ops {scope : Scope} (hg : g.Valid) (hf : Sound plan g placed reqs f)
    (hlen : placed.length = dep + 1) (hle : dep ≤ plan.maxDep) (hnot : dep + 2 ≠ plan.pSize)
    (hsound : plan.BoundedReads) (hscope : Declares scope f)
    (hclosed : ClosedStmts scope ((plan.ops dep).flatMap (mgOpStmts plan)))
    (hlists : ∀ mg ∈ plan.used dep,
      ListRead plan g placed (placed.getD dep 0) reqs f.store.built f.env mg)
    (hiter : 0 < dep → Candidate plan.adjMatType g (plan.iter (dep - 1)).edges
      (plan.iter (dep - 1)).restricts placed dep (placed.getD dep 0)) :
    Runs (BuildFits cfg g layout) (AssertionsHold g layout) g path ((plan.ops dep).flatMap (mgOpStmts plan)) f
      (OpsEnd plan g placed dep reqs f) := by
  rw [closedStmts_flatMap] at hclosed
  set inv : List VertexSetIR → Frame (miniGraphMachine g layout) → Prop := fun before f' =>
    KeepsLists f f' ∧ Sound plan g placed reqs f' ∧
      Declares (scopeAfter scope (before.flatMap (mgOpStmts plan))) f'
  set left : Frame (miniGraphMachine g layout) → Prop := fun f' => KeepsLists f f' ∧ ∃ op ∈ plan.ops dep,
    ∀ x, ¬ Candidate plan.adjMatType g op.edges op.restricts placed (dep + 1) x
  refine Runs.mono (Runs.flatMap inv left (fun before op after f₁ hl hbefore => ?_)
    ⟨.refl f, hf, hscope⟩) (fun flow f' hend => ?_)
  · obtain ⟨hkeeps, hf₁, hscope₁⟩ := hbefore
    have hop : op ∈ plan.ops dep := by simp [hl]
    have hlast : plan.isLastOp op = false := by
      simpa [PlanIR.isLastOp, h.loopDepth_eq hop] using hnot
    have hrun : Runs (BuildFits cfg g layout) (AssertionsHold g layout) g path _ _ _ :=
      runs_mgOpStmts h hg hf₁ hlen hle hop hlast hsound hscope₁ (hclosed before op after hl)
        (fun mg hmg => hkeeps.listRead (hlists mg hmg)) hiter
    refine (hrun.withScope hscope₁).mono fun flow f₂ hend => ?_
    obtain ⟨⟨hkeeps₂, hflow⟩, hscope₂⟩ := hend
    cases flow with
    | next =>
        refine ⟨hkeeps.trans hkeeps₂, hflow, ?_⟩
        rw [List.flatMap_append, List.flatMap_singleton, scopeAfter_append]
        exact hscope₂ rfl
    | skip => exact ⟨hkeeps.trans hkeeps₂, hflow⟩
  · cases flow with
    | next => exact ⟨hend.1, hend.2.1⟩
    | skip => exact hend

/-- The operation of the innermost body counts its candidates. -/
theorem runs_lastOp {scope : Scope} (hg : g.Valid) (hf : Sound plan g placed reqs f)
    (hlen : placed.length = dep + 1) (hle : dep ≤ plan.maxDep) (hlast : dep + 2 = plan.pSize)
    (hsound : plan.BoundedReads) (hscope : Declares scope f)
    (hclosed : ClosedStmts scope ((plan.ops dep).flatMap (mgOpStmts plan)))
    (hlists : ∀ mg ∈ plan.used dep,
      ListRead plan g placed (placed.getD dep 0) reqs f.store.built f.env mg)
    (hiter : 0 < dep → Candidate plan.adjMatType g (plan.iter (dep - 1)).edges
      (plan.iter (dep - 1)).restricts placed dep (placed.getD dep 0)) :
    Runs (BuildFits cfg g layout) (AssertionsHold g layout) g path ((plan.ops dep).flatMap (mgOpStmts plan)) f
      fun _ f' => f'.state = f.state ∧
        f'.counter = f.counter + extensions plan.adjMatType g edge restrict 1 placed := by
  obtain ⟨op, hops⟩ : ∃ op, plan.ops dep = [op] := by
    have hone := h.ops_last
    rw [← hlast] at hone
    exact List.length_eq_one_iff.mp hone
  have hop : op ∈ plan.ops dep := by simp [hops]
  have hd : op.loopDepth = dep := h.loopDepth_eq hop
  have hisLast : plan.isLastOp op = true := by simp [PlanIR.isLastOp, hd, hlast]
  rw [hops, List.flatMap_singleton] at hclosed ⊢
  have hreads := declared_of_closed_mgOpStmts h hf hlen hop hscope hclosed
  -- only the last vertex has a set here
  have hsize : ∀ s, Denotes plan.adjMatType g placed op s →
      s.size = extensions plan.adjMatType g edge restrict 1 placed := by
    intro s hs
    obtain ⟨-, v, hlow, hhigh, hsame⟩ := h.ops_sound dep op hop
    obtain rfl : v = placed.length := by omega
    exact hs.size_eq hsame hlen
  have hcount : ∀ (amount : CntExpr) (s : VertexSet) (f₁ : Frame (miniGraphMachine g layout)),
      Denotes plan.adjMatType g placed op s → f₁.state = f.state → f₁.counter = f.counter →
      evalCnt f₁.env amount = some s.size →
      Runs (BuildFits cfg g layout) (AssertionsHold g layout) g path [.count amount] f₁ fun _ f' =>
        f'.state = f.state ∧
          f'.counter = f.counter + extensions plan.adjMatType g edge restrict 1 placed := by
    intro amount s f₁ hs hstate hcounter heval
    refine .plain (execStmt_count heval) ⟨hstate, ?_⟩
    rw [← hsize s hs, ← hcounter]
  rw [opReads] at hreads
  rw [mgOpStmts]
  cases hmg : plan.getParentMg op with
  | some mg =>
      obtain ⟨parent, hparent⟩ := h.exists_parent hop hmg
      have hpos : 0 < dep := by
        have hzero := (PlanIR.mem_mgs_of_getParentMg hmg).1
        rw [hd] at hzero
        exact Nat.pos_of_ne_zero hzero
      have hused : mg ∈ plan.used dep := (h.mem_used dep mg).mpr ⟨hle, op, hop, hmg⟩
      have hentry : plan.isEntry mg op = false := by
        by_contra hnot
        have hfalse := h.isLastOp_of_isEntry hmg (by simpa using hnot)
        simp [hfalse] at hisLast
      simp only [hmg, hparent] at hreads
      obtain ⟨s, hs, -, hcnt⟩ := evalSet_mgOpStmts h hg hf hlen hle hop hsound hmg hparent
        (hlists mg hused) (hiter hpos) fun hentry => hreads _ (by simp [hentry])
      simp only [hparent, hisLast, if_true]
      exact hcount _ s f hs rfl rfl (hcnt hentry)
  | none =>
      simp only [hmg] at hreads
      obtain ⟨s, hs, heval⟩ := evalSet_opStmts h hg hf hlen hop hreads
      simp only
      rw [opStmts]
      cases hparent : plan.getParentVset op with
      | some parent =>
          simp only [hparent] at heval
          have hdep : parent.loopDepth ≠ op.loopDepth := by
            have hder := h.derivation hop
            rw [hparent, hops] at hder
            cases hder with
            | sibling _ hmem hsame hrestricted =>
                rw [List.mem_singleton.mp hmem] at hsame
                have hres := (same_iff.mp hsame).2.1
                rw [hres] at hrestricted
                simp [unrestricted] at hrestricted
            | above _ k hk hmem _ =>
                rw [h.loopDepth_eq hmem]
                omega
          simp only [hdep, if_false, hisLast, if_true] at heval ⊢
          exact hcount _ s f hs rfl rfl heval.2
      | none =>
          simp only [hparent] at heval
          simp only [hisLast, if_true]
          change Runs _ _ g path ([.declSet op.id _, .continueIfEmpty op.id] ++ [.count _]) f _
          apply Runs.append _ ((runs_declSet_continue h hf hlen hop heval hs).withScope hscope)
          · rintro f₁ ⟨⟨hkeeps, hf₁⟩, hscope₁⟩
            have hdecl : f₁.env.declared (.set op.id) = true :=
              hscope₁ rfl _ (mem_scopeAfter.mpr (Or.inr ⟨_, List.mem_cons_self, rfl⟩))
            obtain ⟨s₁, hs₁⟩ := Option.isSome_iff_exists.mp hdecl
            obtain ⟨-, hdenotes⟩ := hf₁.vars.set dep op hop s₁ hs₁
            exact hcount _ s₁ f₁ hdenotes hkeeps.state hkeeps.counter (by simp [evalCnt, evalSet, hs₁])
          · rintro f₁ ⟨⟨hkeeps, op', hop', hnone⟩, -⟩
            rw [hops, List.mem_singleton] at hop'
            have hempty : s.data = [] := by
              refine List.eq_nil_iff_forall_not_mem.mpr fun x hx => hnone x ?_
              rw [hop', ← hd]
              exact (hs.2 x).mp hx
            refine ⟨hkeeps.state, ?_⟩
            rw [hkeeps.counter, ← hsize s hs, VertexSet.size, hempty]
            simp

end

end GraphMini
