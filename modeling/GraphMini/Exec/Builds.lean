import GraphMini.Exec.Frames

/-!
# The builds of a loop body

A mini-graph is declared and built at once. Its vertex set lies in that of the mini-graph it is built
from, since the plan pairs a mini-graph with a superset of both of its parts, and the set a mini-graph
is looked up for lies in its vertices for the same reason.
-/

namespace GraphMini

open VertexSetIR MgStore

section

variable {edge restrict : ℕ → Finset ℕ} {cfg : CodeGenConfig} {plan : PlanIR}
  (h : PlannedMgs edge restrict cfg plan) {g : Graph} {layout : Layout} {placed : List ℕ}
  {reqs : List BuildRequest} {f f' : Frame (miniGraphMachine g layout)} {path : List ℕ} {dep x : ℕ}
  {mg parent : MiniGraphIR} {req preq : BuildRequest}

theorem Denotes.lt_numVertex {t : AdjMatType} {op : VertexSetIR} {s : VertexSet}
    (h : Denotes t g placed op s) : ∀ x ∈ s.data, x < g.numVertex :=
  fun x hx => ((h.2 x).mp hx).1

/-- Of two sets at hand the superset holds the other. -/
theorem Denotes.subset_of_isSupersetOf {t : AdjMatType} {u v : VertexSetIR} {s s' : VertexSet}
    (hs : Denotes t g placed u s) (hs' : Denotes t g placed v s') (h : u.isSupersetOf t v = true) :
    ∀ x ∈ s'.data, x ∈ s.data :=
  fun x hx => (hs.2 x).mpr (((hs'.2 x).mp hx).of_isSupersetOf h)

/-- A parent of the plan covers the mini-graphs that are built from it. -/
theorem StandsFor.covers (hchild : StandsFor plan g placed mg req) (hparent : StandsFor plan g placed parent preq)
    (hfound : plan.getParentMgOf mg = some parent) (hconsistent : preq.vertex.Consistent req.vertex) :
    req.CoveredBy preq := by
  obtain ⟨_, -, -, hsup, -, hbounded⟩ := PlanIR.mem_mgs_of_getParentMgOf hfound
  rw [MiniGraphIR.isSupersetOf, MiniGraphIR.isSupersetOfSets, Bool.and_eq_true] at hsup
  refine ⟨?_, ?_, ?_, hconsistent⟩
  · exact hparent.vertex.subset_of_isSupersetOf hchild.vertex hsup.1
  · exact hparent.intersect.subset_of_isSupersetOf hchild.intersect hsup.2
  · rw [hparent.bounded, hchild.bounded]
    exact hbounded

/-- What a build asks for, where its sets are at hand. -/
theorem exists_request (layout : Layout) (path : List ℕ) {s : MgStore} {type : MgType} {bounded : Bool}
    {name : ℤ} {p : Option ℤ} (vertex intersect iter : VertexSet) (hdeclared : s.declared name = some (type, bounded))
    (hparent : ∀ q ∈ p, (number s.built q).isSome = true) :
    ∃ req : BuildRequest, s.request layout path name p vertex intersect iter = some req ∧
      req.type = type ∧ req.bounded = bounded ∧ p.mapM (number s.built) = some req.parent ∧
      req.vertex.toVertexSet = vertex ∧ req.intersect = intersect ∧ req.iter.toVertexSet = iter ∧
      req.vertex.Consistent req.iter ∧
      ∀ m ∈ s.objects, m.vertex.Consistent req.vertex := by
  obtain ⟨p', hp'⟩ : ∃ p', p.mapM (number s.built) = some p' := by
    cases p with
    | none => exact ⟨none, rfl⟩
    | some q =>
        obtain ⟨k, hk⟩ := Option.isSome_iff_exists.mp (hparent q rfl)
        exact ⟨some k, by rw [Option.mapM_some, hk]; rfl⟩
  refine ⟨_, by rw [request, hdeclared]; simp only [Option.bind_eq_bind, Option.bind_some, hp']; rfl,
    rfl, rfl, hp', place_toVertexSet, rfl, place_toVertexSet, ?_, ?_⟩
  · exact consistent_place List.mem_cons_self
  · exact fun m hm => consistent_place (List.mem_map_of_mem hm)

/-- A build of the plan is admissible. -/
theorem StandsFor.admissible (hg : g.Valid) (hf : Sound plan g placed reqs f)
    (hreq : StandsFor plan g placed mg req)
    (hparent : ∀ parent, plan.getParentMgOf mg = some parent → f.env.declared (.mg parent.id) = true)
    (hnumber : ((plan.getParentMgOf mg).map MiniGraphIR.id).mapM (number f.store.built) = some req.parent)
    (hself : req.vertex.Consistent req.iter)
    (hothers : ∀ m ∈ f.store.objects, m.vertex.Consistent req.vertex) : req.Admissible g reqs where
  sets :=
    { vertex_sorted := hreq.vertex.1
      vertex_lt := hreq.vertex.lt_numVertex
      intersect_sorted := hreq.intersect.1
      intersect_lt := fun x hx => (hreq.intersect.lt_numVertex x hx).trans hg.numVertex_lt
      iter_sorted := hreq.iter.1
      consistent := hself }
  covered k hk := by
    cases hfound : plan.getParentMgOf mg with
    | none => simp [hfound, hk] at hnumber
    | some parent =>
        obtain ⟨dep, -, hmem, -⟩ := PlanIR.mem_mgs_of_getParentMgOf hfound
        obtain ⟨preq, hpreq, hstands⟩ := hf.built dep parent hmem (hparent parent hfound)
        obtain ⟨m, hm, -, hvertex⟩ := hf.recorded.object_eq hpreq
        obtain ⟨k', hk', hlookup⟩ := Option.bind_eq_some_iff.mp hpreq
        have hsame : k' = k := by
          simpa [hfound, hk, hk'] using hnumber
        rw [hsame] at hlookup
        exact ⟨preq, hlookup, hreq.covers hstands hfound (hvertex ▸ hothers m hm)⟩

theorem pruningType_of_genMgType {plan : PlanIR} {cfg : CodeGenConfig} {mg : MiniGraphIR}
    (hcost : genMgType plan cfg mg = .costModel) : cfg.pruningType = .costModel := by
  rw [genMgType] at hcost
  split_ifs at hcost
  cases hprune : cfg.pruningType <;> simp [hprune, miniGraphType] at hcost ⊢

include h

/-- `MiniGraphLazy` gets an iter set within its vertex set. -/
theorem StandsFor.iter_subset (hmg : mg ∈ plan.mgs dep) (hreq : StandsFor plan g placed mg req)
    (hlazy : genMgType plan cfg mg = .lazy) : ∀ x ∈ req.iter.data, x ∈ req.vertex.data := by
  have hstatic : cfg.pruningType = .static := by
    rw [genMgType] at hlazy
    split_ifs at hlazy
    cases hprune : cfg.pruningType <;> simp [hprune, miniGraphType] at hlazy ⊢
  have hsup := h.mgs_static hstatic dep mg hmg
  rw [← (h.mg_loopDepth hmg).1] at hsup
  exact hreq.vertex.subset_of_isSupersetOf hreq.iter hsup

/-- A mini-graph that has been built. -/
theorem Sound.addMg (hf : Sound plan g placed reqs f) (hdep : dep < placed.length) (hmg : mg ∈ plan.mgs dep)
    (hfresh : f.env.declared (.mg mg.id) = false) (hstands : StandsFor plan g placed mg req)
    (henv : f'.env = f.env.set (.mg mg.id) ()) (hbuilt : f'.store.built = mg.id :: f.store.built)
    (hrec : Recorded g (req :: reqs) f'.store) : Sound plan g placed (req :: reqs) f' := by
  have hother : ∀ v, v ≠ .mg mg.id → f'.env v = f.env v := fun v hv => by
    rw [henv, Env.set_of_ne _ _ hv]
  have hself : requestOf f'.store.built (req :: reqs) mg.id = some req := by
    rw [hbuilt]
    exact requestOf_self hf.recorded mg.id req
  constructor
  · constructor
    · exact hf.vars.lt
    · intro i hi
      rw [hother _ (by simp)]
      exact hf.vars.id i hi
    · intro i s hs
      rw [hother _ (by simp)] at hs
      exact hf.vars.adj i s hs
    · intro dep op hop s hs
      rw [hother _ (by simp)] at hs
      exact hf.vars.set dep op hop s hs
    · intro name hname
      by_cases hid : name = mg.id
      · exact ⟨dep, hdep, mg, hmg, hid.symm⟩
      · rw [Env.declared, hother _ (by simpa using hid)] at hname
        exact hf.vars.mg name hname
  · exact hrec
  · intro name hname
    have hname' : name ∈ mg.id :: f.store.built := hbuilt ▸ hname
    by_cases hid : name = mg.id
    · rw [hid, Env.declared, henv, Env.set_self]
      rfl
    · rw [Env.declared, hother _ (by simpa using hid)]
      exact hf.names name ((List.mem_cons.mp hname').resolve_left hid)
  · intro dep' mg' hmem hdeclared
    by_cases hid : mg'.id = mg.id
    · -- one id is one mini-graph
      obtain rfl := h.mg_id _ _ mg' hmem mg hmg hid
      exact ⟨req, hself, hstands⟩
    · rw [Env.declared, hother _ (by simpa using hid)] at hdeclared
      obtain ⟨req', hreq', hstands'⟩ := hf.built dep' mg' hmem hdeclared
      refine ⟨req', ?_, hstands'⟩
      have hbuilt' : f'.state.built = [mg.id] ++ f.store.built := hbuilt
      have hnew : mg'.id ∉ [mg.id] := by simpa using hid
      rw [hbuilt', show req :: reqs = [req] ++ reqs from rfl]
      exact requestOf_append hnew hreq'

/-- A mini-graph has been declared and built. -/
structure Built (plan : PlanIR) (g : Graph) (placed : List ℕ) (mg : MiniGraphIR) (reqs : List BuildRequest)
    (f f' : Frame (miniGraphMachine g layout)) : Prop where
  sound : ∃ req, Sound plan g placed (req :: reqs) f'
  built : f'.store.built = mg.id :: f.store.built
  counter : f'.counter = f.counter
  env : ∀ v, v ≠ .mg mg.id → f'.env v = f.env v

/-- The build of a mini-graph that has just been declared. -/
theorem execStmt_build (hg : g.Valid) (hf : Sound plan g placed reqs f) (hlen : placed.length = dep + 1)
    (hmg : mg ∈ plan.mgs dep) (hfresh : f.env.declared (.mg mg.id) = false)
    {f₁ : Frame (miniGraphMachine g layout)} (hcounter : f₁.counter = f.counter)
    (hbuilt : f₁.store.built = f.store.built) (hobjects : f₁.store.objects = f.store.objects)
    (hdeclared : f₁.store.declared mg.id = some (genMgType plan cfg mg, plan.isBounded mg))
    (henv : f₁.env = f.env.set (.mg mg.id) ())
    (hsets : ∀ op ∈ [mg.vertices, mg.intersect, plan.iter dep], f.env.declared (.set op.id) = true)
    (hparent : ∀ parent, plan.getParentMgOf mg = some parent → f.env.declared (.mg parent.id) = true)
    (hfits : BuildFits cfg g layout path f₁ (.build mg.id ((plan.getParentMgOf mg).map MiniGraphIR.id) mg.vsetId
      mg.vintId (plan.iter dep).id)) :
    AssertionsHold g layout path f₁ (.build mg.id ((plan.getParentMgOf mg).map MiniGraphIR.id) mg.vsetId
        mg.vintId (plan.iter dep).id) ∧
      ∃ f', execStmt g path f₁ (.build mg.id ((plan.getParentMgOf mg).map MiniGraphIR.id) mg.vsetId
        mg.vintId (plan.iter dep).id) = some (.next, f') ∧ Built plan g placed mg reqs f f' := by
  obtain ⟨hvertices, hintersect⟩ := h.mg_sets dep mg hmg
  have hiter : plan.iter dep ∈ plan.ops dep := h.iter_mem dep (h.lt_of_mem_mgs hmg)
  have hset : ∀ id, f₁.env (.set id) = f.env (.set id) := fun id => by
    rw [henv, Env.set_of_ne _ _ (by simp)]
  obtain ⟨vertex, hvertex⟩ := Option.isSome_iff_exists.mp (hsets mg.vertices (by simp))
  obtain ⟨intersect, hint⟩ := Option.isSome_iff_exists.mp (hsets mg.intersect (by simp))
  obtain ⟨iterated, hiterated⟩ := Option.isSome_iff_exists.mp (hsets (plan.iter dep) (by simp))
  have hdv := (hf.vars.set dep _ hvertices vertex hvertex).2
  have hdi := (hf.vars.set dep _ hintersect intersect hint).2
  have hdt := (hf.vars.set dep _ hiter iterated hiterated).2
  have hvertex₁ : f₁.env (.set mg.vsetId) = some vertex := (hset _).trans hvertex
  have hint₁ : f₁.env (.set mg.vintId) = some intersect := (hset _).trans hint
  have hiterated₁ : f₁.env (.set (plan.iter dep).id) = some iterated := (hset _).trans hiterated
  have hrec₁ : Recorded g reqs f₁.store := ⟨hobjects ▸ hf.recorded.represent, hbuilt ▸ hf.recorded.length⟩
  have hparent₁ : ∀ parent, plan.getParentMgOf mg = some parent → f₁.env (.mg parent.id) = some () := by
    intro parent hfound
    have hdecl := hparent parent hfound
    have hne : Var.mg parent.id ≠ .mg mg.id := by
      intro heq
      rw [Var.mg.injEq] at heq
      simp [← heq, hdecl] at hfresh
    rw [henv, Env.set_of_ne _ _ hne]
    obtain ⟨value, hvalue⟩ := Option.isSome_iff_exists.mp hdecl
    exact hvalue
  -- the parent has been built
  have hpreq : ∀ parent, plan.getParentMgOf mg = some parent →
      ∃ preq, requestOf f₁.store.built reqs parent.id = some preq ∧ StandsFor plan g placed parent preq := by
    intro parent hfound
    obtain ⟨dep', -, hmem, -⟩ := PlanIR.mem_mgs_of_getParentMgOf hfound
    obtain ⟨preq, hpreq, hstands⟩ := hf.built dep' parent hmem (hparent parent hfound)
    exact ⟨preq, by rw [hbuilt]; exact hpreq, hstands⟩
  have hnumber : ∀ q ∈ (plan.getParentMgOf mg).map MiniGraphIR.id, (number f₁.store.built q).isSome = true := by
    intro q hq
    obtain ⟨parent, hfound, rfl⟩ := Option.map_eq_some_iff.mp hq
    obtain ⟨preq, hpreq, -⟩ := hpreq parent hfound
    obtain ⟨k, hk, -⟩ := Option.bind_eq_some_iff.mp hpreq
    rw [hk]
    rfl
  obtain ⟨req, hreq, htype, hbounded, hparents, hrv, hri, hrt, hself, hothers⟩ :=
    exists_request layout path vertex intersect iterated hdeclared hnumber
  have hstands : StandsFor plan g placed mg req := by
    refine ⟨hrv ▸ hdv, hri ▸ hdi, ?_, hbounded⟩
    rw [(h.mg_loopDepth hmg).1, hrt]
    exact hdt
  have hadm : req.Admissible g reqs :=
    hstands.admissible hg hf hparent (hbuilt ▸ hparents) hself (hobjects ▸ hothers)
  have hfits' := hfits vertex hvertex₁ intersect hint₁ iterated hiterated₁ req hreq
  have hlazy : req.type = .lazy → iterated.data ⊆ vertex.data := by
    intro hlazy x hx
    have hin := StandsFor.iter_subset h hmg hstands (htype ▸ hlazy) x
    rw [← hrv, ← hrt] at *
    exact hin hx
  have hfound : req.type = .lazy → req.IterFound := fun htype' =>
    (BuildRequest.iterFound_iff hadm.sets).mpr fun _ => StandsFor.iter_subset h hmg hstands (htype ▸ htype')
  obtain ⟨s', hbuild, hrec, hbuilt', -⟩ :=
    hrec₁.build_spec hg hreq hadm hfits'.1 hfound
      fun hcost => hfits'.2 (pruningType_of_genMgType (htype ▸ hcost)) hcost
  set f' : Frame (miniGraphMachine g layout) := { f₁ with state := s' } with hf'
  have hrun : execStmt g path f₁ (.build mg.id ((plan.getParentMgOf mg).map MiniGraphIR.id) mg.vsetId
      mg.vintId (plan.iter dep).id) = some (.next, f') := by
    have hself₁ : f₁.env (.mg mg.id) = some () := by rw [henv, Env.set_self]
    have hmapM : ∃ p', ((plan.getParentMgOf mg).map MiniGraphIR.id).mapM (fun p => f₁.env (.mg p))
        = some p' := by
      cases hfound : plan.getParentMgOf mg with
      | none => exact ⟨none, rfl⟩
      | some parent => exact ⟨some (), by simp [hparent₁ parent hfound]⟩
    obtain ⟨p', hp'⟩ := hmapM
    have hbuild' : (miniGraphMachine g layout).build path f₁.state mg.id
        ((plan.getParentMgOf mg).map MiniGraphIR.id) vertex intersect iterated = some s' := hbuild
    simp only [execStmt, hself₁, hp', hvertex₁, hint₁, hiterated₁, hbuild', Option.bind_eq_bind,
      Option.bind_some]
    rfl
  refine ⟨?_, f', hrun, ?_⟩
  · simp only [AssertionsHold, hvertex₁, hiterated₁, hdeclared]
    refine ⟨?_, ?_, by rw [hrun]; rfl⟩
    · -- the vertex set of a child lies in that of its parent
      intro q hq
      obtain ⟨parent, hfound, rfl⟩ := Option.map_eq_some_iff.mp hq
      obtain ⟨preq, hpreq, hpstands⟩ := hpreq parent hfound
      obtain ⟨m, -, hm, hv⟩ := hrec₁.object_eq hpreq
      obtain ⟨_, -, -, hsup, -, -⟩ := PlanIR.mem_mgs_of_getParentMgOf hfound
      rw [MiniGraphIR.isSupersetOf, MiniGraphIR.isSupersetOfSets, Bool.and_eq_true] at hsup
      rw [Covered, hm]
      intro x hx
      have hin := hpstands.vertex.subset_of_isSupersetOf hdv hsup.1 x hx
      rw [hv]
      exact hin
    · intro heq
      exact hlazy (htype.trans heq)
  · refine ⟨⟨req, ?_⟩, ?_, hcounter, ?_⟩
    · exact Sound.addMg h hf (by omega) hmg hfresh hstands henv (hbuilt'.trans (by rw [hbuilt])) hrec
    · exact hbuilt'.trans (by rw [hbuilt])
    · intro v hv
      exact (congrFun henv v).trans (Env.set_of_ne _ _ hv)

/-- The factor of a build is computed from sets of its depth. -/
theorem runs_reuse (hmg : mg ∈ plan.mgs dep) (hself : f.env.declared (.mg mg.id) = true)
    (hops : ∀ u ∈ plan.ops dep, f.env.declared (.set u.id) = true) :
    Runs (BuildFits cfg g layout) (AssertionsHold g layout) g path
      (if cfg.pruningType = .costModel && !mgShouldEager plan mg then
        [.setReuseMultiplier mg.id (reuseSummands plan mg)] else []) f
      fun flow f' => flow = .next ∧ f' = f := by
  split_ifs
  · have hlevel := (h.mg_loopDepth hmg).1
    have hiter := h.iter_mem dep (h.lt_of_mem_mgs hmg)
    obtain ⟨value, hvalue⟩ := Option.isSome_iff_exists.mp hself
    have hsummand : ∀ summand ∈ reuseSummands plan mg, ∀ id ∈ summand.1, f.env.declared (.set id) = true := by
      intro summand hsummand id hid
      obtain ⟨dep', -, hsome⟩ := List.mem_filterMap.mp hsummand
      simp only [Option.ite_none_right_eq_some, Option.some.injEq] at hsome
      obtain ⟨-, rfl⟩ := hsome
      obtain ⟨u, hu, rfl⟩ := PlannedMgs.mem_genCodeMgEstVisits (hlevel.symm ▸ hiter) hid
      exact hops u (hlevel ▸ hu)
    obtain ⟨sizes, hsizes⟩ : ∃ sizes, (reuseSummands plan mg).mapM
        (fun summand => summand.1.mapM fun id => f.env (.set id)) = some sizes :=
      Loop.exists_mapM fun summand hmem => Loop.exists_mapM fun id hid =>
        Option.isSome_iff_exists.mp (hsummand summand hmem id hid)
    have hrun : execStmt g path f (.setReuseMultiplier mg.id (reuseSummands plan mg)) = some (.next, f) := by
      simp only [execStmt, hvalue, hsizes, Option.bind_eq_bind, Option.bind_some]
      rfl
    exact .plain hrun ⟨rfl, rfl⟩
  · exact .nil ⟨rfl, rfl⟩

/-- Declaring and building a mini-graph. -/
theorem runs_mgStmts (hg : g.Valid) (hf : Sound plan g placed reqs f) (hlen : placed.length = dep + 1)
    (hmg : mg ∈ plan.mgs dep) (hfresh : f.env.declared (.mg mg.id) = false)
    (hops : ∀ u ∈ plan.ops dep, f.env.declared (.set u.id) = true)
    (hparent : ∀ parent, plan.getParentMgOf mg = some parent → f.env.declared (.mg parent.id) = true) :
    Runs (BuildFits cfg g layout) (AssertionsHold g layout) g path (mgStmts plan cfg mg) f
      fun flow f' => flow = .next ∧ Built plan g placed mg reqs f f' := by
  set f₁ : Frame (miniGraphMachine g layout) :=
    { f with
      state := f.store.declare mg.id (genMgType plan cfg mg) (plan.isBounded mg)
      env := f.env.set (.mg mg.id) () }
  have hcounter : f₁.counter = f.counter := rfl
  have henv : f₁.env = f.env.set (.mg mg.id) () := rfl
  have hdeclared : f₁.store.declared mg.id = some (genMgType plan cfg mg, plan.isBounded mg) :=
    (declare_declared f.store mg.id mg.id _ _).trans (if_pos rfl)
  have hself : f₁.env.declared (.mg mg.id) = true := by
    rw [Env.declared, henv, Env.set_self]
    rfl
  have hset : ∀ u ∈ plan.ops dep, f₁.env.declared (.set u.id) = true := by
    intro u hu
    rw [Env.declared, henv, Env.set_of_ne _ _ (by simp)]
    exact hops u hu
  have hsets : ∀ op ∈ [mg.vertices, mg.intersect, plan.iter dep],
      f.env.declared (.set op.id) = true := by
    obtain ⟨hvertices, hintersect⟩ := h.mg_sets dep mg hmg
    have hiter := h.iter_mem dep (h.lt_of_mem_mgs hmg)
    simp only [List.forall_mem_cons]
    exact ⟨hops _ hvertices, hops _ hintersect, hops _ hiter, List.forall_mem_nil _⟩
  have hdeclare : execStmt g path f (genCodeMgInit plan cfg mg) = some (.next, f₁) := rfl
  rw [mgStmts, genCodeMgBuild, (h.mg_loopDepth hmg).1]
  change Runs _ _ g path ([genCodeMgInit plan cfg mg] ++ _) f _
  apply Runs.append fun flow f' => flow = .next ∧ f' = f₁
  · exact .plain hdeclare ⟨rfl, rfl⟩
  · rintro f' ⟨-, rfl⟩
    apply Runs.append _ (runs_reuse h hmg hself hset)
    · rintro f' ⟨-, rfl⟩
      apply Runs.single
      intro hfits
      obtain ⟨hhold, f₂, hrun, hbuilt⟩ :=
        execStmt_build h hg hf hlen hmg hfresh hcounter rfl rfl hdeclared henv hsets hparent hfits
      exact ⟨hhold, .next, f₂, hrun, rfl, hbuilt⟩
    · rintro f' ⟨hflow, -⟩
      simp at hflow
  · rintro f' ⟨hflow, -⟩
    simp at hflow

/-- Between two frames of a body mini-graphs have been declared and built. -/
structure AddsMgs (plan : PlanIR) (g : Graph) (placed : List ℕ) (reqs : List BuildRequest)
    (f f' : Frame (miniGraphMachine g layout)) : Prop where
  grown : ∃ names added, f'.store.built = names ++ f.store.built ∧ names.length = added.length ∧
    (∀ name ∈ names, f.env.declared (.mg name) = false) ∧ Sound plan g placed (added ++ reqs) f'
  counter : f'.counter = f.counter
  env : ∀ v, (∀ id, v ≠ .mg id) → f'.env v = f.env v
  kept : ∀ id, f.env.declared (.mg id) = true → f'.env.declared (.mg id) = true

omit h in
theorem AddsMgs.refl (hf : Sound plan g placed reqs f) : AddsMgs plan g placed reqs f f where
  grown := ⟨[], [], rfl, rfl, by simp, hf⟩
  counter := rfl
  env := fun _ _ => rfl
  kept := fun _ h => h

omit h in
/-- One more mini-graph. -/
theorem AddsMgs.built {f'' : Frame (miniGraphMachine g layout)}
    {names : List ℤ} {added : List BuildRequest} (hadds : AddsMgs plan g placed reqs f f')
    (hnames : f'.store.built = names ++ f.store.built) (hlength : names.length = added.length)
    (hnew : ∀ name ∈ names, f.env.declared (.mg name) = false)
    (hfresh : f.env.declared (.mg mg.id) = false)
    (hbuilt : Built plan g placed mg (added ++ reqs) f' f'') : AddsMgs plan g placed reqs f f'' := by
  obtain ⟨req, hsound⟩ := hbuilt.sound
  constructor
  · refine ⟨mg.id :: names, req :: added, ?_, ?_, ?_, hsound⟩
    · rw [hbuilt.built, hnames, List.cons_append]
    · simp [hlength]
    · exact List.forall_mem_cons.mpr ⟨hfresh, hnew⟩
  · exact hbuilt.counter.trans hadds.counter
  · exact fun v hv => (hbuilt.env v (hv _)).trans (hadds.env v hv)
  · intro id hid
    have hne : Var.mg id ≠ .mg mg.id := by
      intro heq
      rw [heq] at hid
      simp [hfresh] at hid
    rw [Env.declared, hbuilt.env _ hne]
    exact hadds.kept id hid

/-- The mini-graphs of a depth. -/
theorem runs_mgs {scope : Scope} (hg : g.Valid) (hf : Sound plan g placed reqs f)
    (hlen : placed.length = dep + 1) (hscope : Declares scope f)
    (hops : ∀ u ∈ plan.ops dep, Var.set u.id ∈ scope)
    (hclosed : ClosedStmts scope ((plan.mgs dep).flatMap (mgStmts plan cfg)))
    (hfresh : ∀ mg ∈ plan.mgs dep, f.env.declared (.mg mg.id) = false) :
    Runs (BuildFits cfg g layout) (AssertionsHold g layout) g path ((plan.mgs dep).flatMap (mgStmts plan cfg)) f
      fun flow f' => flow = .next ∧ AddsMgs plan g placed reqs f f' := by
  rw [closedStmts_flatMap] at hclosed
  set inv : List MiniGraphIR → Frame (miniGraphMachine g layout) → Prop := fun before f' =>
    AddsMgs plan g placed reqs f f' ∧
      Declares (scopeAfter scope (before.flatMap (mgStmts plan cfg))) f' ∧
      ∀ id, f'.env.declared (.mg id) = true → f.env.declared (.mg id) = true ∨ ∃ mg ∈ before, mg.id = id
  refine Runs.mono (Runs.flatMap inv (fun _ => False) (fun before mg after f₁ hl hbefore => ?_)
    ⟨.refl hf, hscope, fun _ hid => Or.inl hid⟩) (fun flow f' hend => ?_)
  · obtain ⟨hadds, hscope₁, hold⟩ := hbefore
    have hmg : mg ∈ plan.mgs dep := by simp [hl]
    have hnodup := h.mg_nodup dep
    rw [hl, List.nodup_append] at hnodup
    -- the mini-graphs before it have other ids
    have hfresh₁ : f₁.env.declared (.mg mg.id) = false := by
      by_contra hnot
      rcases hold mg.id (by simpa using hnot) with hdeclared | ⟨mg', hmg', hid⟩
      · simp [hfresh mg hmg] at hdeclared
      · obtain rfl := h.mg_id dep dep mg' (by simp [hl, hmg']) mg hmg hid
        exact hnodup.2.2 mg' hmg' mg' List.mem_cons_self rfl
    have hin : ∀ u ∈ plan.ops dep,
        Var.set u.id ∈ scopeAfter scope (before.flatMap (mgStmts plan cfg)) :=
      fun u hu => mem_scopeAfter.mpr (Or.inl (hops u hu))
    have hparent := (h.closed_mgStmts hmg hin).mp (hclosed before mg after hl)
    obtain ⟨names, added, hnames, hlength, hnew, hf₁⟩ := hadds.grown
    apply ((runs_mgStmts h hg hf₁ hlen hmg hfresh₁ (fun u hu => hscope₁ _ (hin u hu))
      fun parent hfound => hscope₁ _ (hparent parent hfound)).withScope hscope₁).mono
    rintro flow f₂ ⟨⟨rfl, hbuilt⟩, hscope₂⟩
    refine ⟨hadds.built hnames hlength hnew (hfresh mg hmg) hbuilt, ?_, fun id hid => ?_⟩
    · rw [List.flatMap_append, List.flatMap_singleton, scopeAfter_append]
      exact hscope₂ rfl
    · by_cases hsame : id = mg.id
      · exact Or.inr ⟨mg, by simp, hsame.symm⟩
      · rw [Env.declared, hbuilt.env _ (by simpa using hsame)] at hid
        rcases hold id hid with hdeclared | ⟨mg', hmg', heq⟩
        · exact Or.inl hdeclared
        · exact Or.inr ⟨mg', by simp [hmg'], heq⟩
  · cases flow with
    | next => exact ⟨rfl, hend.1⟩
    | skip => exact absurd hend id

end

end GraphMini
