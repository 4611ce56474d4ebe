import GraphMini.Exec.Frames
import GraphMini.Exec.Reuse

/-!
# The index arrays of a loop

A mini-graph that is read in a loop has a superset of the iterated set as its vertices. The index of an
entry is that of the loop where the iterated set is a prefix of the vertices, and comes from `indices`
otherwise.
-/

namespace GraphMini

open VertexSetIR MgStore

/-- The entries of the mini-graph are found in the loop over `s`. -/
def Indexes (plan : PlanIR) (dep : ℕ) (s : VertexSet) (reqs : List BuildRequest) (built : List ℤ) (env : Env)
    (mg : MiniGraphIR) : Prop :=
  ∃ req, requestOf built reqs mg.id = some req ∧
    if skipBuildIndices mg (plan.iter dep) then s.data <+: req.vertex.data
    else ∃ l : List ℕ, env (.mgIndices mg.id (plan.iter dep).id) = some l ∧
      ∀ i x : ℕ, s.data[i]? = some x → ∃ j : ℕ, l[i]? = some j ∧ req.vertex.data[j]? = some x

/-- Between two frames of a body only index arrays have been built. -/
structure AddsIndices {M : MgMachine} (f f' : Frame M) : Prop where
  counter : f'.counter = f.counter
  state : f'.state = f.state
  env : ∀ v, (∀ mg setId, v ≠ .mgIndices mg setId) → f'.env v = f.env v

theorem AddsIndices.trans {M : MgMachine} {f f' f'' : Frame M} (h : AddsIndices f f') (h' : AddsIndices f' f'') :
    AddsIndices f f'' where
  counter := h'.counter.trans h.counter
  state := h'.state.trans h.state
  env v hv := (h'.env v hv).trans (h.env v hv)

section

variable {plan : PlanIR} {g : Graph} {layout : Layout} {placed : List ℕ} {reqs : List BuildRequest}
  {f f' : Frame (miniGraphMachine g layout)} {built : List ℤ} {env : Env} {path : List ℕ} {dep x : ℕ}
  {mg : MiniGraphIR} {s : VertexSet}

/-- The index of the vertex that the loop visits. -/
theorem Indexes.indexFound (h : Indexes plan dep s reqs built env mg) {i : ℕ}
    (hi : env (.idx (dep + 1)) = some (i : ℕ)) (hx : s.data[i]? = some x) :
    IndexFound plan (dep + 1) x reqs built env mg := by
  obtain ⟨req, hreq, hfound⟩ := h
  by_cases hskip : skipBuildIndices mg (plan.iter dep) = true
  · rw [if_pos hskip] at hfound
    refine ⟨i, req, ?_, hreq, ?_⟩
    · simp only [mgIndex, Nat.add_sub_cancel, hskip, if_true, evalMgIndex]
      exact hi
    · obtain ⟨rest, hrest⟩ := hfound
      rw [← hrest, List.getElem?_append_left (List.getElem?_eq_some_iff.mp hx).1]
      exact hx
  · rw [if_neg hskip] at hfound
    obtain ⟨l, hl, hall⟩ := hfound
    obtain ⟨j, hj, hv⟩ := hall i x hx
    refine ⟨j, req, ?_, hreq, hv⟩
    simp only [mgIndex, Nat.add_sub_cancel, hskip, evalMgIndex]
    simp [hl, hi, hj]

theorem Indexes.of_eq {env' : Env} (h : Indexes plan dep s reqs built env mg)
    (henv : ∀ setId, env' (.mgIndices mg.id setId) = env (.mgIndices mg.id setId)) :
    Indexes plan dep s reqs built env' mg := by
  obtain ⟨req, hreq, hfound⟩ := h
  refine ⟨req, hreq, ?_⟩
  split_ifs at hfound ⊢
  · exact hfound
  · simpa only [henv] using hfound

theorem AddsIndices.sound (h : AddsIndices f f') (hf : Sound plan g placed reqs f) :
    Sound plan g placed reqs f' := by
  have hbuilt : f'.store.built = f.store.built := congrArg MgStore.built h.state
  have hrecorded : Recorded g reqs f'.state := by
    rw [h.state]
    exact hf.recorded
  apply hf.of_eq hbuilt hrecorded
  all_goals
    intro i
    exact h.env _ (by simp)

end

section

variable {edge restrict : ℕ → Finset ℕ} {cfg : CodeGenConfig} {plan : PlanIR}
  (h : PlannedMgs edge restrict cfg plan) {g : Graph} {layout : Layout} {placed : List ℕ}
  {reqs : List BuildRequest} {f f' : Frame (miniGraphMachine g layout)} {path : List ℕ} {dep x : ℕ}
  {mg : MiniGraphIR} {s : VertexSet}

include h

/-- The iterated set lies in the vertices of a mini-graph that is read in the loop. -/
theorem iter_subset_vertices (hf : Sound plan g placed reqs f) (hdep : dep + 1 < plan.pSize)
    (hs : f.env (.set (plan.iter dep).id) = some s) (hmg : mg ∈ plan.used (dep + 1)) {req : BuildRequest}
    (hreq : StandsFor plan g placed mg req) :
    (∀ x ∈ s.data, x ∈ req.vertex.data) ∧
      (skipBuildIndices mg (plan.iter dep) = true → s.data <+: req.vertex.data) := by
  have hsup : mg.vertices.isSupersetOf plan.adjMatType (plan.iter dep) = true :=
    h.vertices_isSupersetOf hmg
  obtain ⟨-, hdenotes⟩ := hf.vars.set dep _ (h.iter_mem dep hdep) s hs
  have hcandidate : ∀ x ∈ s.data, x ∈ req.vertex.data := by
    intro x hx
    exact (hreq.vertex.2 x).mpr (((hdenotes.2 x).mp hx).of_isSupersetOf hsup)
  refine ⟨hcandidate, fun hskip => ?_⟩
  obtain ⟨hsame, hedges⟩ := skipBuildIndices_iff.mp hskip
  exact hdenotes.prefix_of_restricts hreq.vertex hsame hedges
    fun i hi => ((isSupersetOf_iff.mp hsup).2 i hi).2.2

/-- The index array of one mini-graph. -/
theorem execStmt_declIndices (hf : Sound plan g placed reqs f) (hdep : dep + 1 < plan.pSize)
    (hs : f.env (.set (plan.iter dep).id) = some s) (hmg : mg ∈ plan.used (dep + 1))
    (hdeclared : f.env.declared (.mg mg.id) = true)
    (hskip : skipBuildIndices mg (plan.iter dep) = false) :
    AssertionsHold g layout path f (.declIndices mg.id (plan.iter dep).id) ∧
      ∃ f', execStmt g path f (.declIndices mg.id (plan.iter dep).id) = some (.next, f') ∧
        AddsIndices f f' ∧ Indexes plan dep s reqs f'.store.built f'.env mg ∧
        ∀ id setId, id ≠ mg.id → f'.env (.mgIndices id setId) = f.env (.mgIndices id setId) := by
  obtain ⟨req, hreq, hstands⟩ := hf.built _ mg (h.loopDepth_of_used hmg).2 hdeclared
  obtain ⟨value, hvalue⟩ := Option.isSome_iff_exists.mp hdeclared
  obtain ⟨m, -, hobject, hvertex⟩ := hf.recorded.object_eq hreq
  have hsub := (iter_subset_vertices h hf hdep hs hmg hstands).1
  have hsorted := (hf.vars.set dep _ (h.iter_mem dep hdep) s hs).2.1
  obtain ⟨l, hl, hall⟩ : ∃ l : List ℕ, (miniGraphMachine g layout).indices path f.state mg.id s = some l ∧
      ∀ i x : ℕ, s.data[i]? = some x → ∃ j : ℕ, l[i]? = some j ∧ req.vertex.data[j]? = some x :=
    hf.recorded.indices_spec hreq hsorted hsub
  have hrun : execStmt g path f (.declIndices mg.id (plan.iter dep).id)
      = some (.next, f.declare (.mgIndices mg.id (plan.iter dep).id) l) := by
    simp only [execStmt, hvalue, hs, hl, Option.bind_eq_bind, Option.bind_some]
    rfl
  refine ⟨?_, _, hrun, ⟨rfl, rfl, fun v hv => ?_⟩, ⟨req, hreq, ?_⟩, fun id setId hid => ?_⟩
  · simp only [AssertionsHold, hs, hrun, Covered, hobject, Option.isSome_some, and_true]
    rw [hvertex]
    exact hsub
  · exact Env.set_of_ne _ _ (hv _ _)
  · rw [hskip, if_neg Bool.false_ne_true]
    exact ⟨l, Env.set_self _ _ _, hall⟩
  · exact Env.set_of_ne _ _ (by simp [hid])

/-- The index arrays of the loop below a body. -/
theorem runs_indices {scope : Scope} (hf : Sound plan g placed reqs f) (hdep : dep + 1 < plan.pSize)
    (hs : f.env (.set (plan.iter dep).id) = some s) (hscope : Declares scope f)
    (hclosed : ClosedStmts scope ((plan.used (dep + 1)).flatMap fun mg => genCodeMgIndice plan mg dep)) :
    Runs (BuildFits cfg g layout) (AssertionsHold g layout) g path
      ((plan.used (dep + 1)).flatMap fun mg => genCodeMgIndice plan mg dep) f
      fun flow f' => flow = .next ∧ AddsIndices f f' ∧ ∀ mg ∈ plan.used (dep + 1),
        f'.env.declared (.mg mg.id) = true → Indexes plan dep s reqs f'.store.built f'.env mg := by
  rw [closedStmts_flatMap] at hclosed
  set inv : List MiniGraphIR → Frame (miniGraphMachine g layout) → Prop := fun before f' =>
    AddsIndices f f' ∧ ∀ mg ∈ before,
      f'.env.declared (.mg mg.id) = true → Indexes plan dep s reqs f'.store.built f'.env mg
  refine Runs.mono (Runs.flatMap inv (fun _ => False) (fun before mg after f₁ hl hbefore => ?_)
    ⟨⟨rfl, rfl, fun _ _ => rfl⟩, by simp⟩) (fun flow f' hend => ?_)
  · obtain ⟨hadds, hall⟩ := hbefore
    have hmg : mg ∈ plan.used (dep + 1) := by simp [hl]
    have hf₁ := hadds.sound hf
    have hs₁ : f₁.env (.set (plan.iter dep).id) = some s := by rw [hadds.env _ (by simp), hs]
    rw [genCodeMgIndice]
    cases hskip : skipBuildIndices mg (plan.iter dep) with
    | true =>
        apply Runs.nil
        refine ⟨hadds, fun mg' hmg' hdeclared => ?_⟩
        rcases List.mem_append.mp hmg' with hin | hin
        · exact hall mg' hin hdeclared
        · rw [List.mem_singleton.mp hin] at hdeclared ⊢
          obtain ⟨req, hreq, hstands⟩ := hf₁.built _ mg (h.loopDepth_of_used hmg).2 hdeclared
          refine ⟨req, hreq, ?_⟩
          rw [if_pos hskip]
          exact (iter_subset_vertices h hf₁ hdep hs₁ hmg hstands).2 hskip
    | false =>
        have hdeclared : f₁.env.declared (.mg mg.id) = true := by
          have hreads := (hclosed before mg after hl)
          rw [genCodeMgIndice, hskip] at hreads
          have hin := hreads.1 (show Var.mg mg.id ∈ _ from List.mem_cons_self)
          rw [mem_scopeAfter_flatMap] at hin
          rw [Env.declared, hadds.env _ (by simp)]
          rcases hin with hin | ⟨mg', -, stmt, hstmt, hdeclares⟩
          · exact hscope _ hin
          · rw [genCodeMgIndice] at hstmt
            split_ifs at hstmt
            · simp at hstmt
            · rw [List.mem_singleton.mp hstmt] at hdeclares
              simp [Stmt.declares] at hdeclares
        obtain ⟨hhold, f₂, hrun, hadds₂, hindexes, hother⟩ :=
          execStmt_declIndices h hf₁ hdep hs₁ hmg hdeclared hskip
        have hbuilt : f₂.store.built = f₁.store.built := congrArg MgStore.built hadds₂.state
        refine Runs.single fun _ => ⟨hhold, .next, f₂, hrun, hadds.trans hadds₂, fun mg' hmg' hdeclared' => ?_⟩
        by_cases hid : mg'.id = mg.id
        · obtain rfl : mg' = mg := by
            have hin : mg' ∈ plan.used (dep + 1) := by
              rw [hl]
              rcases List.mem_append.mp hmg' with hin | hin
              · exact List.mem_append_left _ hin
              · simp [List.mem_singleton.mp hin]
            exact h.mg_id _ _ mg' (h.loopDepth_of_used hin).2 mg (h.loopDepth_of_used hmg).2 hid
          exact hindexes
        · have hin : mg' ∈ before := by
            rcases List.mem_append.mp hmg' with hin | hin
            · exact hin
            · exact absurd (by rw [List.mem_singleton.mp hin]) hid
          rw [Env.declared, hadds₂.env _ (by simp)] at hdeclared'
          rw [hbuilt]
          exact (hall mg' hin hdeclared').of_eq fun setId => hother mg'.id setId hid
  · cases flow with
    | next => exact ⟨rfl, hend⟩
    | skip => exact absurd hend id

end

end GraphMini
