import GraphMini.Codegen.Emit
import GraphMini.Codegen.PlanSpec

/-!
# Where a set comes from

Every set of a plan is cut from its sibling, computed from its prefix one depth above, or read from
the adjacency list of its own depth. `Derivation` names the three cases of `get_parent_vset`, and the
statements that `genCodeOp` emits for them.
-/

namespace GraphMini

open VertexSetIR

namespace PlannedSets

variable {edge restrict : ℕ → Finset ℕ} {plan : PlanIR} (h : PlannedSets edge restrict plan)
  {op u : VertexSetIR} {dep dep' : ℕ}

include h

theorem loopDepth_eq (hop : op ∈ plan.ops dep) : op.loopDepth = dep := by
  obtain ⟨-, v, -, -, hsame⟩ := h.ops_sound dep op hop
  exact (same_iff.mp hsame).2.2

theorem lt_pSize (hop : op ∈ plan.ops dep) : dep + 1 < plan.pSize := by
  obtain ⟨-, v, hlow, hhigh, -⟩ := h.ops_sound dep op hop
  omega

theorem bounded (hop : op ∈ plan.ops dep) : op.Bounded := by
  obtain ⟨-, v, -, -, hsame⟩ := h.ops_sound dep op hop
  obtain ⟨he, hr, hd⟩ := same_iff.mp hsame
  constructor
  · rw [he, hd]
    exact (cut_bounded _ _ _).edges_le
  · rw [hr, hd]
    exact (cut_bounded _ _ _).restricts_le

/-- Operations with one id are one operation. -/
theorem eq_of_id (hop : op ∈ plan.ops dep) (hu : u ∈ plan.ops dep') (hid : op.id = u.id) :
    op = u := by
  rcases lt_trichotomy dep dep' with hlt | rfl | hlt
  · exact absurd hid (h.ids_lt_of_lt _ _ hlt _ hop _ hu).ne
  · have hnodup : ((plan.ops dep).map VertexSetIR.id).Nodup :=
      List.pairwise_map.mpr ((h.ids_lt dep).imp fun hlt => hlt.ne)
    exact List.inj_on_of_nodup_map hnodup hop hu hid
  · exact absurd hid (h.ids_lt_of_lt _ _ hlt _ hu _ hop).ne'

theorem iter_loopDepth (hdep : dep + 1 < plan.pSize) : (plan.iter dep).loopDepth = dep :=
  h.loopDepth_eq (h.iter_mem dep hdep)

/-- The prefix of a set is a set of its own depth, unless it has no edge. -/
theorem exists_prefix (hop : op ∈ plan.ops dep) (hle : dep' ≤ dep)
    (hedges : (op.prefixAt dep').edges.Nonempty) :
    ∃ u ∈ plan.ops dep', u.same (op.prefixAt dep') = true := by
  obtain ⟨-, v, hlow, hhigh, hsame⟩ := h.ops_sound dep op hop
  obtain ⟨he, hr, -⟩ := same_iff.mp hsame
  have hcut : op.prefixAt dep' = cut (edge v) (restrict v) dep' := by
    simp only [prefixAt, cut, he, hr, Finset.filter_filter]
    congr 1
    · exact Finset.filter_congr fun i _ => ⟨fun hi => hi.2, fun hi => ⟨hi.trans hle, hi⟩⟩
    · exact Finset.filter_congr fun i _ => ⟨fun hi => hi.2, fun hi => ⟨hi.trans hle, hi⟩⟩
  rw [hcut] at hedges ⊢
  exact h.ops_complete dep' v (by omega) hhigh (Finset.card_pos.mpr hedges)

/-- `get_parent_vset(vset, dep)` finds the prefix exactly where it has an edge. -/
theorem getParentVsetAt_eq_some (hop : op ∈ plan.ops dep) (hlt : dep' < dep)
    (hedges : (op.prefixAt dep').edges.Nonempty) :
    ∃ u ∈ plan.ops dep', plan.getParentVsetAt op dep' = some u
      ∧ u.same (op.prefixAt dep') = true := by
  have hdep := h.loopDepth_eq hop
  rw [PlanIR.getParentVsetAt_eq, if_pos (by omega)]
  refine PlanIR.foldl_parentStep (fun u hu => ⟨h.loopDepth_eq hu, h.bounded hu⟩) ?_ (by omega)
    (h.exists_prefix hop hlt.le hedges) (by simp)
  exact fun u hu => (h.ids_lt_of_lt _ _ hlt u hu op hop).ne

theorem getParentVsetAt_eq_none (hedges : (op.prefixAt dep').edges = ∅) : plan.getParentVsetAt op dep' = none := by
  rw [PlanIR.getParentVsetAt_eq]
  split
  · refine PlanIR.foldl_parentStep_eq_none fun u hu => ?_
    rw [← Bool.not_eq_true]
    intro hsup
    -- an edge of a superset would be an edge of the prefix
    obtain ⟨hpos, -⟩ := h.ops_sound dep' u hu
    obtain ⟨i, hi⟩ := Finset.card_pos.mp hpos
    have hle : i ≤ dep' := h.loopDepth_eq hu ▸ (h.bounded hu).edges_le i hi
    have hmem := ((isSupersetOf_iff.mp hsup).2 i ((h.bounded hu).edges_le i hi)).1 hi
    exact absurd (mem_prefixAt_edges.mpr ⟨hmem, hle⟩) (hedges ▸ Finset.notMem_empty i)
  · rfl

/-- The sibling test finds the set without the restriction at its own depth. -/
theorem isSibling_iff (hop : op ∈ plan.ops dep) (hu : u ∈ plan.ops dep) :
    plan.isSibling u op = true ↔ dep ∈ op.restricts ∧ u.same op.unrestricted = true := by
  have hdu := h.loopDepth_eq hu
  have hdop := h.loopDepth_eq hop
  have hdep : u.loopDepth = op.loopDepth := hdu.trans hdop.symm
  by_cases hmem : dep ∈ op.restricts
  · have hmem' : op.loopDepth ∈ op.restricts := hdop ▸ hmem
    rw [same_unrestricted_iff (t := plan.adjMatType) (h.bounded hu) hdep hmem']
    have hne : op.loopDepth ∉ u.restricts → u.id ≠ op.id := by
      intro hnot hid
      exact hnot (h.eq_of_id hu hop hid ▸ hmem')
    simp only [PlanIR.isSibling, Bool.and_eq_true, bne_iff_ne, beq_iff_eq, decide_eq_true_eq,
      isRestricted, hmem', Bool.not_eq_true', decide_eq_false_iff_not, hmem, true_and, and_true]
    constructor
    · rintro ⟨⟨⟨⟨hsup, -⟩, hedge⟩, hnum⟩, hnot⟩
      exact ⟨hsup, hedge, by omega, hnot⟩
    · rintro ⟨hsup, hedge, hnum, hnot⟩
      exact ⟨⟨⟨⟨hsup, hne hnot⟩, hedge⟩, by omega⟩, hnot⟩
  · simp [PlanIR.isSibling, isRestricted, hdop, hmem]

end PlannedSets

/-- Where `get_parent_vset` finds the parent of an operation whose sibling, if it has one, is among
`siblings`. -/
inductive Derivation (plan : PlanIR) (siblings : List VertexSetIR) (op : VertexSetIR) :
    Option VertexSetIR → Prop where
  | sibling (u : VertexSetIR) (hmem : u ∈ siblings) (hsame : u.same op.unrestricted = true)
      (hrestricted : op.loopDepth ∈ op.restricts) : Derivation plan siblings op (some u)
  | above (u : VertexSetIR) (dep : ℕ) (hdep : op.loopDepth = dep + 1) (hmem : u ∈ plan.ops dep)
      (hsame : u.same (op.prefixAt dep) = true) : Derivation plan siblings op (some u)
  | root (hedges : op.edges = {op.loopDepth}) : Derivation plan siblings op none

section

variable {edge restrict : ℕ → Finset ℕ} {plan : PlanIR} {dep : ℕ} {op : VertexSetIR}

theorem PlannedSets.derivation_of (h : PlannedSets edge restrict plan) (hop : op ∈ plan.ops dep)
    {siblings : List VertexSetIR}
    (hsiblings : ∀ u, (plan.ops dep).find? (fun u => plan.isSibling u op) = some u → u ∈ siblings) :
    Derivation plan siblings op (plan.getParentVset op) := by
  have hdep := h.loopDepth_eq hop
  rw [PlanIR.getParentVset, hdep]
  cases hfind : (plan.ops dep).find? fun u => plan.isSibling u op with
  | some u =>
      have hsibling : plan.isSibling u op = true := by simpa using List.find?_some hfind
      obtain ⟨hres, hsame⟩ := (h.isSibling_iff hop (List.mem_of_find?_eq_some hfind)).mp hsibling
      exact .sibling u (hsiblings u hfind) hsame (hdep ▸ hres)
  | none =>
      simp only
      cases dep with
      | zero =>
          have hnone : plan.getParentVsetAt op (0 - 1) = none := by
            rw [PlanIR.getParentVsetAt_eq, if_neg (by omega)]
          rw [hnone]
          refine .root ?_
          obtain ⟨hpos, -⟩ := h.ops_sound 0 op hop
          obtain ⟨i, hi⟩ := Finset.card_pos.mp hpos
          refine Finset.Subset.antisymm (fun j hj => ?_) ?_
          · have := (h.bounded hop).edges_le j hj
            simp only [Finset.mem_singleton]
            omega
          · have := (h.bounded hop).edges_le i hi
            obtain rfl : i = op.loopDepth := by omega
            simpa using hi
      | succ dep =>
          rw [Nat.add_sub_cancel]
          rcases Finset.eq_empty_or_nonempty (op.prefixAt dep).edges with hedges | hedges
          · rw [h.getParentVsetAt_eq_none hedges]
            refine .root ?_
            obtain ⟨hpos, -⟩ := h.ops_sound _ op hop
            have honly : ∀ j ∈ op.edges, j = op.loopDepth := by
              intro j hj
              have := (h.bounded hop).edges_le j hj
              by_contra hne
              have : j ∈ (op.prefixAt dep).edges := mem_prefixAt_edges.mpr ⟨hj, by omega⟩
              simp [hedges] at this
            obtain ⟨i, hi⟩ := Finset.card_pos.mp hpos
            refine Finset.Subset.antisymm (fun j hj => by simpa using honly j hj) ?_
            simpa using honly i hi ▸ hi
          · obtain ⟨u, hmem, heq, hsame⟩ :=
              h.getParentVsetAt_eq_some hop (Nat.lt_succ_self dep) hedges
            rw [heq]
            exact .above u dep hdep hmem hsame

/-- The parent of an operation is at its own depth or one above. -/
theorem PlannedSets.derivation (h : PlannedSets edge restrict plan) (hop : op ∈ plan.ops dep) :
    Derivation plan (plan.ops dep) op (plan.getParentVset op) :=
  h.derivation_of hop fun _ hfind => List.mem_of_find?_eq_some hfind

/-- In a good order the sibling that is found first stands before the operation. -/
theorem Planned.derivation (h : Planned edge restrict plan) {before after : List VertexSetIR}
    (hops : plan.ops dep = before ++ op :: after) :
    Derivation plan before op (plan.getParentVset op) := by
  have hop : op ∈ plan.ops dep := by simp [hops]
  have hdep := h.loopDepth_eq hop
  refine h.derivation_of hop fun u hfind => ?_
  have hsibling : plan.isSibling u op = true := by simpa using List.find?_some hfind
  have hmem := List.mem_of_find?_eq_some hfind
  obtain ⟨hres, hsame⟩ := (h.isSibling_iff hop hmem).mp hsibling
  obtain ⟨u', hu', hsame'⟩ :=
    h.siblingFirst dep before op after hops (hdep ▸ hres) ⟨u, hmem, hsame⟩
  have hsibling' : plan.isSibling u' op = true :=
    (h.isSibling_iff hop (by simp [hops, hu'])).mpr ⟨hres, hsame'⟩
  rw [hops, List.find?_append] at hfind
  cases hb : before.find? (fun u => plan.isSibling u op) with
  | none => exact absurd hsibling' (List.find?_eq_none.mp hb u' hu')
  | some w =>
      obtain rfl : w = u := by simpa [hb] using hfind
      exact List.mem_of_find?_eq_some hb

end

/-! ### The statements of an operation -/

/-- What `genCodeOp` emits when none of its checks fails. -/
def opStmts (plan : PlanIR) (op : VertexSetIR) : List Stmt :=
  match plan.getParentVset op with
  | some parent =>
      if parent.loopDepth = op.loopDepth then
        [.declSet op.id (.bounded (.set parent.id) (.id op.loopDepth))]
      else if plan.isLastOp op then [.count (prefixCnt plan.adjMatType op parent.id)]
      else [.declSet op.id (prefixExpr plan.adjMatType op parent.id)]
  | none =>
      .declSet op.id (chainExpr plan.adjMatType op) :: .continueIfEmpty op.id
        :: if plan.isLastOp op then [.count (.size (.set op.id))] else []

namespace PlannedSets

variable {edge restrict : ℕ → Finset ℕ} {plan : PlanIR} (h : PlannedSets edge restrict plan)
  {op : VertexSetIR} {dep : ℕ}

include h

/-- No check of `genCodeOp` fails on an operation of a plan. -/
theorem genCodeOp_eq (hop : op ∈ plan.ops dep) : genCodeOp plan op = .ok (opStmts plan op) := by
  have hder := h.derivation hop
  rw [genCodeOp, opStmts]
  cases hparent : plan.getParentVset op with
  | none =>
      rw [hparent] at hder
      cases hder with
      | root hedges =>
          have hnum : op.edgeNum = 1 := by rw [edgeNum, hedges, Finset.card_singleton]
          have hedge : op.isEdge op.loopDepth = true := by simp [isEdge, hedges]
          simp only [hnum, hedge, check, beq_self_eq_true, Bool.and_self, if_true]
          rfl
  | some u =>
      rw [hparent] at hder
      cases hder with
      | sibling _ hmem hsame hrestricted =>
          have hdep : u.loopDepth = op.loopDepth := (same_iff.mp hsame).2.2
          simp [hdep, isRestricted, hrestricted, check, bind, Except.bind, pure, Except.pure]
      | above _ dep' hdep hmem hsame =>
          have hu : u.loopDepth = dep' := (same_iff.mp hsame).2.2
          simp only [hu, hdep, check, bind, Except.bind, pure, Except.pure]
          cases plan.isLastOp op <;> simp

/-- The statements of all operations of a depth, without pruning. -/
theorem genOps_eq {cfg : CodeGenConfig} (hcfg : cfg.pruningType = .none) (dep : ℕ) :
    genOps plan cfg dep = .ok ((plan.ops dep).flatMap (opStmts plan)) := by
  have hmap : (plan.ops dep).mapM (genCodeOp plan) = .ok ((plan.ops dep).map (opStmts plan)) :=
    Loop.mapM_ok fun op hop => h.genCodeOp_eq hop
  simp only [genOps, hcfg, if_true, hmap, List.flatMap_def]
  rfl

end PlannedSets

end GraphMini
