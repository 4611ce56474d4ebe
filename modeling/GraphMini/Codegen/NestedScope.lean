import GraphMini.Codegen.Nested
import GraphMini.Codegen.NestScope

/-!
# When a class of the nested program is self-contained

A class is emitted by the generators of the sequential program, so it is closed if the plan is in order
from its depth on and its members are what the bodies take from outside. The scans for adjacency lists
and sets find all of them. The scan for mini-graphs looks at the mini-graphs that are built at the
depth of the class, and not at those that are built below it.
-/

namespace GraphMini

open VertexSetIR StdAlgorithm

/-! ### Elements with new ids -/

section PushNew

variable {α : Type} {getId : α → ℤ}

theorem foldl_pushNew_subset (l out : List α) :
    ∀ a ∈ l.foldl (pushNew getId) out, a ∈ out ∨ a ∈ l := by
  induction l generalizing out with
  | nil => exact fun a ha => Or.inl ha
  | cons b l ih =>
      intro a ha
      rcases ih _ a ha with ha | ha
      · rw [pushNew] at ha
        split_ifs at ha
        · exact Or.inl ha
        · rcases List.mem_append.mp ha with ha | ha
          · exact Or.inl ha
          · exact Or.inr (by simp [List.mem_singleton.mp ha])
      · exact Or.inr (List.mem_cons_of_mem b ha)

theorem exists_mem_foldl_pushNew (getId : α → ℤ) (l out : List α) :
    ∀ a, a ∈ out ∨ a ∈ l → ∃ b ∈ l.foldl (pushNew getId) out, getId b = getId a := by
  induction l generalizing out with
  | nil => exact fun a ha => ⟨a, by simpa using ha, rfl⟩
  | cons c l ih =>
      intro a ha
      have hkeep : a ∈ out → a ∈ pushNew getId out c := by
        intro ha
        rw [pushNew]
        split_ifs
        · exact ha
        · exact List.mem_append_left _ ha
      rcases ha with ha | ha
      · exact ih _ a (Or.inl (hkeep ha))
      · rcases List.mem_cons.mp ha with rfl | ha
        · by_cases hany : (out.any fun b => getId b == getId a) = true
          · obtain ⟨b, hb, hid⟩ := List.any_eq_true.mp hany
            have hpush : pushNew getId out a = out := if_pos hany
            obtain ⟨b', hb', hid'⟩ := ih (pushNew getId out a) b (Or.inl (by rwa [hpush]))
            exact ⟨b', hb', hid'.trans (by simpa using hid)⟩
          · have hpush : pushNew getId out a = out ++ [a] := if_neg hany
            exact ih _ a (Or.inl (by simp [hpush]))
        · exact ih _ a (Or.inr ha)

/-- Where ids tell elements apart, nothing is lost. -/
theorem mem_foldl_pushNew {l : List α} (hinj : ∀ a ∈ l, ∀ b ∈ l, getId a = getId b → a = b) {a : α} :
    a ∈ l.foldl (pushNew getId) [] ↔ a ∈ l := by
  constructor
  · exact fun ha => (foldl_pushNew_subset l [] a ha).resolve_left (by simp)
  · intro ha
    obtain ⟨b, hb, hid⟩ := exists_mem_foldl_pushNew getId l [] a (Or.inr ha)
    have hb' := (foldl_pushNew_subset l [] b hb).resolve_left (by simp)
    exact hinj b hb' a ha hid ▸ hb

end PushNew

/-- The variables at the entry of `operator()`. -/
def classScope (plan : PlanIR) (cfg : CodeGenConfig) (loop : ℕ) : Scope :=
  LoopClass.loopVar loop :: (genMembers plan cfg loop).map Decl.var

/-- The mini-graphs from outside that those below the depth of the class are built from are members. -/
def PlanIR.CapturesParents (plan : PlanIR) (loop : ℕ) : Prop :=
  ∀ dep, loop < dep → dep < plan.maxDep → ∀ mg ∈ plan.mgs dep, ∀ parent,
    plan.getParentMgOf mg = some parent → parent.loopDepth < loop →
      (∃ dep' ≥ loop, parent ∈ plan.used dep') ∨
        ∃ child ∈ plan.mgs loop, plan.getParentMgOf child = some parent

/-- The adjacency lists that the calls in the class hand over have been read. -/
def PlanIR.ReadsForCalls (plan : PlanIR) (cfg : CodeGenConfig) (loop : ℕ) : Prop :=
  cfg.parType = .nested ∨ cfg.parType = .nestedRt →
    ∀ dep, loop ≤ dep → dep + 1 < plan.getSerialLoop → ∀ dep' > dep, ∀ op ∈ plan.ops dep',
      plan.getParentVsetAt op dep = none → ∀ i, loop ≤ i → i ≤ dep → plan.ReadsAdj cfg i

/-- No parallel loop is below the innermost one. -/
theorem PlanIR.serialLoop_le (plan : PlanIR) : plan.getSerialLoop ≤ max 1 plan.maxDep := by
  simp only [getSerialLoop, maxDep]
  split_ifs <;> omega

namespace PlannedMgs

variable {edge restrict : ℕ → Finset ℕ} {cfg : CodeGenConfig} {plan : PlanIR} {scope : Scope}
  {loop dep n : ℕ} {v : Var} (h : PlannedMgs edge restrict cfg plan)

include h

/-! ### The scans -/

theorem mem_genUsedMg {mg : MiniGraphIR} :
    mg ∈ genUsedMg plan cfg loop ↔ mg.loopDepth < loop ∧
      ((∃ dep ≥ loop, mg ∈ plan.used dep) ∨ ∃ child ∈ plan.mgs loop, plan.getParentMgOf child = some mg) := by
  by_cases hcfg : cfg.pruningType = .none
  · simp [genUsedMg, hcfg, h.used_none hcfg, h.mgs_none hcfg]
  have hinj : ∀ a ∈ ((List.range' loop (plan.pSize - 1 - loop)).flatMap plan.used
      ++ (plan.mgs loop).filterMap plan.getParentMgOf).filter fun mg => decide (mg.loopDepth < loop),
      a ∈ plan.mgs a.loopDepth := by
    intro a ha
    rcases List.mem_append.mp (List.mem_filter.mp ha).1 with ha | ha
    · obtain ⟨dep, -, ha⟩ := List.mem_flatMap.mp ha
      exact (h.loopDepth_of_used ha).2
    · obtain ⟨child, -, hparent⟩ := List.mem_filterMap.mp ha
      exact h.mem_mgs_of_parent hparent
  by_cases hpos : 0 < loop
  · simp only [genUsedMg, hcfg, hpos, ne_eq, not_false_eq_true, decide_true, Bool.and_self, if_true]
    rw [mem_foldl_pushNew fun a ha b hb => h.mg_id _ _ a (hinj a ha) b (hinj b hb)]
    simp only [List.mem_filter, List.mem_append, List.mem_flatMap, List.mem_range'_1,
      List.mem_filterMap, decide_eq_true_eq]
    rw [and_comm]
    refine and_congr_right fun _ => or_congr_left (exists_congr fun dep => ?_)
    constructor
    · exact fun ⟨hrange, hmem⟩ => ⟨hrange.1, hmem⟩
    · intro ⟨hle, hmem⟩
      have hdep := ((h.mem_used dep mg).mp hmem).1
      have hsize := h.three_le
      simp only [PlanIR.maxDep] at hdep
      exact ⟨⟨hle, by omega⟩, hmem⟩
  · have hzero : loop = 0 := by omega
    simp [genUsedMg, hzero]

theorem mem_mgs_of_genUsedMg {mg : MiniGraphIR} (hmg : mg ∈ genUsedMg plan cfg loop) :
    mg ∈ plan.mgs mg.loopDepth := by
  obtain ⟨-, ⟨dep, -, hused⟩ | ⟨child, -, hparent⟩⟩ := h.mem_genUsedMg.mp hmg
  · exact (h.loopDepth_of_used hused).2
  · exact h.mem_mgs_of_parent hparent

theorem mem_genUsedSet (hpos : 0 < loop) {u : VertexSetIR} :
    u ∈ genUsedSet plan loop ↔ u.id ≠ (plan.iter (loop - 1)).id ∧
      ∃ op ∈ plan.ops loop, plan.getParentVsetAt op (loop - 1) = some u := by
  simp only [genUsedSet, hpos, if_true]
  rw [mem_foldl_pushNew]
  · simp only [List.mem_filter, List.mem_filterMap, bne_iff_ne]
    exact and_comm
  · intro a ha b hb hid
    obtain ⟨op, -, ha⟩ := List.mem_filterMap.mp (List.mem_filter.mp ha).1
    obtain ⟨op', -, hb⟩ := List.mem_filterMap.mp (List.mem_filter.mp hb).1
    exact h.eq_of_id (PlanIR.getParentVsetAt_mem ha) (PlanIR.getParentVsetAt_mem hb) hid

theorem mem_genUsedAdj {i : ℕ} :
    i ∈ genUsedAdj plan loop ↔ i < loop ∧
      ∃ dep ≥ loop, ∃ op ∈ plan.ops dep, plan.getParentVsetAt op (loop - 1) = none := by
  by_cases hpos : 0 < loop
  · have hany : ((List.range' loop (plan.pSize - 1 - loop)).any fun i =>
        (plan.ops i).any fun set => (plan.getParentVsetAt set (loop - 1)).isNone) = true ↔
        ∃ dep ≥ loop, ∃ op ∈ plan.ops dep, plan.getParentVsetAt op (loop - 1) = none := by
      simp only [List.any_eq_true, List.mem_range'_1, Option.isNone_iff_eq_none]
      refine exists_congr fun dep => ?_
      constructor
      · exact fun ⟨hrange, hop⟩ => ⟨hrange.1, hop⟩
      · rintro ⟨hle, op, hop, hnone⟩
        have := h.lt_pSize hop
        exact ⟨⟨hle, by omega⟩, op, hop, hnone⟩
    rw [genUsedAdj, ← hany]
    simp only [hpos, decide_true, Bool.true_and]
    split_ifs with hfound
    · simp [hfound]
    · simp [hfound]
  · have hzero : loop = 0 := by omega
    simp [genUsedAdj, hzero]

/-- An operation without a prefix at a depth has none above. -/
theorem getParentVsetAt_none_of_le {op : VertexSetIR} {i : ℕ} (hop : op ∈ plan.ops dep)
    (hlt : n < dep) (hnone : plan.getParentVsetAt op n = none) (hle : i ≤ n) :
    plan.getParentVsetAt op i = none := by
  rcases Finset.eq_empty_or_nonempty (op.prefixAt i).edges with hedges | ⟨e, he⟩
  · exact h.getParentVsetAt_eq_none hedges
  · obtain ⟨hmem, hei⟩ := mem_prefixAt_edges.mp he
    obtain ⟨u, -, hsome, -⟩ := h.getParentVsetAt_eq_some hop hlt
      ⟨e, mem_prefixAt_edges.mpr ⟨hmem, hei.trans hle⟩⟩
    simp [hsome] at hnone

theorem mem_members :
    v ∈ (genMembers plan cfg loop).map Decl.var ↔
      (∃ i ∈ genUsedAdj plan loop, v = .adj i) ∨ (∃ u ∈ genUsedSet plan loop, v = .set u.id) ∨
      (0 < loop ∧ v = .set (plan.iter (loop - 1)).id) ∨
      (0 < loop ∧ ∃ mg ∈ plan.used loop, skipBuildIndices mg (plan.iter (loop - 1)) = false ∧
        v = .mgIndices mg.id (plan.iter (loop - 1)).id) ∨
      ∃ mg ∈ genUsedMg plan cfg loop, v = .mg mg.id := by
  by_cases hpos : 0 < loop
  · by_cases hcfg : cfg.pruningType = .none
    · simp [genMembers, hpos, hcfg, h.used_none hcfg, genUsedMg, eq_comm (a := v)]
    · simp only [genMembers, hpos, hcfg, if_true, ne_eq, not_false_eq_true, List.map_append,
        List.map_map, List.mem_append, List.mem_map, genUsedIndices, List.mem_filter, Function.comp_apply,
        eq_comm (a := v), or_assoc, true_and, Bool.not_eq_true', and_assoc, List.map_cons, List.map_nil,
        List.mem_singleton]
  · have hzero : loop = 0 := by omega
    subst hzero
    simp [genMembers, genUsedAdj, genUsedSet, genUsedIndices, h.used_zero, genUsedMg]

/-! ### Entering a class -/

theorem entersAt_classScope (hloop : loop < plan.pSize - 1) :
    EntersAt plan loop (classScope plan cfg loop) := by
  constructor
  · rintro rfl
    exact List.mem_cons_self
  · intro hpos
    obtain ⟨k, rfl⟩ := Nat.exists_eq_succ_of_ne_zero hpos.ne'
    exact List.mem_cons_self
  · intro hpos
    exact List.mem_cons_of_mem _ (h.mem_members.mpr (Or.inr (Or.inr (Or.inl ⟨hpos, rfl⟩))))
  · intro hpos op hop parent hparent
    refine List.mem_cons_of_mem _ (h.mem_members.mpr ?_)
    by_cases hid : parent.id = (plan.iter (loop - 1)).id
    · exact Or.inr (Or.inr (Or.inl ⟨hpos, by rw [hid]⟩))
    · exact Or.inr (Or.inl ⟨parent, (h.mem_genUsedSet hpos).mpr ⟨hid, op, hop, hparent⟩, rfl⟩)
  · intro hpos mg hmg hskip
    exact List.mem_cons_of_mem _ (h.mem_members.mpr
      (Or.inr (Or.inr (Or.inr (Or.inl ⟨hpos, mg, hmg, hskip, rfl⟩)))))
  · intro dep hdep mg hmg hlt
    exact List.mem_cons_of_mem _ (h.mem_members.mpr (Or.inr (Or.inr (Or.inr (Or.inr
      ⟨mg, h.mem_genUsedMg.mpr ⟨hlt, Or.inl ⟨dep, hdep, hmg⟩⟩, rfl⟩)))))
  · -- the members are sets of an earlier depth
    intro dep hdep op hop hin
    have hfresh : ∀ u, 0 < loop → u ∈ plan.ops (loop - 1) → u.id ≠ op.id := fun u hpos hu =>
      (h.ids_lt_of_lt (loop - 1) dep (by omega) u hu op hop).ne
    rw [classScope, List.mem_cons, h.mem_members] at hin
    rcases hin with hin | ⟨i, -, hid⟩ | ⟨u, hu, hid⟩ | ⟨hpos, hid⟩ | ⟨-, mg, -, -, hid⟩ | ⟨mg, -, hid⟩
    · cases loop <;> simp [LoopClass.loopVar] at hin
    · simp at hid
    · have hpos : 0 < loop := by
        by_contra hnot
        simp [genUsedSet, hnot] at hu
      obtain ⟨-, op', -, hparent⟩ := (h.mem_genUsedSet hpos).mp hu
      exact hfresh u hpos (PlanIR.getParentVsetAt_mem hparent) (Var.set.inj hid).symm
    · exact hfresh _ hpos (h.iter_mem _ (by omega)) (Var.set.inj hid).symm
    · simp at hid
    · simp at hid
  · intro dep hdep mg hmg hin
    rw [classScope, List.mem_cons, h.mem_members] at hin
    rcases hin with hin | ⟨i, -, hid⟩ | ⟨u, -, hid⟩ | ⟨-, hid⟩ | ⟨-, mg, -, -, hid⟩ | ⟨mg', hmg', hid⟩
    · cases loop <;> simp [LoopClass.loopVar] at hin
    · simp at hid
    · simp at hid
    · simp at hid
    · simp at hid
    · have hlt := (h.mem_genUsedMg.mp hmg').1
      obtain rfl := h.mg_id _ _ mg hmg mg' (h.mem_mgs_of_genUsedMg hmg') (Var.mg.inj hid)
      have := (h.mg_loopDepth hmg).1
      omega

/-! ### Calls -/

omit h in
theorem genCodeTbbCall_eq_some {call : ParCall} (hcall : genCodeTbbCall plan cfg loop = some call) :
    loop < plan.getSerialLoop ∧ (cfg.parType = .nested ∨ cfg.parType = .nestedRt) ∧
      call.loop = loop ∧ call.iter = (plan.iter (loop - 1)).id ∧
      (0 < loop → call.args = (genMembers plan cfg loop).map Decl.var) ∧
      ∀ v ∈ call.reads, v = .set call.iter ∨ v ∈ call.args := by
  by_cases hserial : plan.getSerialLoop ≤ loop
  · simp [genCodeTbbCall, hserial] at hcall
  by_cases htype : cfg.parType ≠ .nested ∧ cfg.parType ≠ .nestedRt
  · simp [genCodeTbbCall, htype] at hcall
  rw [genCodeTbbCall, if_neg hserial, if_neg htype] at hcall
  obtain rfl := Option.some.inj hcall
  refine ⟨not_le.mp hserial, by tauto, rfl, rfl, fun hpos => ?_, ?_⟩
  · by_cases hcfg : cfg.pruningType = .none <;> simp [genMembers, hpos, hcfg, Function.comp_def]
  · intro v hv
    rw [ParCall.reads] at hv
    rcases List.mem_append.mp hv with hv | hv
    · left
      by_cases hnested : cfg.parType = .nested
      · simp [hnested] at hv
      · simpa [hnested] using hv
    · exact List.mem_cons.mp hv

omit h in
theorem entryScope_succ (scope : Scope) (dep n : ℕ) :
    entryScope plan cfg scope dep (n + 1) = nextScope plan cfg (dep + n) (entryScope plan cfg scope dep n) := by
  induction n generalizing scope dep with
  | zero => rfl
  | succ n ih =>
      rw [entryScope, ih, entryScope]
      congr 1
      omega

/-- A call finds the sets and the indices of its own depth, and the adjacency lists and the mini-graphs
if they are there. -/
theorem calls_subset_iff (hdep : dep < plan.maxDep)
    (hmgs : ∀ mg ∈ genUsedMg plan cfg (dep + 1), mg.loopDepth < dep → .mg mg.id ∈ scope) :
    (genCodeTbbCall plan cfg (dep + 1)).toList.flatMap ParCall.reads ⊆
        scopeAfter scope (bodyStmts plan cfg dep) ↔
      (dep + 1 < plan.getSerialLoop → (cfg.parType = .nested ∨ cfg.parType = .nestedRt) →
        ∀ i ∈ genUsedAdj plan (dep + 1), .adj i ∈ scopeAfter scope (bodyStmts plan cfg dep)) := by
  have hsize : dep + 1 < plan.pSize := by
    simp only [PlanIR.maxDep] at hdep
    omega
  have hset : ∀ u ∈ plan.ops dep, .set u.id ∈ scopeAfter scope (bodyStmts plan cfg dep) := fun u hu =>
    (h.mem_scope_body hdep).mpr (Or.inr (Or.inr (Or.inl ⟨u, hu, rfl⟩)))
  have hiter := hset _ (h.iter_mem dep hsize)
  cases hcall : genCodeTbbCall plan cfg (dep + 1) with
  | none =>
      refine iff_of_true (by simp) fun hserial htype => ?_
      rw [genCodeTbbCall, if_neg (not_le.mpr hserial), if_neg (by tauto)] at hcall
      simp at hcall
  | some call =>
      obtain ⟨hserial, htype, -, hcalliter, hargs, hreads⟩ := genCodeTbbCall_eq_some hcall
      have hargs := hargs (Nat.succ_pos dep)
      rw [Nat.add_sub_cancel] at hcalliter
      simp only [Option.toList, List.flatMap_cons, List.flatMap_nil, List.append_nil, hserial, htype,
        forall_const]
      constructor
      · intro hsub i hi
        refine hsub (List.mem_append_right _ (List.mem_cons_of_mem _ ?_))
        rw [hargs]
        exact h.mem_members.mpr (Or.inl ⟨i, hi, rfl⟩)
      · intro hadj v hv
        rcases hreads v hv with rfl | hv
        · rw [hcalliter]
          exact hiter
        · rw [hargs, h.mem_members, Nat.add_sub_cancel] at hv
          rcases hv with ⟨i, hi, rfl⟩ | ⟨u, hu, rfl⟩ | ⟨-, rfl⟩ | ⟨-, mg, hmg, hskip, rfl⟩ | ⟨mg, hmg, rfl⟩
          · exact hadj i hi
          · obtain ⟨-, op, -, hparent⟩ := (h.mem_genUsedSet (Nat.succ_pos dep)).mp hu
            exact hset u (PlanIR.getParentVsetAt_mem hparent)
          · exact hiter
          · exact (h.mem_scope_body hdep).mpr
              (Or.inr (Or.inr (Or.inr (Or.inr ⟨mg, hmg, hskip, rfl⟩))))
          · have hmem := h.mem_mgs_of_genUsedMg hmg
            have hlt := (h.mem_genUsedMg.mp hmg).1
            rw [h.mem_scope_body hdep]
            rcases (Nat.lt_succ_iff.mp hlt).eq_or_lt with heq | hlt
            · exact Or.inr (Or.inr (Or.inr (Or.inl ⟨mg, heq ▸ hmem, rfl⟩)))
            · exact Or.inl (hmgs mg hmg hlt)

/-! ### Whole classes -/

theorem mem_classScope_adj {i : ℕ} :
    .adj i ∈ classScope plan cfg loop ↔ i ∈ genUsedAdj plan loop := by
  have hvar : Var.adj i ≠ LoopClass.loopVar loop := by cases loop <;> simp [LoopClass.loopVar]
  rw [classScope, List.mem_cons, h.mem_members]
  simp [hvar]

theorem mem_classScope_mg {mg : MiniGraphIR} (hmg : mg ∈ plan.mgs mg.loopDepth) :
    .mg mg.id ∈ classScope plan cfg loop ↔ mg ∈ genUsedMg plan cfg loop := by
  have hvar : Var.mg mg.id ≠ LoopClass.loopVar loop := by cases loop <;> simp [LoopClass.loopVar]
  rw [classScope, List.mem_cons, h.mem_members]
  simp only [hvar, false_or, reduceCtorEq, and_false, exists_false, Var.mg.injEq]
  constructor
  · rintro ⟨mg', hmg', hid⟩
    exact h.mg_id _ _ mg hmg mg' (h.mem_mgs_of_genUsedMg hmg') hid ▸ hmg'
  · exact fun hmg' => ⟨mg, hmg', rfl⟩

/-- The scans miss nothing but the parents of mini-graphs that are built below the depth of the
class. -/
theorem captures_classScope_iff :
    plan.Captures loop (classScope plan cfg loop) ↔ plan.CapturesParents loop := by
  constructor
  · intro hall dep hlt hdep mg hmg parent hparent hout
    have hin := hall.mg dep hlt.le hdep mg hmg parent hparent hout
    rw [h.mem_classScope_mg (h.mem_mgs_of_parent hparent)] at hin
    exact (h.mem_genUsedMg.mp hin).2
  · intro hall
    constructor
    · intro dep hle hdep op hop hnone i hi
      have hroot := h.derivation hop
      rw [hnone] at hroot
      cases hroot with
      | root hedges =>
          rw [h.mem_classScope_adj, h.mem_genUsedAdj]
          refine ⟨hi, dep, hle, op, hop, h.getParentVsetAt_eq_none ?_⟩
          refine Finset.eq_empty_of_forall_notMem fun e he => ?_
          obtain ⟨hmem, hlt⟩ := mem_prefixAt_edges.mp he
          rw [hedges, Finset.mem_singleton, h.loopDepth_eq hop] at hmem
          omega
    · intro dep hle hdep mg hmg parent hparent hout
      rw [h.mem_classScope_mg (h.mem_mgs_of_parent hparent), h.mem_genUsedMg]
      refine ⟨hout, ?_⟩
      rcases hle.eq_or_lt with rfl | hlt
      · exact Or.inr ⟨mg, hmg, hparent⟩
      · exact hall dep hlt hdep mg hmg parent hparent hout

/-- A mini-graph that a call hands over has been built in the class or is a member. -/
theorem mem_entryScope_of_call (hparents : plan.CapturesParents loop) (hle : loop + n < plan.maxDep)
    {mg : MiniGraphIR} (hused : mg ∈ genUsedMg plan cfg (loop + n + 1)) (hlt : mg.loopDepth < loop + n) :
    .mg mg.id ∈ entryScope plan cfg (classScope plan cfg loop) loop n := by
  have hmem := h.mem_mgs_of_genUsedMg hused
  rw [h.mem_entryScope_mg hle.le hmem, h.mem_classScope_mg hmem]
  by_cases hout : mg.loopDepth < loop
  · refine Or.inl (h.mem_genUsedMg.mpr ⟨hout, ?_⟩)
    rcases (h.mem_genUsedMg.mp hused).2 with ⟨dep, hdep, hread⟩ | ⟨child, hchild, hparent⟩
    · exact Or.inl ⟨dep, by omega, hread⟩
    · have hdepth := h.mg_depth _ child hchild
      exact hparents _ (by omega) (by omega) child hchild mg hparent hout
  · exact Or.inr ⟨not_lt.mp hout, hlt⟩

/-- The adjacency lists at a call. -/
theorem mem_callScope_adj (hle : loop + n < plan.maxDep) {i : ℕ} :
    .adj i ∈ scopeAfter (entryScope plan cfg (classScope plan cfg loop) loop n)
        (bodyStmts plan cfg (loop + n)) ↔
      i ∈ genUsedAdj plan loop ∨ loop ≤ i ∧ i ≤ loop + n ∧ plan.ReadsAdj cfg i := by
  have hnext : .adj i ∈ entryScope plan cfg (classScope plan cfg loop) loop (n + 1) ↔ _ :=
    h.mem_entryScope_adj (Nat.succ_le_of_lt hle)
  rw [entryScope_succ, nextScope, List.mem_cons, h.mem_classScope_adj] at hnext
  simp only [reduceCtorEq, false_or] at hnext
  rw [hnext]
  refine or_congr_right (and_congr_right fun _ => and_congr_left fun _ => ?_)
  omega

/-- The calls of a class find what they hand over if and only if the adjacency lists among it have been
read. -/
theorem calls_iff (hparents : plan.CapturesParents loop) (hloop : loop + n = plan.maxDep) :
    (∀ j < n, (genCodeTbbCall plan cfg (loop + j + 1)).toList.flatMap ParCall.reads ⊆
        scopeAfter (entryScope plan cfg (classScope plan cfg loop) loop j)
          (bodyStmts plan cfg (loop + j))) ↔
      plan.ReadsForCalls cfg loop := by
  have hcall : ∀ j < n, _ ↔ _ := fun j hj => by
    have hdep : loop + j < plan.maxDep := by omega
    exact h.calls_subset_iff hdep fun mg hused hlt => h.mem_entryScope_of_call hparents hdep hused hlt
  constructor
  · intro hcalls htype dep hle hlt dep' hdep' op hop hnone i hi hi'
    obtain ⟨j, rfl⟩ := Nat.exists_eq_add_of_le hle
    have hj : j < n := by
      have := plan.serialLoop_le
      omega
    have hin := (hcall j hj).mp (hcalls j hj) hlt htype i
      (h.mem_genUsedAdj.mpr ⟨by omega, dep', hdep', op, hop, hnone⟩)
    rcases (h.mem_callScope_adj (by omega)).mp hin with hout | hread
    · exact absurd (h.mem_genUsedAdj.mp hout).1 (by omega)
    · exact hread.2.2
  · intro hreads j hj
    refine (hcall j hj).mpr fun hlt htype i hi => ?_
    obtain ⟨hle, dep', hdep', op, hop, hnone⟩ := h.mem_genUsedAdj.mp hi
    rw [Nat.add_sub_cancel] at hnone
    rw [h.mem_callScope_adj (by omega)]
    by_cases hout : i < loop
    · exact Or.inl (h.mem_genUsedAdj.mpr ⟨hout, dep', by omega, op, hop,
        h.getParentVsetAt_none_of_le hop (by omega) hnone (by omega)⟩)
    · exact Or.inr ⟨by omega, by omega, hreads htype (loop + j) (by omega) hlt dep' (by omega) op hop
        hnone i (by omega) (by omega)⟩

/-- A class is closed if and only if the plan is in order from its depth on and what its bodies and its
calls take from outside is there. -/
theorem closed_class_iff (hiep : plan.IepFit cfg) (hloop : loop + n = plan.maxDep) :
    ClosedBlock (classScope plan cfg loop) (nest plan cfg (genCodeTbbCall plan cfg) n loop) ↔
      plan.InOrderFrom cfg loop ∧ plan.CapturesParents loop ∧ plan.ReadsForCalls cfg loop := by
  have hsize : loop < plan.pSize - 1 := by
    have := h.three_le
    simp only [PlanIR.maxDep] at hloop
    omega
  have hadj : ∀ i, loop ≤ i → .adj i ∉ classScope plan cfg loop := by
    intro i hi hin
    have := (h.mem_genUsedAdj.mp (h.mem_classScope_adj.mp hin)).1
    omega
  rw [h.closed_nest_iff_inOrder hiep _ (h.entersAt_classScope hsize) hadj hloop,
    h.captures_classScope_iff]
  exact and_congr_right fun _ => and_congr_right fun hparents => h.calls_iff hparents hloop

end PlannedMgs

end GraphMini
