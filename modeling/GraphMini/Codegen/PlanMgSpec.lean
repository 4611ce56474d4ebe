import GraphMini.Codegen.Derivation
import GraphMini.Codegen.PlanMg

/-!
# What a plan with mini-graphs contains

A mini-graph of a plan has two sets of its depth, ids tell the mini-graphs apart, and the mini-graphs
listed for a depth are those its operations read. Erasing the unused ones does not change what an
operation reads, since what is read is used.
-/

namespace GraphMini

open VertexSetIR StdAlgorithm

/-! ### The last match -/

section LastMatch

variable {α : Type} {test : α → Bool} {l l' : List α}

theorem lastMatch_eq (test : α → Bool) (l : List α) :
    lastMatch test l = (l.filter test).getLast? := by
  have hfold : ∀ out : Option α, l.foldl (fun out x => if test x then some x else out) out
      = (l.filter test).getLast?.or out := by
    induction l with
    | nil => simp
    | cons a l ih =>
        intro out
        rw [List.foldl_cons, ih, List.filter_cons]
        by_cases ha : test a = true
        · simp only [ha, if_true]
          cases hl : l.filter test with
          | nil => simp
          | cons b rest =>
              rw [List.getLast?_cons_cons]
              simp [List.getLast?_eq_some_getLast]
        · simp [ha]
  rw [lastMatch, hfold, Option.or_none]

theorem lastMatch_mem {a : α} (h : lastMatch test l = some a) : a ∈ l ∧ test a = true := by
  rw [lastMatch_eq] at h
  exact List.mem_filter.mp (List.mem_of_getLast? h)

/-- Leaving out other elements does not change the last match. -/
theorem lastMatch_of_sublist (hl : l.Nodup) (hsub : l'.Sublist l)
    (hkeep : ∀ a, lastMatch test l = some a → a ∈ l') : lastMatch test l' = lastMatch test l := by
  have hfilter : (l'.filter test).Sublist (l.filter test) := hsub.filter test
  cases h : lastMatch test l with
  | none =>
      rw [lastMatch_eq, List.getLast?_eq_none_iff] at h
      rw [lastMatch_eq, List.getLast?_eq_none_iff, List.eq_nil_iff_forall_not_mem]
      intro a ha
      simpa [h] using hfilter.subset ha
  | some a =>
      have ha : a ∈ l'.filter test := List.mem_filter.mpr ⟨hkeep a h, (lastMatch_mem h).2⟩
      rw [lastMatch_eq] at h ⊢
      obtain ⟨init, hinit⟩ := List.getLast?_eq_some_iff.mp h
      have hnodup : (init ++ [a]).Nodup := hinit ▸ hl.filter test
      obtain ⟨s, t, hst, hs, ht⟩ := List.sublist_append_iff.mp (hinit ▸ hfilter)
      have hnot : a ∉ s := fun has => by
        rw [List.nodup_append] at hnodup
        exact hnodup.2.2 a (hs.subset has) a List.mem_cons_self rfl
      have hat : a ∈ t := by
        rcases List.mem_append.mp (hst ▸ ha) with h | h
        · exact absurd h hnot
        · exact h
      obtain rfl : t = [a] := ht.eq_of_length_le (List.length_pos_of_mem hat)
      rw [hst, List.getLast?_concat]

end LastMatch

/-! ### Numbers -/

theorem map_numberOps {α : Type} {setId : α → ℤ → α} (getId : α → ℤ)
    (hid : ∀ a z, getId (setId a z) = z) (n : ℕ) (ls : List (List α)) :
    (numberOps setId n ls).flatten.map getId
      = (List.range' n ls.flatten.length).map fun i => ((i : ℕ) : ℤ) := by
  induction ls generalizing n with
  | nil => rfl
  | cons ops rest ih =>
      have hops : (ops.mapIdx fun i op => setId op ((n + i : ℕ) : ℤ)).map getId
          = (List.range' n ops.length).map fun i => ((i : ℕ) : ℤ) := by
        refine List.ext_getElem (by simp) fun i hi hi' => ?_
        simp [hid]
      rw [numberOps, List.flatten_cons, List.map_append, hops, ih, ← List.map_append,
        List.flatten_cons, List.length_append, List.range'_append_1]

/-! ### The mini-graphs of a depth -/

/-- Every mini-graph has an id of its own. -/
theorem nodup_planMgs_ids (plan : PlanIR) (cfg : CodeGenConfig) :
    ((planMgs plan cfg).flatten.map MiniGraphIR.id).Nodup := by
  rw [planMgs, map_numberOps MiniGraphIR.id fun _ _ => rfl]
  exact List.Nodup.map Nat.cast_injective List.nodup_range'

/-- A mini-graph of a depth comes from an operation two depths below or more. -/
theorem mem_planMgs {plan : PlanIR} {cfg : CodeGenConfig} {dep : ℕ} {mg : MiniGraphIR}
    (h : mg ∈ (planMgs plan cfg).getD dep []) :
    ∃ compDep vset mg', dep + 2 ≤ compDep ∧ compDep ≤ plan.maxDep ∧ vset ∈ plan.ops compDep
      ∧ mgOp plan cfg compDep vset dep = some mg' ∧ mg'.vertices = mg.vertices
      ∧ mg'.intersect = mg.intersect := by
  rw [planMgs, numberOps_getD, List.mem_mapIdx] at h
  obtain ⟨i, hi, rfl⟩ := h
  have hmem := List.getElem_mem hi
  set mg' := (((List.range plan.pSize).map fun pruneDep =>
      unique MiniGraphIR.same
        (insertionSort MiniGraphIR.less (mgCandidates plan cfg pruneDep))).getD dep [])[i]
  have hdep : dep < plan.pSize := by
    by_contra hnot
    rw [List.getD_eq_default _ _ (by simpa using hnot)] at hmem
    simp at hmem
  rw [List.getD_eq_getElem _ _ (by simpa using hdep)] at hmem
  simp only [List.getElem_map, List.getElem_range] at hmem
  have hcand := (insertionSort_perm _ _).mem_iff.mp ((unique_sublist _).subset hmem)
  simp only [mgCandidates, List.mem_flatMap, List.mem_reverse, List.mem_range'_1,
    List.mem_filterMap] at hcand
  obtain ⟨compDep, hrange, vset, hvset, hop⟩ := hcand
  exact ⟨compDep, vset, mg', by omega, by omega, hvset, hop, rfl, rfl⟩

/-- The prefix that `get_parent_vset(vset, dep)` finds is a set of the depth. -/
theorem PlanIR.getParentVsetAt_mem {plan : PlanIR} {vset u : VertexSetIR} {dep : ℕ}
    (h : plan.getParentVsetAt vset dep = some u) : u ∈ plan.ops dep := by
  have hfold : ∀ (ops : List VertexSetIR) (out : Option VertexSetIR),
      ops.foldl (parentStep plan.adjMatType vset) out = some u → u ∈ ops ∨ out = some u := by
    intro ops
    induction ops with
    | nil => exact fun out h => Or.inr h
    | cons op ops ih =>
        intro out h
        rcases ih _ h with h | h
        · exact Or.inl (List.mem_cons_of_mem _ h)
        · rw [parentStep] at h
          split at h
          · exact Or.inl (by simp [Option.some.inj h])
          · exact Or.inr h
  rw [getParentVsetAt_eq] at h
  split at h
  · simpa using hfold _ _ h
  · simp at h

theorem mgOp_sets {plan : PlanIR} {cfg : CodeGenConfig} {compDep dep : ℕ} {vset : VertexSetIR}
    {mg : MiniGraphIR} (h : mgOp plan cfg compDep vset dep = some mg) :
    mg.vertices ∈ plan.ops dep ∧ mg.intersect ∈ plan.ops dep
      ∧ (cfg.pruningType = .static →
        mg.vertices.isSupersetOf plan.adjMatType (plan.iter dep) = true) := by
  rw [mgOp] at h
  split at h
  · simp at h
  · simp only [Option.bind_eq_bind, Option.bind_eq_some_iff] at h
    obtain ⟨intersect, hintersect, vertices, hvertices, h⟩ := h
    split at h
    · simp at h
    · rename_i hstatic
      obtain rfl := Option.some.inj h
      refine ⟨PlanIR.getParentVsetAt_mem hvertices, PlanIR.getParentVsetAt_mem hintersect,
        fun htype => ?_⟩
      have hany : ((plan.ops (dep + 1)).any (MiniGraphIR.computed plan.adjMatType
          { vertices, intersect } (plan.iter dep))) = true := by
        simpa [htype] using hstatic
      obtain ⟨next, -, hcomputed⟩ := List.any_eq_true.mp hany
      rw [MiniGraphIR.computed] at hcomputed
      split at hcomputed
      · simp at hcomputed
      · rename_i hflag
        simp only [Bool.not_eq_true', Bool.not_eq_false, Bool.and_eq_true,
          MiniGraphIR.isSupersetOfSets] at hflag
        exact hflag.1.1.1

/-! ### What is used -/

theorem eraseUnused_some {used : ℤ → Bool} {l l' : List MiniGraphIR}
    (h : eraseUnused used l = some l') :
    l'.Sublist l ∧ ∀ mg ∈ l, used mg.id = true → mg ∈ l' := by
  fun_induction eraseUnused used l generalizing l' with
  | case1 =>
      obtain rfl : [] = l' := by simpa using h
      exact ⟨List.Sublist.refl _, by simp⟩
  | case2 mg rest hused ih =>
      obtain ⟨rest', hrest, rfl⟩ := Option.map_eq_some_iff.mp h
      obtain ⟨hsub, hkeep⟩ := ih hrest
      refine ⟨hsub.cons_cons mg, fun m hm hm' => ?_⟩
      rcases List.mem_cons.mp hm with rfl | hm
      · exact List.mem_cons_self
      · exact List.mem_cons_of_mem _ (hkeep m hm hm')
  | case3 mg hunused => simp at h
  | case4 mg hunused next rest ih =>
      obtain ⟨rest', hrest, rfl⟩ := Option.map_eq_some_iff.mp h
      obtain ⟨hsub, hkeep⟩ := ih hrest
      refine ⟨(hsub.cons_cons next).cons mg, fun m hm hm' => ?_⟩
      rcases List.mem_cons.mp hm with rfl | hm
      · exact absurd hm' hunused
      · rcases List.mem_cons.mp hm with rfl | hm
        · exact List.mem_cons_self
        · exact List.mem_cons_of_mem _ (hkeep m hm hm')

/-- Erasing in the lists of all depths. -/
theorem eraseUnused_lists {used : ℤ → Bool} {ls ls' : List (List MiniGraphIR)}
    (h : List.Forall₂ (fun l l' => eraseUnused used l = some l') ls ls') :
    (∀ k, (ls'.take k).flatten.Sublist (ls.take k).flatten) ∧
      ∀ dep, (ls'.getD dep []).Sublist (ls.getD dep []) ∧
        ∀ mg ∈ ls.getD dep [], used mg.id = true → mg ∈ ls'.getD dep [] := by
  induction h with
  | nil => simp
  | cons herase _ ih =>
      obtain ⟨hflat, hget⟩ := ih
      refine ⟨fun k => ?_, fun dep => ?_⟩
      · cases k with
        | zero => simp
        | succ k => simpa using (eraseUnused_some herase).1.append (hflat k)
      · cases dep with
        | zero => exact eraseUnused_some herase
        | succ dep => exact hget dep

section Marks

variable {plan : PlanIR} {mgs : List MiniGraphIR}
  (hmgs : ∀ op mg, plan.getParentMg op = some mg → mg ∈ mgs)
  (hinj : ∀ mg ∈ mgs, ∀ mg' ∈ mgs, mg.id = mg'.id → mg = mg')

include hmgs hinj

/-- The operations of a depth add the mini-graphs they read. -/
theorem foldl_markOp (ops : List VertexSetIR) (s : MgMarks × List MiniGraphIR)
    (hs : ∀ mg ∈ s.2, mg ∈ mgs) :
    (∀ mg, mg ∈ (ops.foldl (markOp plan) s).2 ↔
      mg ∈ s.2 ∨ ∃ op ∈ ops, plan.getParentMg op = some mg) ∧
    ∀ id, (ops.foldl (markOp plan) s).1.indeedUsed id = true ↔
      s.1.indeedUsed id = true ∨ ∃ op ∈ ops, ∃ mg, plan.getParentMg op = some mg ∧ mg.id = id := by
  induction ops generalizing s with
  | nil => simp
  | cons op ops ih =>
      have hstep : (∀ mg, mg ∈ (markOp plan s op).2 ↔ mg ∈ s.2 ∨ plan.getParentMg op = some mg) ∧
          ∀ id, (markOp plan s op).1.indeedUsed id = true ↔
            s.1.indeedUsed id = true ∨ ∃ mg, plan.getParentMg op = some mg ∧ mg.id = id := by
        rw [markOp]
        cases hop : plan.getParentMg op with
        | none => simp
        | some mg =>
            have hupdate : ∀ id, Function.update s.1.indeedUsed mg.id true id = true ↔
                s.1.indeedUsed id = true ∨ mg.id = id := by
              intro id
              by_cases hid : id = mg.id
              · simp [hid]
              · simp [Function.update_of_ne hid, Ne.symm hid]
            simp only [Option.some.injEq, exists_eq_left']
            split
            · rename_i hany
              obtain ⟨m, hm, hid⟩ := List.any_eq_true.mp hany
              obtain rfl : m = mg := hinj m (hs m hm) mg (hmgs op mg hop) (by simpa using hid)
              refine ⟨fun m' => ?_, hupdate⟩
              constructor
              · exact Or.inl
              · rintro (h | rfl)
                · exact h
                · exact hm
            · exact ⟨fun m' => by simp [eq_comm], hupdate⟩
      have hs' : ∀ mg ∈ (markOp plan s op).2, mg ∈ mgs := by
        intro mg hmg
        rcases (hstep.1 mg).mp hmg with h | h
        · exact hs mg h
        · exact hmgs op mg h
      obtain ⟨hmem, hused⟩ := ih _ hs'
      rw [List.foldl_cons]
      refine ⟨fun mg => ?_, fun id => ?_⟩
      · rw [hmem, hstep.1, or_assoc]
        simp
      · rw [hused, hstep.2, or_assoc]
        simp

/-- The list of each depth has what the operations of the depth read. -/
theorem foldl_markDepth (k : ℕ) :
    let out := (List.range' 1 k).foldl (markDepth plan) ({}, [[]])
    out.2.length = k + 1 ∧
    (∀ dep mg, mg ∈ out.2.getD dep [] ↔
      1 ≤ dep ∧ dep ≤ k ∧ ∃ op ∈ plan.ops dep, plan.getParentMg op = some mg) ∧
    ∀ dep mg, mg ∈ out.2.getD dep [] → out.1.indeedUsed mg.id = true := by
  induction k with
  | zero =>
      refine ⟨rfl, fun dep mg => ?_, fun dep mg => ?_⟩
      · cases dep <;> simp
      · cases dep <;> simp
  | succ k ih =>
      obtain ⟨hlen, hmem, hused⟩ := ih
      simp only [List.range'_1_concat, List.foldl_append, List.foldl_cons, List.foldl_nil]
      set out := (List.range' 1 k).foldl (markDepth plan) ({}, [[]]) with hout
      obtain ⟨hmem', hused'⟩ := foldl_markOp hmgs hinj (plan.ops (1 + k)) (out.1, []) (by simp)
      simp only [markDepth]
      have hget : ∀ dep mg, mg ∈ (out.2 ++ [((plan.ops (1 + k)).foldl (markOp plan)
          (out.1, [])).2]).getD dep [] ↔ (dep ≤ k ∧ mg ∈ out.2.getD dep []) ∨
            (dep = k + 1 ∧ ∃ op ∈ plan.ops (1 + k), plan.getParentMg op = some mg) := by
        intro dep mg
        rcases lt_trichotomy dep (k + 1) with hlt | rfl | hgt
        · rw [List.getD_append _ _ _ _ (by omega)]
          constructor
          · exact fun h => Or.inl ⟨by omega, h⟩
          · rintro (h | h)
            · exact h.2
            · omega
        · rw [List.getD_append_right _ _ _ _ hlen.le, hlen]
          simp [hmem']
        · rw [List.getD_eq_default _ _ (by simp; omega)]
          simp
          omega
      refine ⟨by simp [hlen], fun dep mg => ?_, fun dep mg hmg => ?_⟩
      · rw [hget, hmem]
        constructor
        · rintro (⟨hle, h1, h2, h3⟩ | ⟨rfl, h⟩)
          · exact ⟨h1, by omega, h3⟩
          · exact ⟨by omega, le_rfl, by rwa [add_comm]⟩
        · rintro ⟨h1, h2, h3⟩
          by_cases hle : dep ≤ k
          · exact Or.inl ⟨hle, h1, hle, h3⟩
          · obtain rfl : dep = k + 1 := by omega
            exact Or.inr ⟨rfl, by rwa [add_comm]⟩
      · rw [hused']
        rcases (hget dep mg).mp hmg with ⟨-, h⟩ | ⟨-, op, hop, h⟩
        · exact Or.inl (hused dep mg h)
        · exact Or.inr ⟨op, hop, mg, h, rfl⟩

end Marks

/-- What is used stays used. -/
theorem indeedUsed_markParents {plan : PlanIR} {marks : MgMarks} {id : ℤ}
    (h : marks.indeedUsed id = true) : (markParents plan marks).indeedUsed id = true := by
  rw [markParents]
  induction (List.range (plan.maxDep + 1)).reverse.flatMap plan.mgs generalizing marks with
  | nil => exact h
  | cons child rest ih =>
      rw [List.foldl_cons]
      refine ih ?_
      rw [markParent]
      split
      · split
        · exact h
        · simp only [Function.update_apply, h, ite_self]
      · exact h

/-! ### The plan -/

/-- What the generators may expect of a plan that `gen_code` hands them. -/
structure PlannedMgs (edge restrict : ℕ → Finset ℕ) (cfg : CodeGenConfig) (plan : PlanIR) : Prop
    extends PlannedSets edge restrict plan where
  mg_sets : ∀ dep, ∀ mg ∈ plan.mgs dep, mg.vertices ∈ plan.ops dep ∧ mg.intersect ∈ plan.ops dep
  mg_depth : ∀ dep, ∀ mg ∈ plan.mgs dep, dep + 2 ≤ plan.maxDep
  mg_id : ∀ dep dep', ∀ mg ∈ plan.mgs dep, ∀ mg' ∈ plan.mgs dep', mg.id = mg'.id → mg = mg'
  mg_nodup : ∀ dep, (plan.mgs dep).Nodup
  mem_used : ∀ dep mg, mg ∈ plan.used dep ↔
    dep ≤ plan.maxDep ∧ ∃ op ∈ plan.ops dep, plan.getParentMg op = some mg
  mgs_none : cfg.pruningType = .none → ∀ dep, plan.mgs dep = []
  mgs_static : cfg.pruningType = .static → ∀ dep, ∀ mg ∈ plan.mgs dep,
    mg.vertices.isSupersetOf plan.adjMatType (plan.iter dep) = true

theorem flatMap_range_getD {α : Type} (ls : List (List α)) (k : ℕ) :
    (List.range k).flatMap (fun dep => ls.getD dep []) = (ls.take k).flatten := by
  induction k with
  | zero => rfl
  | succ k ih =>
      rw [List.range_succ, List.flatMap_append, ih, List.take_add_one, List.flatten_append]
      cases h : ls[k]? <;> simp [List.getD, h]

theorem PlanIR.flatMap_mgs (plan : PlanIR) (k : ℕ) :
    (List.range k).flatMap plan.mgs = (plan.mgOps.take k).flatten :=
  flatMap_range_getD plan.mgOps k

/-- Leaving out mini-graphs that an operation does not read does not change what it reads. -/
theorem PlanIR.getParentMg_of_sublist (plan : PlanIR) {mgOps mgUsed : List (List MiniGraphIR)}
    {mgBounded : ℤ → Bool} {op : VertexSetIR}
    (hnodup : ((List.range op.loopDepth).flatMap plan.mgs).Nodup)
    (hsub : ((mgOps.take op.loopDepth).flatten).Sublist ((List.range op.loopDepth).flatMap plan.mgs))
    (hkeep : ∀ mg, plan.getParentMg op = some mg → mg ∈ (mgOps.take op.loopDepth).flatten) :
    ({ plan with mgOps, mgUsed, mgBounded } : PlanIR).getParentMg op = plan.getParentMg op := by
  have hflat := PlanIR.flatMap_mgs { plan with mgOps, mgUsed, mgBounded } op.loopDepth
  simp only [getParentMg] at hkeep ⊢
  split
  · rfl
  · rename_i hdep
    split
    · rfl
    · rename_i hedge
      simp only [hdep, if_false, hedge, Bool.false_eq_true] at hkeep
      rw [hflat]
      exact lastMatch_of_sublist hnodup hsub hkeep

theorem PlanIR.mem_mgs_of_getParentMg {plan : PlanIR} {op : VertexSetIR} {mg : MiniGraphIR}
    (h : plan.getParentMg op = some mg) :
    op.loopDepth ≠ 0 ∧ ∃ dep < op.loopDepth, mg ∈ plan.mgs dep ∧
      mg.isSupersetOfSets plan.adjMatType (plan.iter (op.loopDepth - 1)) op = true ∧
      (plan.adjMatType = .vertexInduced ∨ op.loopDepth ∈ op.edges) := by
  rw [getParentMg] at h
  split at h
  · simp at h
  · rename_i hdep
    split at h
    · simp at h
    · rename_i hedge
      obtain ⟨hmem, hsup⟩ := lastMatch_mem h
      obtain ⟨dep, hlt, hmg⟩ := List.mem_flatMap.mp hmem
      refine ⟨hdep, dep, List.mem_range.mp hlt, hmg, hsup, ?_⟩
      simpa [isEdge, or_iff_not_imp_left] using hedge

theorem PlanIR.mem_mgs_of_getParentMgOf {plan : PlanIR} {child parent : MiniGraphIR}
    (h : plan.getParentMgOf child = some parent) :
    ∃ dep ≤ child.loopDepth, parent ∈ plan.mgs dep ∧
      parent.isSupersetOf plan.adjMatType child = true ∧ parent.id ≠ child.id ∧
      (plan.isBounded parent = true → plan.isBounded child = true) := by
  rw [getParentMgOf] at h
  obtain ⟨hmem, htest⟩ := lastMatch_mem h
  obtain ⟨dep, hlt, hmg⟩ := List.mem_flatMap.mp hmem
  simp only [Bool.and_eq_true, bne_iff_ne, Bool.not_eq_true', Bool.and_eq_false_iff,
    Bool.not_eq_false'] at htest
  refine ⟨dep, Nat.lt_succ_iff.mp (List.mem_range.mp hlt), hmg, htest.1.1, htest.1.2, ?_⟩
  intro hbounded
  simpa [hbounded] using htest.2

section

variable {edge restrict : ℕ → Finset ℕ} {plan out : PlanIR} {cfg : CodeGenConfig}

/-- The sets of a plan do not depend on its mini-graphs. -/
theorem PlannedSets.withMgs (h : PlannedSets edge restrict plan)
    (mgOps mgUsed : List (List MiniGraphIR)) (mgBounded : ℤ → Bool) :
    PlannedSets edge restrict { plan with mgOps, mgUsed, mgBounded } :=
  ⟨h.three_le, h.connected, h.restrict_lt, h.ops_sound, h.ops_complete, h.ops_last, h.ids_lt,
    h.ids_lt_of_lt, h.iter_mem, h.iter_same⟩

theorem plannedMgs_of_none (h : PlannedSets edge restrict plan) (hmgs : plan.mgOps = [])
    (hused : plan.mgUsed = []) : PlannedMgs edge restrict cfg plan where
  toPlannedSets := h
  mg_sets dep mg hmg := by simp [PlanIR.mgs, hmgs] at hmg
  mg_depth dep mg hmg := by simp [PlanIR.mgs, hmgs] at hmg
  mg_id dep dep' mg hmg := by simp [PlanIR.mgs, hmgs] at hmg
  mg_nodup dep := by simp [PlanIR.mgs, hmgs]
  mem_used dep mg := by
    constructor
    · intro hmg
      simp [PlanIR.used, hused] at hmg
    · rintro ⟨-, op, -, hop⟩
      obtain ⟨-, dep', -, hmg, -⟩ := PlanIR.mem_mgs_of_getParentMg hop
      simp [PlanIR.mgs, hmgs] at hmg
  mgs_none _ dep := by simp [PlanIR.mgs, hmgs]
  mgs_static _ dep mg hmg := by simp [PlanIR.mgs, hmgs] at hmg

/-- The plan with all its numbered mini-graphs, before the unused ones are erased. -/
def PlanIR.numbered (plan : PlanIR) (cfg : CodeGenConfig) : PlanIR :=
  { plan with mgOps := planMgs plan cfg }

/-- What is left of the marks when the plan is finished. -/
def finalMarks (plan : PlanIR) (cfg : CodeGenConfig) : MgMarks :=
  markParents (plan.numbered cfg) (markOps (plan.numbered cfg)).1

theorem mem_flatten_of_mem_numbered {dep : ℕ} {mg : MiniGraphIR}
    (hmg : mg ∈ (plan.numbered cfg).mgs dep) : mg ∈ (planMgs plan cfg).flatten := by
  have htake : mg ∈ ((planMgs plan cfg).take (dep + 1)).flatten := by
    rw [← flatMap_range_getD]
    exact List.mem_flatMap.mpr ⟨dep, by simp, hmg⟩
  exact ((List.take_sublist _ _).flatten).subset htake

theorem mem_flatten_of_read {op : VertexSetIR} {mg : MiniGraphIR}
    (hmg : (plan.numbered cfg).getParentMg op = some mg) : mg ∈ (planMgs plan cfg).flatten := by
  obtain ⟨-, dep, -, hmem, -⟩ := PlanIR.mem_mgs_of_getParentMg hmg
  exact mem_flatten_of_mem_numbered hmem

theorem planMgs_inj (plan : PlanIR) (cfg : CodeGenConfig) :
    ∀ mg ∈ (planMgs plan cfg).flatten, ∀ mg' ∈ (planMgs plan cfg).flatten,
      mg.id = mg'.id → mg = mg' :=
  fun _ hmg _ hmg' => List.inj_on_of_nodup_map (nodup_planMgs_ids plan cfg) hmg hmg'

theorem createPlanMg_eq_some (hplan : createPlanMg plan cfg = some out) :
    ∃ mgOps, List.Forall₂ (fun l l' => eraseUnused (finalMarks plan cfg).indeedUsed l = some l')
        (planMgs plan cfg) mgOps ∧
      out = { plan with
        mgOps
        mgUsed := (markOps (plan.numbered cfg)).2
        mgBounded := (finalMarks plan cfg).bounded } := by
  simp only [createPlanMg, Option.bind_eq_bind, Option.bind_eq_some_iff, Option.pure_def,
    Option.some.injEq] at hplan
  obtain ⟨mgOps, herase, rfl⟩ := hplan
  exact ⟨mgOps, Loop.forall₂_of_mapM herase, rfl⟩

/-- What an operation reads is listed for its depth and is kept. -/
theorem PlannedSets.marked_of_read (h : PlannedSets edge restrict plan) {dep : ℕ} {op : VertexSetIR}
    {mg : MiniGraphIR} (hle : dep ≤ plan.maxDep) (hop : op ∈ plan.ops dep)
    (hmg : (plan.numbered cfg).getParentMg op = some mg) :
    mg ∈ (markOps (plan.numbered cfg)).2.getD dep [] ∧
      (finalMarks plan cfg).indeedUsed mg.id = true := by
  obtain ⟨-, hmem, hused⟩ := foldl_markDepth (fun _ _ hmg => mem_flatten_of_read hmg)
    (planMgs_inj plan cfg) plan.maxDep
  have hdep := h.loopDepth_eq hop
  obtain ⟨hpos, -⟩ := PlanIR.mem_mgs_of_getParentMg hmg
  have hlist := (hmem dep mg).mpr ⟨by omega, hle, op, hop, hmg⟩
  exact ⟨hlist, indeedUsed_markParents (hused dep mg hlist)⟩

/-- Erasing mini-graphs does not change what the operations read. -/
theorem PlannedSets.getParentMg_createPlanMg (h : PlannedSets edge restrict plan)
    (hplan : createPlanMg plan cfg = some out) {dep : ℕ} {op : VertexSetIR} (hle : dep ≤ plan.maxDep)
    (hop : op ∈ plan.ops dep) : out.getParentMg op = (plan.numbered cfg).getParentMg op := by
  obtain ⟨mgOps, herase, rfl⟩ := createPlanMg_eq_some hplan
  obtain ⟨hflat, hget⟩ := eraseUnused_lists herase
  refine PlanIR.getParentMg_of_sublist (plan.numbered cfg) ?_ ?_ fun mg hmg => ?_
  · rw [PlanIR.flatMap_mgs]
    exact (List.Nodup.of_map _ (nodup_planMgs_ids plan cfg)).sublist (List.take_sublist _ _).flatten
  · rw [PlanIR.flatMap_mgs]
    exact hflat op.loopDepth
  · obtain ⟨-, dep', hlt, hmem', -⟩ := PlanIR.mem_mgs_of_getParentMg hmg
    rw [← flatMap_range_getD]
    exact List.mem_flatMap.mpr ⟨dep', List.mem_range.mpr hlt,
      (hget dep').2 mg hmem' (h.marked_of_read hle hop hmg).2⟩

/-- A numbered mini-graph is made of two sets of its depth. -/
theorem mem_numbered {dep : ℕ} {mg : MiniGraphIR} (hmg : mg ∈ (plan.numbered cfg).mgs dep) :
    mg.vertices ∈ plan.ops dep ∧ mg.intersect ∈ plan.ops dep ∧ dep + 2 ≤ plan.maxDep ∧
      (cfg.pruningType = .static →
        mg.vertices.isSupersetOf plan.adjMatType (plan.iter dep) = true) := by
  obtain ⟨compDep, vset, mg', hlow, hhigh, -, hop, hvertices, hintersect⟩ := mem_planMgs hmg
  obtain ⟨hv, hi, hstatic⟩ := mgOp_sets hop
  exact ⟨hvertices ▸ hv, hintersect ▸ hi, by omega, hvertices ▸ hstatic⟩

theorem plannedMgs_createPlanMg (h : PlannedSets edge restrict plan)
    (hcfg : cfg.pruningType ≠ .none) (hplan : createPlanMg plan cfg = some out) :
    PlannedMgs edge restrict cfg out ∧
      ∃ mgOps mgUsed mgBounded, out = { plan with mgOps, mgUsed, mgBounded } := by
  have hparent : ∀ {dep : ℕ} {op : VertexSetIR}, dep ≤ plan.maxDep → op ∈ plan.ops dep →
      out.getParentMg op = (plan.numbered cfg).getParentMg op :=
    fun hle hop => h.getParentMg_createPlanMg hplan hle hop
  obtain ⟨mgOps, herase, rfl⟩ := createPlanMg_eq_some hplan
  obtain ⟨-, hget⟩ := eraseUnused_lists herase
  have hsub : ∀ dep, ∀ mg ∈ mgOps.getD dep [], mg ∈ (plan.numbered cfg).mgs dep :=
    fun dep mg hmg => (hget dep).1.subset hmg
  obtain ⟨-, hmem, -⟩ := foldl_markDepth (fun _ _ hmg => mem_flatten_of_read hmg)
    (planMgs_inj plan cfg) plan.maxDep
  refine ⟨{ h.withMgs mgOps (markOps (plan.numbered cfg)).2 (finalMarks plan cfg).bounded with
    mg_sets := fun dep mg hmg => ?_
    mg_depth := fun dep mg hmg => (mem_numbered (hsub dep mg hmg)).2.2.1
    mg_id := fun dep dep' mg hmg mg' hmg' => ?_
    mg_nodup := fun dep => ?_
    mem_used := fun dep mg => ?_
    mgs_none := fun hnone => absurd hnone hcfg
    mgs_static := fun htype dep mg hmg => (mem_numbered (hsub dep mg hmg)).2.2.2 htype },
    mgOps, (markOps (plan.numbered cfg)).2, (finalMarks plan cfg).bounded, rfl⟩
  · obtain ⟨hv, hi, -⟩ := mem_numbered (hsub dep mg hmg)
    exact ⟨hv, hi⟩
  · exact planMgs_inj plan cfg mg (mem_flatten_of_mem_numbered (hsub dep mg hmg)) mg'
      (mem_flatten_of_mem_numbered (hsub dep' mg' hmg'))
  · refine (List.Nodup.of_map _ (nodup_planMgs_ids plan cfg)).sublist ((hget dep).1.trans ?_)
    by_cases hdep : dep < (planMgs plan cfg).length
    · rw [List.getD_eq_getElem _ _ hdep]
      exact List.sublist_flatten_of_mem (List.getElem_mem hdep)
    · rw [List.getD_eq_default _ _ (not_lt.mp hdep)]
      exact List.nil_sublist _
  · constructor
    · intro hmg
      obtain ⟨-, hle, op, hop, heq⟩ := (hmem dep mg).mp hmg
      exact ⟨hle, op, hop, (hparent hle hop).trans heq⟩
    · rintro ⟨hle, op, hop, heq⟩
      exact (h.marked_of_read hle hop ((hparent hle hop).symm.trans heq)).1

/-- The fields of the inclusion-exclusion mode: the sets it counts are sets of its last depth. -/
structure PlanIR.HasIepFields (plan : PlanIR) (sc : Schedule) (t : AdjMatType) : Prop where
  off : t ≠ .edgeInducedIEP → plan.iepNum = 0
  num : t = .edgeInducedIEP → plan.iepNum = sc.inExclusionOptimizeNum
  depth : t = .edgeInducedIEP → plan.iepDepth = plan.pSize - plan.iepNum - 1
  groups : t = .edgeInducedIEP → plan.iepGroups = sc.inExclusionOptimizeGroup
  sets : t = .edgeInducedIEP → 1 < plan.iepNum →
    plan.iepSet.length = plan.iepNum ∧ ∀ vset ∈ plan.iepSet, vset ∈ plan.ops plan.iepDepth

theorem hasIepFields_createPlan {sort : List VertexSetIR → List VertexSetIR} {sc : Schedule}
    {t : AdjMatType} {metaData : MetaData} {pSize : ℕ} (hsc : sc.Connected pSize)
    (hsort : PermutesOps sort (sc.edge pSize) (sc.restrict pSize) pSize)
    (hplan : createPlan sort sc t metaData = .ok plan) : plan.HasIepFields sc t := by
  by_cases ht : t = .edgeInducedIEP
  · obtain ⟨hsize, hcheck, hiter⟩ := createPlan_steps t metaData hsort hsc
    unfold createPlan at hplan
    simp only [hsize, bind, Except.bind, pure, Except.pure] at hplan
    erw [hcheck, hiter] at hplan
    simp only [ht, if_true] at hplan
    split at hplan
    · rename_i hnum
      split at hplan
      · simp at hplan
      · rename_i iepSet hsets
        obtain rfl := Except.ok.inj hplan
        have hall := Loop.forall₂_of_mapM_ok hsets
        refine ⟨fun h => absurd ht h, fun _ => rfl, fun _ => rfl, fun _ => rfl, fun _ _ => ⟨?_, ?_⟩⟩
        · simpa using hall.length_eq.symm
        · intro vset hvset
          obtain ⟨i, hi, rfl⟩ := List.getElem_of_mem hvset
          have hfind := hall.get (hall.length_eq ▸ hi) hi
          rw [findIepSet] at hfind
          split at hfind
          · simp at hfind
          · rename_i found hlast
            obtain rfl : found = _ := Except.ok.inj hfind
            exact (lastMatch_mem hlast).1
    · rename_i hnum
      obtain rfl := Except.ok.inj hplan
      exact ⟨fun h => absurd ht h, fun _ => rfl, fun _ => rfl, fun _ => rfl,
        fun _ h => absurd h hnum⟩
  · rw [createPlan_eq hsort hsc ht] at hplan
    obtain rfl := Except.ok.inj hplan
    exact ⟨fun _ => rfl, fun h => absurd h ht, fun h => absurd h ht, fun h => absurd h ht,
      fun h => absurd h ht⟩

/-- What `gen_code` hands to the generators, in every mode. -/
theorem plannedMgs_genPlan {sort : List VertexSetIR → List VertexSetIR} {sc : Schedule}
    {metaData : MetaData} {pSize : ℕ} (hsc : sc.Connected pSize)
    (hsort : PermutesOps sort (sc.edge pSize) (sc.restrict pSize) pSize)
    (hplan : genPlan sort sc cfg metaData = .ok (some out)) :
    PlannedMgs (sc.edge pSize) (sc.restrictBelow pSize) cfg out ∧ out.adjMatType = cfg.adjMatType := by
  cases hbase : createPlan sort sc cfg.adjMatType metaData with
  | error message => simp [genPlan, hbase, bind, Except.bind] at hplan
  | ok plan =>
      obtain ⟨h, htype, hmgs, hused⟩ := createPlan_ok hsort hsc hbase
      simp only [genPlan, hbase, bind, Except.bind, pure, Except.pure, Except.ok.injEq] at hplan
      split at hplan
      · obtain rfl := Option.some.inj hplan
        exact ⟨plannedMgs_of_none h hmgs hused, htype⟩
      · rename_i hcfg
        obtain ⟨hout, mgOps, mgUsed, mgBounded, rfl⟩ := plannedMgs_createPlanMg h hcfg hplan
        exact ⟨hout, htype⟩

theorem hasIepFields_genPlan {sort : List VertexSetIR → List VertexSetIR} {sc : Schedule}
    {metaData : MetaData} {pSize : ℕ} (hsc : sc.Connected pSize)
    (hsort : PermutesOps sort (sc.edge pSize) (sc.restrict pSize) pSize)
    (hplan : genPlan sort sc cfg metaData = .ok (some out)) : out.HasIepFields sc cfg.adjMatType := by
  cases hbase : createPlan sort sc cfg.adjMatType metaData with
  | error message => simp [genPlan, hbase, bind, Except.bind] at hplan
  | ok plan =>
      have hfields := hasIepFields_createPlan hsc hsort hbase
      simp only [genPlan, hbase, bind, Except.bind, pure, Except.pure, Except.ok.injEq] at hplan
      split at hplan
      · obtain rfl := Option.some.inj hplan
        exact hfields
      · obtain ⟨mgOps, -, rfl⟩ := createPlanMg_eq_some hplan
        exact ⟨hfields.off, hfields.num, hfields.depth, hfields.groups, hfields.sets⟩

/-- What a plan has from its schedule besides the sets. -/
theorem header_createPlan {sort : List VertexSetIR → List VertexSetIR} {sc : Schedule} {t : AdjMatType}
    {metaData : MetaData} {pSize : ℕ} (hsc : sc.Connected pSize)
    (hsort : PermutesOps sort (sc.edge pSize) (sc.restrict pSize) pSize)
    (hplan : createPlan sort sc t metaData = .ok plan) :
    plan.pSize = pSize ∧ (t ≠ .edgeInducedIEP → plan.iepRedundancy = 0) ∧
      (t = .edgeInducedIEP → plan.iepRedundancy = sc.inExclusionOptimizeRedundancy ∧
        plan.iepVals = sc.inExclusionOptimizeVal) := by
  by_cases ht : t = .edgeInducedIEP
  · obtain ⟨hsize, hcheck, hiter⟩ := createPlan_steps t metaData hsort hsc
    unfold createPlan at hplan
    simp only [hsize, bind, Except.bind, pure, Except.pure] at hplan
    erw [hcheck, hiter] at hplan
    simp only [ht, if_true] at hplan
    split at hplan
    · split at hplan
      · simp at hplan
      · obtain rfl := Except.ok.inj hplan
        exact ⟨rfl, fun h => absurd ht h, fun _ => ⟨rfl, rfl⟩⟩
    · obtain rfl := Except.ok.inj hplan
      exact ⟨rfl, fun h => absurd ht h, fun _ => ⟨rfl, rfl⟩⟩
  · rw [createPlan_eq hsort hsc ht] at hplan
    obtain rfl := Except.ok.inj hplan
    exact ⟨rfl, fun _ => rfl, fun h => absurd h ht⟩

theorem header_genPlan {sort : List VertexSetIR → List VertexSetIR} {sc : Schedule}
    {metaData : MetaData} {pSize : ℕ} (hsc : sc.Connected pSize)
    (hsort : PermutesOps sort (sc.edge pSize) (sc.restrict pSize) pSize)
    (hplan : genPlan sort sc cfg metaData = .ok (some out)) :
    out.pSize = pSize ∧ (cfg.adjMatType ≠ .edgeInducedIEP → out.iepRedundancy = 0) ∧
      (cfg.adjMatType = .edgeInducedIEP → out.iepRedundancy = sc.inExclusionOptimizeRedundancy ∧
        out.iepVals = sc.inExclusionOptimizeVal) := by
  cases hbase : createPlan sort sc cfg.adjMatType metaData with
  | error message => simp [genPlan, hbase, bind, Except.bind] at hplan
  | ok plan =>
      have hheader := header_createPlan hsc hsort hbase
      simp only [genPlan, hbase, bind, Except.bind, pure, Except.pure, Except.ok.injEq] at hplan
      split at hplan
      · obtain rfl := Option.some.inj hplan
        exact hheader
      · obtain ⟨mgOps, -, rfl⟩ := createPlanMg_eq_some hplan
        exact hheader

end

end GraphMini
