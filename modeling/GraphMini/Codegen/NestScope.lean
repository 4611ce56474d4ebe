import GraphMini.Codegen.BodyScope

/-!
# The scopes of a loop nest

A nest of bodies is entered with some variables, and every body leaves its own to the next one. The
nest is closed if and only if the plan is in order from the first depth on, and what the calls of
parallel regions hand over is there.
-/

namespace GraphMini

/-- The scope of the next body. -/
def nextScope (plan : PlanIR) (cfg : CodeGenConfig) (dep : ℕ) (scope : Scope) : Scope :=
  .idx (dep + 1) :: scopeAfter scope (bodyStmts plan cfg dep)

/-- The scope of the body `n` depths below. -/
def entryScope (plan : PlanIR) (cfg : CodeGenConfig) : Scope → ℕ → ℕ → Scope
  | scope, _, 0 => scope
  | scope, dep, n + 1 => entryScope plan cfg (nextScope plan cfg dep scope) (dep + 1) n

/-- From a depth on everything comes before what needs it. -/
structure PlanIR.InOrderFrom (plan : PlanIR) (cfg : CodeGenConfig) (loop : ℕ) : Prop where
  sibling : ∀ dep, loop ≤ dep → dep ≤ plan.maxDep → ∀ op ∈ plan.ops dep,
    plan.readsEntry op = false → ∀ parent, plan.getParentVset op = some parent →
      parent.loopDepth = dep → Precedes (plan.ops dep) parent op
  adj : ∀ dep, loop ≤ dep → dep ≤ plan.maxDep → ∀ op ∈ plan.ops dep,
    plan.getParentVset op = none → ∀ i, loop ≤ i → i < dep → plan.ReadsAdj cfg i
  mg : ∀ dep, loop ≤ dep → dep < plan.maxDep → ∀ mg ∈ plan.mgs dep, ∀ parent,
    plan.getParentMgOf mg = some parent → parent.loopDepth = dep → Precedes (plan.mgs dep) parent mg

/-- The scope has what the bodies from a depth on take from the loops outside. -/
structure PlanIR.Captures (plan : PlanIR) (loop : ℕ) (scope : Scope) : Prop where
  adj : ∀ dep, loop ≤ dep → dep ≤ plan.maxDep → ∀ op ∈ plan.ops dep,
    plan.getParentVset op = none → ∀ i < loop, .adj i ∈ scope
  mg : ∀ dep, loop ≤ dep → dep < plan.maxDep → ∀ mg ∈ plan.mgs dep, ∀ parent,
    plan.getParentMgOf mg = some parent → parent.loopDepth < loop → .mg parent.id ∈ scope

namespace PlannedMgs

variable {edge restrict : ℕ → Finset ℕ} {cfg : CodeGenConfig} {plan : PlanIR} {scope : Scope}
  {dep n : ℕ} {v : Var} (h : PlannedMgs edge restrict cfg plan)

include h

theorem mem_nextScope (hdep : dep < plan.maxDep) :
    v ∈ nextScope plan cfg dep scope ↔
      v = .idx (dep + 1) ∨ v ∈ scope ∨ Opens plan cfg dep v ∨ (∃ u ∈ plan.ops dep, v = .set u.id) ∨
        (∃ m ∈ plan.mgs dep, v = .mg m.id) ∨
        ∃ mg ∈ plan.used (dep + 1), skipBuildIndices mg (plan.iter dep) = false ∧
          v = .mgIndices mg.id (plan.iter dep).id := by
  rw [nextScope, List.mem_cons, h.mem_scope_body hdep]

/-- A body leaves to the next one what that needs. -/
theorem entersAt_next (hE : EntersAt plan dep scope) (hdep : dep < plan.maxDep) :
    EntersAt plan (dep + 1) (nextScope plan cfg dep scope) := by
  have hsize : dep + 1 < plan.pSize := by
    simp only [PlanIR.maxDep] at hdep
    omega
  have hset : ∀ u ∈ plan.ops dep, .set u.id ∈ nextScope plan cfg dep scope := fun u hu =>
    (h.mem_nextScope hdep).mpr (Or.inr (Or.inr (Or.inr (Or.inl ⟨u, hu, rfl⟩))))
  constructor
  · intro hzero
    omega
  · exact fun _ => (h.mem_nextScope hdep).mpr (Or.inl rfl)
  · exact fun _ => hset _ (h.iter_mem dep hsize)
  · exact fun _ op _ parent hparent => hset parent (PlanIR.getParentVsetAt_mem hparent)
  · exact fun _ mg hmg hskip => (h.mem_nextScope hdep).mpr
      (Or.inr (Or.inr (Or.inr (Or.inr (Or.inr ⟨mg, hmg, hskip, rfl⟩)))))
  · intro dep' hdep' mg hmg hlt
    rw [h.mem_nextScope hdep]
    rcases (Nat.lt_succ_iff.mp hlt).eq_or_lt with heq | hlt'
    · exact Or.inr (Or.inr (Or.inr (Or.inr (Or.inl ⟨mg, heq ▸ (h.loopDepth_of_used hmg).2, rfl⟩))))
    · exact Or.inr (Or.inl (hE.used dep' (by omega) mg hmg hlt'))
  · intro dep' hdep' op hop
    rw [h.mem_nextScope hdep]
    rintro (hidx | hin | hopens | ⟨u, hu, hid⟩ | ⟨m, -, hid⟩ | ⟨mg, -, -, hid⟩)
    · simp at hidx
    · exact hE.fresh dep' (by omega) op hop hin
    · simp [Opens] at hopens
    · have := h.ids_lt_of_lt dep dep' (by omega) u hu op hop
      exact this.ne' (Var.set.inj hid)
    · simp at hid
    · simp at hid
  · intro dep' hdep' mg hmg
    rw [h.mem_nextScope hdep]
    rintro (hidx | hin | hopens | ⟨u, -, hid⟩ | ⟨m, hm, hid⟩ | ⟨mg', -, -, hid⟩)
    · simp at hidx
    · exact hE.freshMg dep' (by omega) mg hmg hin
    · simp [Opens] at hopens
    · simp at hid
    · obtain rfl := h.mg_id dep' dep mg hmg m hm (Var.mg.inj hid)
      have h₁ := (h.mg_loopDepth hmg).1
      have h₂ := (h.mg_loopDepth hm).1
      omega
    · simp at hid

theorem mem_nextScope_adj (hdep : dep < plan.maxDep) {i : ℕ} :
    .adj i ∈ nextScope plan cfg dep scope ↔ .adj i ∈ scope ∨ i = dep ∧ plan.ReadsAdj cfg i := by
  rw [h.mem_nextScope hdep]
  simp only [Opens, reduceCtorEq, and_false, exists_false, or_false, false_or, Var.adj.injEq]
  refine or_congr_right ?_
  constructor
  · rintro ⟨hread, rfl⟩
    exact ⟨rfl, hread⟩
  · rintro ⟨rfl, hread⟩
    exact ⟨hread, rfl⟩

theorem mem_nextScope_mg (hdep : dep < plan.maxDep) {id : ℤ} :
    .mg id ∈ nextScope plan cfg dep scope ↔ .mg id ∈ scope ∨ ∃ m ∈ plan.mgs dep, id = m.id := by
  rw [h.mem_nextScope hdep]
  simp [Opens]

/-- A list that has been read stays in scope. -/
theorem mem_entryScope_adj (hle : dep + n ≤ plan.maxDep) {i : ℕ} :
    .adj i ∈ entryScope plan cfg scope dep n ↔
      .adj i ∈ scope ∨ dep ≤ i ∧ i < dep + n ∧ plan.ReadsAdj cfg i := by
  induction n generalizing dep scope with
  | zero =>
      rw [entryScope]
      refine (or_iff_left ?_).symm
      omega
  | succ n ih =>
      rw [entryScope, ih (by omega), h.mem_nextScope_adj (by omega), or_assoc]
      refine or_congr_right ⟨?_, ?_⟩
      · rintro (⟨rfl, hread⟩ | ⟨hlow, hhigh, hread⟩)
        · exact ⟨le_rfl, by omega, hread⟩
        · exact ⟨by omega, by omega, hread⟩
      · rintro ⟨hlow, hhigh, hread⟩
        rcases hlow.eq_or_lt with rfl | hlt
        · exact Or.inl ⟨rfl, hread⟩
        · exact Or.inr ⟨hlt, by omega, hread⟩

/-- A mini-graph that has been built stays in scope. -/
theorem mem_entryScope_mg (hle : dep + n ≤ plan.maxDep) {mg : MiniGraphIR}
    (hmg : mg ∈ plan.mgs mg.loopDepth) :
    .mg mg.id ∈ entryScope plan cfg scope dep n ↔
      .mg mg.id ∈ scope ∨ dep ≤ mg.loopDepth ∧ mg.loopDepth < dep + n := by
  induction n generalizing dep scope with
  | zero =>
      rw [entryScope]
      refine (or_iff_left ?_).symm
      omega
  | succ n ih =>
      have hhere : (∃ m ∈ plan.mgs dep, mg.id = m.id) ↔ mg.loopDepth = dep := by
        constructor
        · rintro ⟨m, hm, hid⟩
          rw [h.mg_id _ dep mg hmg m hm hid]
          exact (h.mg_loopDepth hm).1
        · exact fun hdep => ⟨mg, hdep ▸ hmg, rfl⟩
      rw [entryScope, ih (by omega), h.mem_nextScope_mg (by omega), hhere, or_assoc]
      refine or_congr_right ?_
      omega

/-- The nest from a depth on is closed if and only if all its bodies are and each call finds what it
names. -/
theorem closed_nest_iff (hiep : plan.IepFit cfg) (call : ℕ → Option ParCall)
    (hE : EntersAt plan dep scope) (hdep : dep + n = plan.maxDep) :
    ClosedBlock scope (nest plan cfg call n dep) ↔
      (∀ j ≤ n, plan.OpsFit (dep + j) (entryScope plan cfg scope dep j)) ∧
      ∀ j < n, plan.MgsFit (dep + j) (entryScope plan cfg scope dep j) ∧
        (call (dep + j + 1)).toList.flatMap ParCall.reads ⊆
          scopeAfter (entryScope plan cfg scope dep j) (bodyStmts plan cfg (dep + j)) := by
  induction n generalizing dep scope with
  | zero =>
      obtain rfl : dep = plan.maxDep := hdep
      rw [nest, ClosedBlock, h.closed_lastStmts_iff hE hiep]
      constructor
      · intro hfit
        refine ⟨fun j hj => ?_, fun j hj => absurd hj (Nat.not_lt_zero j)⟩
        obtain rfl : j = 0 := by omega
        exact hfit
      · exact fun ⟨hfit, _⟩ => hfit 0 le_rfl
  | succ n ih =>
      have hlt : dep < plan.maxDep := by omega
      have hsize : dep + 1 < plan.pSize := by
        simp only [PlanIR.maxDep] at hlt
        omega
      have hiter : Var.set (plan.iter dep).id ∈ scopeAfter scope (bodyStmts plan cfg dep) :=
        (h.mem_scope_body hlt).mpr (Or.inr (Or.inr (Or.inl ⟨_, h.iter_mem dep hsize, rfl⟩)))
      have hshift : ∀ j, dep + 1 + j = dep + (j + 1) := fun j => by omega
      rw [nest, ClosedBlock, h.closed_bodyStmts_iff hE hlt, and_iff_right hiter]
      rw [show ClosedBlock (.idx (dep + 1) :: scopeAfter scope (bodyStmts plan cfg dep))
        (nest plan cfg call n (dep + 1)) ↔ _ from ih (h.entersAt_next hE hlt) (by omega)]
      simp only [hshift]
      constructor
      · rintro ⟨⟨hops, hmgs⟩, hcall, hrest, hrest'⟩
        refine ⟨fun j hj => ?_, fun j hj => ?_⟩
        · cases j with
          | zero => exact hops
          | succ j => exact hrest j (by omega)
        · cases j with
          | zero => exact ⟨hmgs, hcall⟩
          | succ j => exact hrest' j (by omega)
      · rintro ⟨hops, hbodies⟩
        obtain ⟨hmgs, hcall⟩ := hbodies 0 (Nat.succ_pos n)
        exact ⟨⟨hops 0 (Nat.zero_le _), hmgs⟩, hcall, fun j hj => hops (j + 1) (by omega),
          fun j hj => hbodies (j + 1) (by omega)⟩

theorem mem_mgs_of_parent {child parent : MiniGraphIR}
    (hparent : plan.getParentMgOf child = some parent) : parent ∈ plan.mgs parent.loopDepth := by
  obtain ⟨dep, -, hmem, -⟩ := PlanIR.mem_mgs_of_getParentMgOf hparent
  exact (h.mg_loopDepth hmem).1.symm ▸ hmem

/-- A nest is closed if and only if the plan is in order, the scope has what is taken from outside, and
each call finds what it names. -/
theorem closed_nest_iff_inOrder (hiep : plan.IepFit cfg) (call : ℕ → Option ParCall) {loop : ℕ}
    (hE : EntersAt plan loop scope) (hadj : ∀ i, loop ≤ i → .adj i ∉ scope)
    (hloop : loop + n = plan.maxDep) :
    ClosedBlock scope (nest plan cfg call n loop) ↔
      plan.InOrderFrom cfg loop ∧ plan.Captures loop scope ∧
      ∀ j < n, (call (loop + j + 1)).toList.flatMap ParCall.reads ⊆
        scopeAfter (entryScope plan cfg scope loop j) (bodyStmts plan cfg (loop + j)) := by
  have hread : ∀ j ≤ n, ∀ i < loop + j, .adj i ∈ entryScope plan cfg scope loop j ↔
      if i < loop then .adj i ∈ scope else plan.ReadsAdj cfg i := by
    intro j hj i hi
    rw [h.mem_entryScope_adj (by omega)]
    split_ifs with hlow
    · exact or_iff_left (by omega)
    · rw [or_iff_right (hadj i (not_lt.mp hlow))]
      exact ⟨fun hin => hin.2.2, fun hin => ⟨not_lt.mp hlow, hi, hin⟩⟩
  have hbuilt : ∀ j < n, ∀ mg ∈ plan.mgs mg.loopDepth, mg.loopDepth < loop + j →
      (.mg mg.id ∈ entryScope plan cfg scope loop j ↔
        (mg.loopDepth < loop → .mg mg.id ∈ scope)) := by
    intro j hj mg hmg hlt
    rw [h.mem_entryScope_mg (by omega) hmg]
    by_cases hlow : mg.loopDepth < loop
    · rw [or_iff_left (by omega)]
      exact ⟨fun hin _ => hin, fun hin => hin hlow⟩
    · exact iff_of_true (Or.inr ⟨not_lt.mp hlow, hlt⟩) fun h => absurd h hlow
  rw [h.closed_nest_iff hiep call hE hloop]
  constructor
  · rintro ⟨hops, hbodies⟩
    refine ⟨⟨?_, ?_, ?_⟩, ⟨?_, ?_⟩, fun j hj => (hbodies j hj).2⟩
    · intro dep hlow hhigh
      obtain ⟨j, rfl⟩ := Nat.exists_eq_add_of_le hlow
      exact (hops j (by omega)).sibling
    · intro dep hlow hhigh op hop hnone i hi hlt
      obtain ⟨j, rfl⟩ := Nat.exists_eq_add_of_le hlow
      have hin := (hops j (by omega)).adj op hop hnone i hlt
      rwa [hread j (by omega) i hlt, if_neg (not_lt.mpr hi)] at hin
    · intro dep hlow hhigh
      obtain ⟨j, rfl⟩ := Nat.exists_eq_add_of_le hlow
      exact (hbodies j (by omega)).1.here
    · intro dep hlow hhigh op hop hnone i hi
      obtain ⟨j, rfl⟩ := Nat.exists_eq_add_of_le hlow
      have hin := (hops j (by omega)).adj op hop hnone i (by omega)
      rwa [hread j (by omega) i (by omega), if_pos hi] at hin
    · intro dep hlow hhigh mg hmg parent hp hlt
      obtain ⟨j, rfl⟩ := Nat.exists_eq_add_of_le hlow
      have hin := (hbodies j (by omega)).1.outer mg hmg parent hp (by omega)
      exact (hbuilt j (by omega) parent (h.mem_mgs_of_parent hp) (by omega)).mp hin hlt
  · rintro ⟨horder, hcaptures, hcalls⟩
    refine ⟨fun j hj => ⟨horder.sibling _ (by omega) (by omega), ?_⟩,
      fun j hj => ⟨⟨horder.mg _ (by omega) (by omega), ?_⟩, hcalls j hj⟩⟩
    · intro op hop hnone i hi
      rw [hread j hj i hi]
      split_ifs with hlow
      · exact hcaptures.adj _ (by omega) (by omega) op hop hnone i hlow
      · exact horder.adj _ (by omega) (by omega) op hop hnone i (not_lt.mp hlow) hi
    · intro mg hmg parent hp hlt
      exact (hbuilt j hj parent (h.mem_mgs_of_parent hp) hlt).mpr fun hlow =>
        hcaptures.mg _ (by omega) (by omega) mg hmg parent hp hlow

/-! ### The sequential program -/

theorem lastDep_eq {sc : Schedule} (hfields : plan.HasIepFields sc cfg.adjMatType) :
    lastDep plan cfg = plan.maxDep := by
  simp only [lastDep, usesIep, PlanIR.maxDep, Bool.and_eq_true, decide_eq_true_eq]
  have hsize := h.three_le
  split_ifs with huses
  · rw [hfields.depth huses.1]
    omega
  · by_cases ht : cfg.adjMatType = .edgeInducedIEP
    · have : ¬ 1 < plan.iepNum := fun hnum => huses ⟨ht, hnum⟩
      omega
    · have := hfields.off ht
      omega

theorem iepFit {sc : Schedule} (hfields : plan.HasIepFields sc cfg.adjMatType)
    (hgroups : ∀ group ∈ sc.inExclusionOptimizeGroup, ∀ set ∈ group, ∀ i ∈ set,
      i < sc.inExclusionOptimizeNum) : plan.IepFit cfg := by
  intro huses
  simp only [usesIep, Bool.and_eq_true, decide_eq_true_eq] at huses
  obtain ⟨ht, hnum⟩ := huses
  have hsize := h.three_le
  have hdepth : plan.maxDep = plan.iepDepth := by
    rw [hfields.depth ht, PlanIR.maxDep]
    omega
  refine ⟨by rw [hdepth, hfields.depth ht]; omega, fun i hi => ?_⟩
  obtain ⟨hlength, hsets⟩ := hfields.sets ht hnum
  have hlt : i < plan.iepSet.length := by
    rw [hlength]
    rcases hi with rfl | ⟨group, hgroup, set, hset, hi⟩
    · omega
    · rw [hfields.num ht]
      exact hgroups group (hfields.groups ht ▸ hgroup) set hset i hi
  rw [hdepth, List.getD_eq_getElem _ _ hlt]
  exact hsets _ (List.getElem_mem hlt)

omit h in
theorem entersAt_zero : EntersAt plan 0 [.id 0] := by
  constructor <;> simp

/-- Nothing is outside of the outermost loop. -/
theorem closed_omp_iff {sc : Schedule} (hfields : plan.HasIepFields sc cfg.adjMatType)
    (hiep : plan.IepFit cfg) :
    (∃ prog, genCodeOmp plan cfg = .ok prog ∧ prog.Closed) ↔ plan.InOrderFrom cfg 0 := by
  have hcaptures : plan.Captures 0 [.id 0] := by
    constructor
    · intro dep _ _ op _ _ i hi
      omega
    · intro dep _ _ mg _ parent _ hlt
      omega
  have hclosed := h.closed_nest_iff_inOrder hiep (fun _ => none) entersAt_zero
    (n := plan.maxDep) (by simp) (by omega)
  simp only [Option.toList, List.flatMap_nil, List.nil_subset, implies_true, and_true,
    hcaptures] at hclosed
  simp only [h.genCodeOmp_eq, Except.ok.injEq, exists_eq_left', OmpProgram.Closed,
    h.lastDep_eq hfields]
  exact hclosed

end PlannedMgs

end GraphMini
