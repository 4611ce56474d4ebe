import GraphMini.Codegen.BodyScope
import GraphMini.Exec.NestRun
import GraphMini.Lib.InclusionExclusion

/-!
# The inclusion-exclusion counts

A factor of a group is the number of common members of the sets of its block, whether the block has one
set, two sets, two equal sets or more. The statements of all groups add up what the values and the
groups ask for.
-/

namespace GraphMini

open VertexSetIR InclusionExclusion

/-- The vertices that a set of the plan stands for. -/
def fitting (t : AdjMatType) (g : Graph) (placed : List ℕ) (op : VertexSetIR) : Finset ℕ :=
  {x ∈ Finset.range g.numVertex | Candidate t g op.edges op.restricts placed (op.loopDepth + 1) x}

/-- The set of an inclusion-exclusion vertex. -/
abbrev PlanIR.iepVertex (plan : PlanIR) (i : ℕ) : VertexSetIR := plan.iepSet.getD i {}

/-- What the inclusion-exclusion counts add. -/
def iepAmount (plan : PlanIR) (t : AdjMatType) (g : Graph) (placed : List ℕ) : ℤ :=
  amount (fun i => fitting t g placed (plan.iepVertex i)) plan.iepVals plan.iepGroups

/-- The sets that the counts of the innermost body name are sets of its depth, and every set of its depth
is the same as one in a block of every group. -/
structure PlanIR.IepCounts (plan : PlanIR) (cfg : CodeGenConfig) : Prop where
  fit : plan.IepFit cfg
  covers : usesIep plan cfg = true → ∀ op ∈ plan.ops plan.maxDep, ∀ group ∈ plan.iepGroups,
    ∃ block ∈ group, ∃ i ∈ block, (plan.iepVertex i).same op = true

/-- The set is at hand. -/
def AtHand (t : AdjMatType) (g : Graph) (placed : List ℕ) (env : Env) (op : VertexSetIR) : Prop :=
  ∃ s : VertexSet, env (.set op.id) = some s ∧ Denotes t g placed op s

section

variable {t : AdjMatType} {g : Graph} {placed : List ℕ} {env : Env} {plan : PlanIR} {op : VertexSetIR}
  {s : VertexSet}

theorem mem_fitting {x : ℕ} :
    x ∈ fitting t g placed op ↔
      Candidate t g op.edges op.restricts placed (op.loopDepth + 1) x := by
  rw [fitting, Finset.mem_filter, Finset.mem_range]
  exact and_iff_right_of_imp fun h => h.1

theorem fitting_congr {op' : VertexSetIR} (h : op.same op' = true) :
    fitting t g placed op = fitting t g placed op' := by
  obtain ⟨he, hr, hdepth⟩ := same_iff.mp h
  ext x
  rw [mem_fitting, mem_fitting, he, hr, hdepth]

theorem Denotes.mem_iff_fitting (h : Denotes t g placed op s) (x : ℕ) :
    x ∈ s.data ↔ x ∈ fitting t g placed op :=
  (h.2 x).trans mem_fitting.symm

/-- A list without repetitions has as many members as its set. -/
theorem size_eq_card {S : Finset ℕ} (hs : s.data.SortedLT) (hmem : ∀ x, x ∈ s.data ↔ x ∈ S) :
    s.size = S.card := by
  have hset : s.data.toFinset = S := by
    ext x
    rw [List.mem_toFinset, hmem]
  rw [← hset, List.toFinset_card_of_nodup hs.nodup, VertexSet.size]

/-- Where a set is empty nothing is added. -/
theorem iepAmount_eq_zero {cfg : CodeGenConfig} (hcounts : plan.IepCounts cfg) (huses : usesIep plan cfg = true)
    (hop : op ∈ plan.ops plan.maxDep) (hnone : fitting t g placed op = ∅) : iepAmount plan t g placed = 0 := by
  rw [iepAmount, amount]
  apply List.sum_eq_zero
  intro summand hsummand
  obtain ⟨id, hid, rfl⟩ := List.mem_map.mp hsummand
  have hgroup : plan.iepGroups.getD id [] ∈ plan.iepGroups := by
    rw [List.getD_eq_getElem _ _ (List.mem_range.mp hid)]
    exact List.getElem_mem _
  obtain ⟨block, hblock, i, hi, hsame⟩ := hcounts.covers huses op hop _ hgroup
  have hzero : blockSize (fun i => fitting t g placed (plan.iepVertex i)) block = 0 := by
    rw [blockSize, Finset.card_eq_zero]
    refine Finset.eq_empty_of_forall_notMem fun x hx => ?_
    have hin : x ∈ fitting t g placed (plan.iepVertex i) := (Finset.mem_filter.mp hx).2 i hi
    rw [fitting_congr hsame, hnone] at hin
    exact Finset.notMem_empty x hin
  rw [List.prod_eq_zero (List.mem_map.mpr ⟨block, hblock, by rw [hzero, Nat.cast_zero]⟩), mul_zero]

/-- Intersecting with the sets of further vertices. -/
theorem evalSet_intersections {value : SetExpr} (hs : evalSet env value = some s) (hsorted : s.data.SortedLT)
    {js : List ℕ} (hjs : ∀ j ∈ js, AtHand t g placed env (plan.iepVertex j)) :
    ∃ s', evalSet env (js.foldl (fun value j => .intersect value (.set (plan.iepVertex j).id) none) value)
        = some s' ∧ s'.data.SortedLT ∧
      ∀ x, x ∈ s'.data ↔ x ∈ s.data ∧ ∀ j ∈ js, x ∈ fitting t g placed (plan.iepVertex j) := by
  induction js generalizing value s with
  | nil => exact ⟨s, hs, hsorted, by simp⟩
  | cons j js ih =>
      obtain ⟨u, hu, hdenotes⟩ := hjs j List.mem_cons_self
      have hdata := VertexSet.intersect_data hsorted hdenotes.1 none
      have heval : evalSet env (.intersect value (.set (plan.iepVertex j).id) none)
          = some (s.intersect u none) := by
        simp [evalSet, evalUpper, hs, hu]
      obtain ⟨s', heval', hsorted', hmem⟩ := ih heval (hdata ▸ SortedList.filter hsorted _)
        fun i hi => hjs i (List.mem_cons_of_mem _ hi)
      refine ⟨s', heval', hsorted', fun x => ?_⟩
      rw [hmem, hdata, List.mem_filter]
      simp only [reaches, Bool.not_false, Bool.and_true, decide_eq_true_eq, hdenotes.mem_iff_fitting,
        List.forall_mem_cons, and_assoc]

/-- A list of the common members of a block has the size of the block. -/
theorem size_eq_blockSize {block : List ℕ} (hs : s.data.SortedLT)
    (hmem : ∀ x, x ∈ s.data ↔ x ∈ fitting t g placed (plan.iepVertex (block.headD 0)) ∧
      ∀ i ∈ block, x ∈ fitting t g placed (plan.iepVertex i)) :
    s.size = blockSize (fun i => fitting t g placed (plan.iepVertex i)) block :=
  size_eq_card hs fun x => by rw [hmem, Finset.mem_filter]

/-- A block of two sets or more. -/
theorem evalCnt_intersections {i : ℕ} {rest : List ℕ} (hrest : rest ≠ [])
    (hsets : ∀ j ∈ i :: rest, AtHand t g placed env (plan.iepVertex j)) :
    evalCnt env (.intersectCnt
        (rest.dropLast.foldl (fun value j => .intersect value (.set (plan.iepVertex j).id) none)
          (.set (plan.iepVertex i).id))
        (.set (plan.iepVertex (rest.getLastD i)).id) none)
      = some (blockSize (fun j => fitting t g placed (plan.iepVertex j)) (i :: rest)) := by
  have hsplit : rest.dropLast ++ [rest.getLastD i] = rest := by
    rw [List.getLastD_eq_getLast?, List.getLast?_eq_some_getLast hrest, Option.getD_some,
      List.dropLast_append_getLast]
  obtain ⟨s, hs, hdenotes⟩ := hsets i List.mem_cons_self
  obtain ⟨u, hu, hlast⟩ := hsets (rest.getLastD i) List.getLastD_mem_cons
  have hs' : evalSet env (.set (plan.iepVertex i).id) = some s := hs
  obtain ⟨s', heval, hsorted, hmem⟩ := evalSet_intersections hs' hdenotes.1
    fun j hj => hsets j (List.mem_cons_of_mem _ (List.mem_of_mem_dropLast hj))
  have hdata := VertexSet.intersect_data hsorted hlast.1 none
  have hcnt : evalCnt env (.intersectCnt
      (rest.dropLast.foldl (fun value j => .intersect value (.set (plan.iepVertex j).id) none)
        (.set (plan.iepVertex i).id))
      (.set (plan.iepVertex (rest.getLastD i)).id) none) = some (s'.intersect u none).size := by
    simp only [evalCnt, heval, evalSet, hu, evalUpper, VertexSet.intersectCnt_eq, Option.bind_eq_bind,
      Option.bind_some]
    rfl
  rw [hcnt, size_eq_blockSize (hdata ▸ SortedList.filter hsorted _)]
  intro x
  rw [hdata, List.mem_filter, hmem]
  simp only [reaches, Bool.not_false, Bool.and_true, decide_eq_true_eq, hdenotes.mem_iff_fitting,
    hlast.mem_iff_fitting, List.headD_cons, List.forall_mem_cons]
  have hall : (∀ j ∈ rest, x ∈ fitting t g placed (plan.iepVertex j)) ↔
      (∀ j ∈ rest.dropLast, x ∈ fitting t g placed (plan.iepVertex j)) ∧
        x ∈ fitting t g placed (plan.iepVertex (rest.getLastD i)) := by
    conv_lhs => rw [← hsplit]
    simp only [List.forall_mem_append, List.forall_mem_singleton]
  rw [hall]
  tauto

/-- A factor is the size of its block. -/
theorem evalCnt_iepFactor {block : List ℕ}
    (hsets : ∀ i ∈ block.headD 0 :: block, AtHand t g placed env (plan.iepVertex i)) :
    evalCnt env (iepFactor plan block)
      = some (blockSize (fun i => fitting t g placed (plan.iepVertex i)) block) := by
  have hall : ∀ i ∈ block, AtHand t g placed env (plan.iepVertex i) :=
    fun i hi => hsets i (List.mem_cons_of_mem _ hi)
  obtain ⟨s, hs, hdenotes⟩ := hsets (block.headD 0) List.mem_cons_self
  have hone : evalCnt env (.size (.set (plan.iepVertex (block.headD 0)).id)) = some s.size := by
    simp only [evalCnt, evalSet, hs]
    rfl
  rcases block with _ | ⟨i, _ | ⟨j, _ | ⟨l, rest⟩⟩⟩
  · rw [← size_eq_blockSize hdenotes.1 fun x => by simp [hdenotes.mem_iff_fitting]]
    exact hone
  · rw [← size_eq_blockSize hdenotes.1 fun x => by simp [hdenotes.mem_iff_fitting]]
    exact hone
  · rw [iepFactor]
    by_cases hsame : (plan.iepVertex i).same (plan.iepVertex j) = true
    · -- two equal sets have the members of one
      rw [if_pos hsame, ← size_eq_blockSize hdenotes.1 fun x => ?_]
      · exact hone
      · have hj : x ∈ s.data ↔ x ∈ fitting t g placed (plan.iepVertex j) :=
          (hdenotes.congr hsame).mem_iff_fitting x
        have hi : x ∈ s.data ↔ x ∈ fitting t g placed (plan.iepVertex i) :=
          hdenotes.mem_iff_fitting x
        simp only [List.headD_cons, List.forall_mem_cons, ← hi, ← hj]
        simp
    · rw [if_neg hsame]
      exact evalCnt_intersections (by simp) hall
  · exact evalCnt_intersections (by simp) hall

/-- The statement of a group adds its value times the sizes of its blocks. -/
theorem execStmt_genCodeIep {M : MgMachine} {path : List ℕ} {f : Frame M} (groupId : ℕ)
    (hsets : ∀ block ∈ plan.iepGroups.getD groupId [], ∀ i ∈ block.headD 0 :: block,
      AtHand t g placed f.env (plan.iepVertex i)) :
    execStmt g path f (genCodeIep plan groupId) = some (.next, { f with
      counter := f.counter + plan.iepVals.getD groupId 0 * ((plan.iepGroups.getD groupId []).map fun block =>
        (blockSize (fun i => fitting t g placed (plan.iepVertex i)) block : ℤ)).prod }) := by
  have hfactors : ((plan.iepGroups.getD groupId []).map (iepFactor plan)).mapM (evalCnt f.env)
      = some ((plan.iepGroups.getD groupId []).map fun block =>
        blockSize (fun i => fitting t g placed (plan.iepVertex i)) block) := by
    rw [List.mapM_map]
    exact Loop.mapM_some fun block hblock => evalCnt_iepFactor (hsets block hblock)
  rw [genCodeIep, execStmt, hfactors, Option.bind_eq_bind, Option.bind_some, List.map_map]
  rfl

/-- The statements of all groups. -/
theorem execStmts_iep {M : MgMachine} {path : List ℕ} {f : Frame M}
    (hsets : ∀ i, (i = 0 ∨ ∃ group ∈ plan.iepGroups, ∃ block ∈ group, i ∈ block) →
      AtHand t g placed f.env (plan.iepVertex i)) :
    execStmts g path ((List.range plan.iepGroups.length).map (genCodeIep plan)) f
      = some (.next, { f with counter := f.counter + iepAmount plan t g placed }) := by
  have hall : ∀ (ids : List ℕ) (f' : Frame M), f'.env = f.env → (∀ id ∈ ids, id < plan.iepGroups.length) →
      execStmts g path (ids.map (genCodeIep plan)) f' = some (.next, { f' with
        counter := f'.counter + (ids.map fun id => plan.iepVals.getD id 0
          * ((plan.iepGroups.getD id []).map fun block =>
            (blockSize (fun i => fitting t g placed (plan.iepVertex i)) block : ℤ)).prod).sum }) := by
    intro ids
    induction ids with
    | nil =>
        intro f' _ _
        simp [execStmts]
    | cons id ids ih =>
        intro f' henv hids
        have hlt := hids id List.mem_cons_self
        have hgroup : plan.iepGroups.getD id [] ∈ plan.iepGroups := by
          rw [List.getD_eq_getElem _ _ hlt]
          exact List.getElem_mem hlt
        have hblocks : ∀ block ∈ plan.iepGroups.getD id [], ∀ i ∈ block.headD 0 :: block,
            AtHand t g placed f'.env (plan.iepVertex i) := by
          intro block hblock i hi
          rw [henv]
          apply hsets i
          cases block with
          | nil => exact Or.inl (by simpa using hi)
          | cons j rest => exact Or.inr ⟨_, hgroup, _, hblock, by simpa using hi⟩
        have hstmt : execStmt g path f' (genCodeIep plan id) = _ := execStmt_genCodeIep id hblocks
        rw [List.map_cons, execStmts_cons hstmt, ih _ ?_ fun id' hid' => hids id' (List.mem_cons_of_mem _ hid')]
        · simp [add_assoc]
        · exact henv
  exact hall _ f rfl fun id hid => List.mem_range.mp hid

end

end GraphMini
