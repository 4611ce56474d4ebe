import GraphMini.Codegen.Derivation
import GraphMini.Exec.Candidate
import GraphMini.Exec.Machine

/-!
# What the emitted expressions denote

The expression of an operation, evaluated where its parent and the adjacency lists are in scope,
denotes the operation. The counting form of an expression is the size of its set.
-/

namespace GraphMini

open VertexSetIR

/-- The placed vertices are in scope with their adjacency lists, and the operations of `done` with
the sets they denote. -/
structure Ready (t : AdjMatType) (g : Graph) (placed : List ℕ) (done : List VertexSetIR)
    (env : Env) : Prop where
  lt : ∀ i < placed.length, placed.getD i 0 < g.numVertex
  id : ∀ i < placed.length, env (.id i) = some (placed.getD i 0 : ℕ)
  adj : ∀ i < placed.length, env (.adj i) = some (g.N (placed.getD i 0))
  set : ∀ op ∈ done, ∃ s, env (.set op.id) = some s ∧ Denotes t g placed op s

section Eval

variable {env : Env} {t : AdjMatType} {g : Graph} {op : VertexSetIR} {s : VertexSet} {y i : ℕ}

/-- The upper bound of an operation keeps what its restriction asks for. -/
theorem not_reaches_iff (x : ℕ) :
    (!reaches (if op.isRestricted i then some y else none) x) = true
      ↔ (i ∈ op.restricts → x < y) := by
  by_cases hi : i ∈ op.restricts <;> simp [isRestricted, hi, reaches]

theorem evalUpper_adjVid (op : VertexSetIR) (hadj : env (.adj i) = some (g.N y)) :
    evalUpper env (if op.isRestricted i then some (.adjVid i) else none)
      = some (if op.isRestricted i then some y else none) := by
  cases hres : op.isRestricted i <;> simp [evalUpper, evalId, hadj]

/-- `prefixExpr` keeps what fits the vertex of the operation's own depth, and `prefixCnt` counts
it. -/
theorem evalSet_prefixExpr (t : AdjMatType) (op : VertexSetIR) {parentId : ℤ} (hs : env (.set parentId) = some s)
    (hsorted : s.data.SortedLT) (hg : g.Valid) (hy : y < g.numVertex)
    (hadj : env (.adj op.loopDepth) = some (g.N y)) :
    ∃ s' p, evalSet env (prefixExpr t op parentId) = some s'
      ∧ evalCnt env (prefixCnt t op parentId) = some s'.size ∧ s'.data = s.data.filter p
      ∧ ∀ x, p x = true ↔ Fits t g op.edges op.restricts op.loopDepth y x := by
  have hN : (g.N y).data.SortedLT := hg.sorted y hy
  have hupper := evalUpper_adjVid op hadj
  have hvid : evalId env (.adjVid op.loopDepth) = some y := by simp [evalId, hadj]
  by_cases hedge : op.loopDepth ∈ op.edges
  · set upper := if op.isRestricted op.loopDepth then some y else none with hup
    refine ⟨s.intersect (g.N y) upper, _, ?_, ?_, VertexSet.intersect_data hsorted hN upper, ?_⟩
    · simp [prefixExpr, isEdge, hedge, evalSet, hs, hadj, upperBound, hupper]
    · simp [prefixCnt, isEdge, hedge, evalCnt, evalSet, hs, hadj, upperBound, hupper,
        VertexSet.intersectCnt_eq]
    · intro x
      rw [fits_edge_iff hg hy hedge, Bool.and_eq_true, decide_eq_true_eq, hup, not_reaches_iff]
      rfl
  · by_cases ht : t = .vertexInduced
    · set upper := if op.isRestricted op.loopDepth then some y else none with hup
      refine ⟨s.subtract (g.N y) upper, _, ?_, ?_, VertexSet.subtract_data hsorted hN upper, ?_⟩
      · simp [prefixExpr, isEdge, hedge, ht, evalSet, hs, hadj, upperBound, hupper]
      · simp [prefixCnt, isEdge, hedge, ht, evalCnt, evalSet, hs, hadj, upperBound, hupper,
          VertexSet.subtractCnt_eq]
      · intro x
        rw [fits_nonEdge_iff hedge, Bool.and_eq_true, Bool.and_eq_true, decide_eq_true_eq,
          decide_eq_true_eq, hup, not_reaches_iff, Graph.N_vid, Graph.mem_N]
        tauto
    · by_cases hres : op.loopDepth ∈ op.restricts
      · refine ⟨s.bounded y, _, ?_, ?_, VertexSet.bounded_data hsorted y, fun x => ?_⟩
        · simp [prefixExpr, isEdge, isRestricted, hedge, ht, hres, evalSet, hs, hvid]
        · simp [prefixCnt, isEdge, isRestricted, hedge, ht, hres, evalCnt, evalSet, hs, hvid,
            VertexSet.boundedCnt_eq hsorted]
        · rw [fits_nonEdge_iff hedge, decide_eq_true_eq]
          exact ⟨fun hlt => ⟨hlt.ne, fun hvi => absurd hvi ht, fun _ => hlt⟩,
            fun hfits => hfits.2.2 hres⟩
      · refine ⟨s.remove y, _, ?_, ?_, VertexSet.remove_data hsorted y, fun x => ?_⟩
        · simp [prefixExpr, isEdge, isRestricted, hedge, ht, hres, evalSet, hs, hvid]
        · simp [prefixCnt, isEdge, isRestricted, hedge, ht, hres, evalCnt, evalSet, hs, hvid,
            VertexSet.removeCnt_eq hsorted]
        · rw [fits_nonEdge_iff hedge, decide_eq_true_eq]
          exact ⟨fun hne => ⟨hne, fun hvi => absurd hvi ht, fun hmem => absurd hmem hres⟩,
            fun hfits => hfits.1⟩

/-- One link of the chain keeps what fits one earlier vertex. -/
theorem evalSet_chainLink (t : AdjMatType) (op : VertexSetIR) {e : SetExpr} (hs : evalSet env e = some s)
    (hsorted : s.data.SortedLT)
    (hg : g.Valid) (hy : y < g.numVertex) (hadj : env (.adj i) = some (g.N y))
    (hedge : i ∉ op.edges) :
    ∃ s' p, evalSet env (chainLink t op e i) = some s' ∧ s'.data = s.data.filter p
      ∧ ∀ x, p x = true ↔ Fits t g op.edges op.restricts i y x := by
  have hN : (g.N y).data.SortedLT := hg.sorted y hy
  have hvid : evalId env (.adjVid i) = some y := by simp [evalId, hadj]
  by_cases ht : t = .vertexInduced
  · refine ⟨s.subtract (g.N y) (if op.isRestricted i then some y else none), _, ?_,
      VertexSet.subtract_data hsorted hN _, fun x => ?_⟩
    · simp [chainLink, ht, evalSet, hs, hadj, evalUpper_adjVid op hadj]
    · rw [fits_nonEdge_iff hedge, Bool.and_eq_true, Bool.and_eq_true, decide_eq_true_eq,
        decide_eq_true_eq, not_reaches_iff, Graph.N_vid, Graph.mem_N]
      tauto
  · by_cases hres : i ∈ op.restricts
    · refine ⟨s.bounded y, _, ?_, VertexSet.bounded_data hsorted y, fun x => ?_⟩
      · simp [chainLink, isRestricted, ht, hres, evalSet, hs, hvid]
      · rw [fits_nonEdge_iff hedge, decide_eq_true_eq]
        exact ⟨fun hlt => ⟨hlt.ne, fun hvi => absurd hvi ht, fun _ => hlt⟩,
          fun hfits => hfits.2.2 hres⟩
    · refine ⟨s.remove y, _, ?_, VertexSet.remove_data hsorted y, fun x => ?_⟩
      · simp [chainLink, isRestricted, ht, hres, evalSet, hs, hvid]
      · rw [fits_nonEdge_iff hedge, decide_eq_true_eq]
        exact ⟨fun hne => ⟨hne, fun hvi => absurd hvi ht, fun hmem => absurd hmem hres⟩,
          fun hfits => hfits.1⟩

end Eval

end GraphMini
