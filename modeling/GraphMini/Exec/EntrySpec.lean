import GraphMini.Backend.MiniGraphSpec
import GraphMini.Codegen.Emission
import GraphMini.Exec.OpSpec
import GraphMini.Exec.Reuse

/-!
# What the lists read from mini-graphs denote

The list that a mini-graph answers with lies between the pruned list and the whole adjacency list. An
operation on a set within the intersect part cannot tell it from the adjacency list, as long as a list
that is cut below its vertex is read by operations that are restricted there. The list itself is a set
of the plan where it is pruned.
-/

namespace GraphMini

open VertexSetIR

/-- The list that is read from a mini-graph for the vertex `y`, cut below `y` if `bounded`. -/
structure PrunedList (t : AdjMatType) (g : Graph) (placed : List ℕ) (intersect : VertexSetIR) (bounded : Bool)
    (y : ℕ) (s : VertexSet) : Prop where
  vid : s.vid = y
  sorted : s.data.SortedLT
  adj : ∀ x ∈ s.data, g.Adj y x
  covers : ∀ x, Candidate t g intersect.edges intersect.restricts placed (intersect.loopDepth + 1) x →
    g.Adj y x → (bounded = true → x < y) → x ∈ s.data

section

variable {t : AdjMatType} {g : Graph} {placed : List ℕ} {env : Env} {op u intersect : VertexSetIR}
  {bounded : Bool} {s e : VertexSet} {y : ℕ} {parentId mgId : ℤ}

/-- An answer is such a list. -/
theorem Answers.prunedList {req : BuildRequest} (h : Answers g req y s) (hg : g.Valid) (hy : y < g.numVertex)
    (hint : Denotes t g placed intersect req.intersect) : PrunedList t g placed intersect req.bounded y s where
  vid := h.vid
  sorted := SortedList.sublist (hg.sorted y hy) h.sublist_adj
  adj _ hx := h.sublist_adj.subset hx
  covers x hx hadj hlt :=
    h.exact_sublist.subset (BuildRequest.mem_exact.mpr ⟨(hint.2 x).mpr hx, hadj, hlt⟩)

theorem evalUpper_mgAdjVid (op : VertexSetIR) (hadj : env (.mgAdj mgId) = some e) :
    evalUpper env (upperBound op (.mgAdjVid mgId))
      = some (if op.isRestricted op.loopDepth then some e.vid else none) := by
  rw [upperBound]
  cases hres : op.isRestricted op.loopDepth <;> simp [evalUpper, evalId, hadj]

/-- `mgExpr` keeps what fits the vertex of the operation's own depth, and `mgCnt` counts it. -/
theorem evalSet_mgExpr (hs : env (.set parentId) = some s) (hsorted : s.data.SortedLT)
    (hadj : env (.mgAdj mgId) = some e) (he : PrunedList t g placed intersect bounded y e)
    (hsub : ∀ x ∈ s.data,
      Candidate t g intersect.edges intersect.restricts placed (intersect.loopDepth + 1) x)
    (hbounded : bounded = true → op.loopDepth ∈ op.restricts)
    (hedge : op.loopDepth ∈ op.edges ∨ t = .vertexInduced) (hg : g.Valid) (hy : y < g.numVertex) :
    ∃ s' p, evalSet env (mgExpr op parentId mgId) = some s'
      ∧ evalCnt env (mgCnt op parentId mgId) = some s'.size ∧ s'.data = s.data.filter p
      ∧ ∀ x ∈ s.data, p x = true ↔ Fits t g op.edges op.restricts op.loopDepth y x := by
  have hupper := evalUpper_mgAdjVid op hadj
  rw [he.vid] at hupper
  -- on the parent set, the list and the adjacency list are the same below the bound
  have hmem : ∀ x ∈ s.data, (op.loopDepth ∈ op.restricts → x < y) → (x ∈ e.data ↔ g.Adj y x) :=
    fun x hx hlt => ⟨he.adj x, fun hadj => he.covers x (hsub x hx) hadj fun hb => hlt (hbounded hb)⟩
  set upper := if op.isRestricted op.loopDepth then some y else none with hup
  by_cases hin : op.loopDepth ∈ op.edges
  · refine ⟨s.intersect e upper, _, ?_, ?_, VertexSet.intersect_data hsorted he.sorted upper, ?_⟩
    · simp [mgExpr, isEdge, hin, evalSet, hs, hadj, hupper]
    · simp [mgCnt, isEdge, hin, evalCnt, evalSet, hs, hadj, hupper, VertexSet.intersectCnt_eq]
    · intro x hx
      rw [fits_edge_iff hg hy hin, Bool.and_eq_true, decide_eq_true_eq, hup, not_reaches_iff]
      exact and_congr_left fun hlt => hmem x hx hlt
  · have ht : t = .vertexInduced := hedge.resolve_left hin
    refine ⟨s.subtract e upper, _, ?_, ?_, VertexSet.subtract_data hsorted he.sorted upper, ?_⟩
    · simp [mgExpr, isEdge, hin, evalSet, hs, hadj, hupper]
    · simp [mgCnt, isEdge, hin, evalCnt, evalSet, hs, hadj, hupper, VertexSet.subtractCnt_eq]
    · intro x hx
      rw [fits_nonEdge_iff hin, Bool.and_eq_true, Bool.and_eq_true, decide_eq_true_eq,
        decide_eq_true_eq, hup, not_reaches_iff, he.vid]
      constructor
      · rintro ⟨⟨hnot, hne⟩, hlt⟩
        exact ⟨hne, fun _ hadj => hnot ((hmem x hx hlt).mpr hadj), hlt⟩
      · rintro ⟨hne, hnot, hlt⟩
        exact ⟨⟨fun hxe => hnot ht ((hmem x hx hlt).mp hxe), hne⟩, hlt⟩

/-- A set that is filtered from its sibling by the condition of its own depth. -/
theorem Denotes.of_sibling_filter (h : Denotes t g placed u s) (hsame : u.same op.unrestricted = true)
    (hmem : op.loopDepth ∈ op.restricts) {s' : VertexSet} {p : ℕ → Bool}
    (hdata : s'.data = s.data.filter p)
    (hp : ∀ x ∈ s.data,
      (p x = true ↔ Fits t g op.edges op.restricts op.loopDepth (placed.getD op.loopDepth 0) x)) :
    Denotes t g placed op s' := by
  apply h.of_sibling hsame hmem
  rw [hdata]
  apply List.filter_congr
  intro x hx
  have hfits := ((h.congr hsame).2 x).mp hx
  rw [show op.unrestricted.loopDepth = op.loopDepth from rfl, candidate_succ_iff] at hfits
  obtain ⟨-, hne, hadj, hnot, -⟩ := hfits
  rw [Bool.eq_iff_iff, hp x hx, decide_eq_true_eq]
  exact ⟨fun hall => hall.2.2.2 hmem, fun hlt => ⟨hne, hadj, hnot, fun _ => hlt⟩⟩

/-- The set that an entry of a mini-graph is. -/
theorem Denotes.of_entry {mg : MiniGraphIR} {iter : VertexSetIR} (hg : g.Valid)
    (hcomputed : mg.computed t iter op = true) (hmg : mg.intersect.Bounded) (hop : op.Bounded)
    (hy : placed.getD op.loopDepth 0 < g.numVertex) (hsorted : s.data.SortedLT)
    (hmem : ∀ x, x ∈ s.data ↔
      Candidate t g mg.intersect.edges mg.intersect.restricts placed (mg.intersect.loopDepth + 1) x ∧
        g.Adj (placed.getD op.loopDepth 0) x ∧
        (op.loopDepth ∈ op.restricts → x < placed.getD op.loopDepth 0)) :
    Denotes t g placed op s := by
  obtain ⟨-, hdep, -, hbits⟩ := computed_iff.mp hcomputed
  have hedge := mem_edges_of_computed hmg hop hcomputed
  refine ⟨hsorted, fun x => ?_⟩
  have hlast : Candidate t g op.edges op.restricts placed (op.loopDepth + 1) x ↔
      Candidate t g op.edges op.restricts placed op.loopDepth x ∧
        g.Adj (placed.getD op.loopDepth 0) x ∧
        (op.loopDepth ∈ op.restricts → x < placed.getD op.loopDepth 0) := by
    rw [candidate_succ_iff, fits_edge_iff hg hy hedge]
  rw [hmem, hlast, hdep]
  refine and_congr_left fun _ => candidate_congr (fun i hi => ?_) (fun i hi => ?_) fun _ _ => rfl
  · exact (hbits i (by omega)).1
  · exact (hbits i (by omega)).2

/-- `entryExpr` reads the set off the mini-graph. -/
theorem evalSet_entryExpr {req : BuildRequest} {mg : MiniGraphIR} {iter : VertexSetIR} (hg : g.Valid)
    (hcomputed : mg.computed t iter op = true) (hmg : mg.intersect.Bounded) (hop : op.Bounded)
    (hy : y < g.numVertex) (hplaced : placed.getD op.loopDepth 0 = y)
    (hid : env (.id op.loopDepth) = some (y : ℕ)) (hadj : env (.mgAdj mg.id) = some e)
    (he : Answers g req y e) (hprecise : req.Precise y)
    (hint : Denotes t g placed mg.intersect req.intersect)
    (hbounded : req.bounded = true → op.loopDepth ∈ op.restricts) :
    ∃ s, evalSet env (entryExpr op mg.id) = some s ∧ Denotes t g placed op s := by
  have hexact := he.eq_exact hprecise
  have hsorted : e.data.SortedLT := SortedList.sublist (hg.sorted y hy) he.sublist_adj
  have hmem : ∀ x, x ∈ e.data ↔
      Candidate t g mg.intersect.edges mg.intersect.restricts placed (mg.intersect.loopDepth + 1) x ∧
        g.Adj y x ∧ (req.bounded = true → x < y) := by
    intro x
    rw [hexact, BuildRequest.mem_exact, hint.2 x]
  by_cases hres : op.loopDepth ∈ op.restricts
  · refine ⟨e.bounded y, ?_, ?_⟩
    · simp [entryExpr, isRestricted, hres, evalSet, evalId, hadj, hid]
    · apply Denotes.of_entry hg hcomputed hmg hop (hplaced ▸ hy)
      · rw [VertexSet.bounded_data hsorted]
        exact SortedList.filter hsorted _
      · intro x
        rw [VertexSet.bounded_data hsorted, List.mem_filter, decide_eq_true_eq, hmem, hplaced]
        simp only [hres, forall_true_left, and_assoc]
        refine and_congr_right fun _ => and_congr_right fun _ => ?_
        exact ⟨fun h => h.2, fun h => ⟨fun _ => h, h⟩⟩
  · refine ⟨e, ?_, ?_⟩
    · simp [entryExpr, isRestricted, hres, evalSet, hadj]
    · apply Denotes.of_entry hg hcomputed hmg hop (hplaced ▸ hy) hsorted
      intro x
      have hfree : req.bounded ≠ true := fun hb => hres (hbounded hb)
      rw [hmem, hplaced]
      simp [hres, hfree]

end

end GraphMini
