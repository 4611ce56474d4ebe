import GraphMini.Backend.Workspace
import GraphMini.Preprocess.LoadSpec

/-!
# Converted graphs and the workspace

The workspace of a loaded graph is sized by the largest triangle count of its vertices. Whether the
longest adjacency list fits is a property of the edges alone.
-/

namespace GraphMini

namespace Graph

/-- Twice the number of triangles at a vertex, which the converter counts while the degree fits an
`int`. -/
def trianglePairs (g : Graph) (v : ℕ) : ℕ :=
  if g.degree v < 2 ^ 31 then
    ((g.N v).data.map fun w => (g.N v).data.countP fun x => decide (g.Adj w x)).sum
  else 0

end Graph

section

variable {lines : List (ℕ × ℕ)} (hraw : ∀ line ∈ lines, line.1 < 2 ^ 63 ∧ line.2 < 2 ^ 63)
  (hlen : (vertexIds lines).length < 2 ^ 32 - 1)

/-- A sum that fits is added up without wrapping. -/
theorem foldl_add64 {l : List ℕ} {f : ℕ → ℕ} {acc : ℕ} (h : acc + (l.map f).sum < 2 ^ 64) :
    l.foldl (fun count x => add64 count (f x)) acc = acc + (l.map f).sum := by
  induction l generalizing acc with
  | nil => simp
  | cons x l ih =>
      rw [List.map_cons, List.sum_cons] at h
      have hadd : add64 acc (f x) = acc + f x := by
        simp only [add64]
        omega
      rw [List.foldl_cons, hadd, ih (by omega), List.map_cons, List.sum_cons, add_assoc]

include hraw hlen

/-- The graph that is read back is valid. -/
theorem valid_loadedGraph : (loadedGraph lines).Valid := by
  have hspec := converterSpec_loadTxt hraw hlen
  have hrow := fun {v} => loadedGraph_row hraw hlen (v := v)
  constructor
  · exact (hspec.indptr 0 (Nat.zero_le _)).trans (Rows.start_zero _)
  · intro v hv
    rw [loadedGraph, hspec.indptr v (le_of_lt hv), hspec.indptr (v + 1) hv]
    exact Rows.start_mono _ (Nat.le_succ v)
  · rw [loadedGraph, hspec.indptr _ le_rfl]
    exact Rows.start_eq_length fun e he => (mem_sortedEdges.mp he).lt
  · simp [loadedGraph]
  · exact fun v hv => hrow hv ▸ edgeRow_sortedLT v
  · intro v hv w hw
    rw [hrow hv] at hw
    exact (mem_edgeRow.mp hw).symm.lt
  · intro v hv w hw
    rw [hrow hv] at hw
    rw [Graph.Adj, hrow (mem_edgeRow.mp hw).symm.lt, mem_edgeRow]
    exact (mem_edgeRow.mp hw).symm
  · intro v hv hmem
    rw [Graph.Adj, hrow hv] at hmem
    exact (mem_edgeRow.mp hmem).ne rfl
  · intro v hv
    rw [loadedGraph_offset hraw hlen hv, hrow hv]
  · exact hlen

/-- What the converter counts at a vertex. -/
theorem triangleCount_eq {v : ℕ} (hv : v < (vertexIds lines).length) :
    GraphConverter.triangleCount (GraphConverter.loadTxt lines).indices
        (GraphConverter.loadTxt lines).indptr v
      = (loadedGraph lines).trianglePairs v := by
  have hspec := converterSpec_loadTxt hraw hlen
  have hrange : ∀ w < (vertexIds lines).length, GraphConverter.range
      (GraphConverter.loadTxt lines).indices (GraphConverter.loadTxt lines).indptr w
      = edgeRow lines w := by
    intro w hw
    rw [hspec.indices, range_eq_edgeRow hspec.indptr hw]
  have hlt : (edgeRow lines v).length < 2 ^ 32 := (length_edgeRow_le v).trans_lt (by omega)
  -- the number of common neighbours of `v` and one of its neighbours
  have hcnt : ∀ w ∈ edgeRow lines v, intersectCntLoop none (edgeRow lines v) (edgeRow lines w) 0
      = (edgeRow lines v).countP fun x => decide ((loadedGraph lines).Adj w x) := by
    intro w hw
    rw [intersectCntLoop_eq, intersectLoop_eq none (edgeRow_sortedLT v) (edgeRow_sortedLT w),
      Nat.zero_add, List.countP_eq_length_filter]
    refine congrArg _ (List.filter_congr fun x _ => ?_)
    simp only [reaches, Bool.not_false, Bool.and_true, Graph.Adj,
      loadedGraph_row hraw hlen (mem_edgeRow.mp hw).symm.lt]
  have hfold : ∀ count, (edgeRow lines v).foldl (fun count w => add64 count
      (intersectCntLoop none (edgeRow lines v) (GraphConverter.range
        (GraphConverter.loadTxt lines).indices (GraphConverter.loadTxt lines).indptr w) 0)) count
      = (edgeRow lines v).foldl (fun count w => add64 count
        ((edgeRow lines v).countP fun x => decide ((loadedGraph lines).Adj w x))) count := by
    intro count
    refine List.foldl_ext _ _ _ fun count w hw => ?_
    rw [hrange w (mem_edgeRow.mp hw).symm.lt, hcnt w hw]
  have hsum : ((edgeRow lines v).map fun w => (edgeRow lines v).countP fun x =>
      decide ((loadedGraph lines).Adj w x)).sum < 2 ^ 64 := by
    have hle : ((edgeRow lines v).map fun w => (edgeRow lines v).countP fun x =>
        decide ((loadedGraph lines).Adj w x)).sum
        ≤ (edgeRow lines v).length * (edgeRow lines v).length := by
      have := List.sum_le_card_nsmul ((edgeRow lines v).map fun w => (edgeRow lines v).countP
        fun x => decide ((loadedGraph lines).Adj w x)) (edgeRow lines v).length ?_
      · simpa using this
      · intro m hm
        obtain ⟨w, -, rfl⟩ := List.mem_map.mp hm
        exact List.countP_le_length
    have hmul : (edgeRow lines v).length * (edgeRow lines v).length ≤ (2 ^ 32 - 1) * (2 ^ 32 - 1) :=
      Nat.mul_le_mul (by omega) (by omega)
    omega
  have hdegree := loadedGraph_degree hraw hlen hv
  rw [GraphConverter.triangleCount, hrange v hv, Graph.trianglePairs, hdegree,
    loadedGraph_row hraw hlen hv, intCount, Nat.mod_eq_of_lt hlt]
  split
  · rw [List.take_length, hfold, foldl_add64 (by omega), Nat.zero_add]
  · rfl

theorem loadedGraph_maxTriangle :
    (loadedGraph lines).maxTriangle
      = (Finset.range (vertexIds lines).length).sup (loadedGraph lines).trianglePairs := by
  have hspec := converterSpec_loadTxt hraw hlen
  rw [loadedGraph, hspec.maxTri, hspec.triangles, ← parallelMax_map_range]
  refine congrArg parallelMax (List.map_congr_left fun v hv => ?_)
  exact triangleCount_eq hraw hlen (List.mem_range.mp hv)

end

/-- No operation on a converted graph writes beyond its buffer, exactly if every vertex has at most
one neighbour more than some vertex has triangles, counted twice. -/
theorem fitsWorkSpace_convert_iff (lines : List (ℕ × ℕ))
    (hraw : ∀ line ∈ lines, line.1 < 2 ^ 63 ∧ line.2 < 2 ^ 63)
    (hlen : (vertexIds lines).length < 2 ^ 32 - 1) (mmap : Bool) :
    ∃ g, loadBin (convert lines) mmap = some g ∧ (g.FitsWorkSpace ↔
      ∀ v < g.numVertex, ∃ u < g.numVertex, g.degree v ≤ g.trianglePairs u + 1) := by
  have hvalid := valid_loadedGraph hraw hlen
  refine ⟨loadedGraph lines, loadBin_convert_eq hraw hlen mmap, ?_⟩
  rw [Graph.fitsWorkSpace_iff hvalid]
  refine forall₂_congr fun v hv => ?_
  have hsize : ((loadedGraph lines).N v).size = (loadedGraph lines).degree v := by
    rw [VertexSet.size, loadedGraph_row hraw hlen hv, loadedGraph_degree hraw hlen hv]
  rw [hsize, Graph.workSpace, Graph.getMaxdeg, loadedGraph_maxTriangle hraw hlen]
  constructor
  · intro hle
    obtain ⟨u, hu, hsup⟩ := Finset.exists_mem_eq_sup _ ⟨v, Finset.mem_range.mpr hv⟩
      (loadedGraph lines).trianglePairs
    exact ⟨u, Finset.mem_range.mp hu, hsup ▸ hle⟩
  · rintro ⟨u, hu, hle⟩
    have := Finset.le_sup (f := (loadedGraph lines).trianglePairs) (Finset.mem_range.mpr hu)
    exact hle.trans (Nat.add_le_add_right this 1)

/-- The edges of a star: a centre with three neighbours. -/
def star : List (ℕ × ℕ) := [(0, 1), (0, 2), (0, 3)]

/-- In a triangle every list has two ids and the buffers have room for three. -/
theorem fitsWorkSpace_convert_triangle : ∃ g,
    loadBin (convert [(0, 1), (1, 2), (2, 0)]) false = some g ∧ (g.FitsWorkSpace ↔
      ∀ v < g.numVertex, ∃ u < g.numVertex, g.degree v ≤ g.trianglePairs u + 1) :=
  fitsWorkSpace_convert_iff [(0, 1), (1, 2), (2, 0)] (by decide) (by decide) false

/-- A star has no triangle, so its buffers hold one id, and copying the list of the centre writes
three. -/
theorem star_overflows : ∃ g, loadBin (convert star) false = some g ∧ ¬ g.FitsWorkSpace := by
  have hvalid : (loadedGraph star).Valid := valid_loadedGraph (by decide) (by decide)
  refine ⟨loadedGraph star, loadBin_convert_eq (by decide) (by decide) false, fun h => ?_⟩
  have hle := (Graph.fitsWorkSpace_iff hvalid).mp h 0 (by decide)
  exact absurd hle (by decide +kernel)

end GraphMini
