import GraphMini.Preprocess.ConverterSpec

/-!
# Converting and loading

The graph that `load_bin` reads back from the files of the converter is the graph of the proper
lines.
-/

namespace GraphMini

open StdAlgorithm

section Convert

variable {lines : List (ℕ × ℕ)} (hraw : ∀ line ∈ lines, line.1 < 2 ^ 63 ∧ line.2 < 2 ^ 63)
  (hlen : (vertexIds lines).length < 2 ^ 32 - 1)

/-- The converter's fields. -/
structure ConverterSpec (lines : List (ℕ × ℕ)) (c : GraphConverter) : Prop where
  vNum : c.vNum = (vertexIds lines).length
  eNum : c.eNum = (sortedEdges lines).length
  indices : c.indices = (sortedEdges lines).map Prod.snd
  degrees : c.degrees
    = (List.range (vertexIds lines).length).map fun v => (edgeRow lines v).length
  length_indptr : c.indptr.length = (vertexIds lines).length + 1
  indptr : ∀ v ≤ (vertexIds lines).length, c.indptr.getD v 0 = Rows.start (sortedEdges lines) v
  offsets : c.offsets = (List.range (vertexIds lines).length).map fun v =>
    (edgeRow lines v).countP fun x => decide (x < v)
  triangles : c.triangles
    = (List.range (vertexIds lines).length).map (GraphConverter.triangleCount c.indices c.indptr)
  maxDeg : c.maxDeg = parallelMax c.degrees
  maxOffset : c.maxOffset = parallelMax c.offsets
  maxTri : c.maxTri = parallelMax c.triangles

include hlen in
theorem length_sortedEdges_lt : (sortedEdges lines).length < 2 ^ 64 := by
  have hle := length_sortedEdges_le lines
  have hmul : (vertexIds lines).length * (vertexIds lines).length ≤ (2 ^ 32 - 1) * (2 ^ 32 - 1) :=
    Nat.mul_le_mul hlen.le hlen.le
  omega

/-- A range of the index array is a row. -/
theorem range_eq_edgeRow {indptr : List ℕ}
    (hindptr : ∀ v ≤ (vertexIds lines).length, indptr.getD v 0 = Rows.start (sortedEdges lines) v)
    {v : ℕ} (hv : v < (vertexIds lines).length) :
    GraphConverter.range ((sortedEdges lines).map Prod.snd) indptr v = edgeRow lines v := by
  have hle : (sortedEdges lines).Pairwise fun a b => a.1 ≤ b.1 :=
    sortedEdges_pairwise.imp fun h => by
      unfold EdgeLT at h
      omega
  rw [GraphConverter.range, hindptr v hv.le, hindptr (v + 1) hv, Rows.start_succ,
    Nat.add_sub_cancel_left, ← List.map_drop, ← List.map_take, Rows.take_drop_eq_filter hle]
  rfl

/-- The fields hold what they should as long as the pairs can be counted. -/
theorem converterSpec_of_room
    (hraw : ∀ line ∈ properLines lines, line.1 < 2 ^ 63 ∧ line.2 < 2 ^ 63)
    (hroom : (sortedEdges lines).length < 2 ^ 64) :
    ConverterSpec lines (GraphConverter.loadTxt lines) := by
  have hids := length_vertexIds_le hraw
  obtain ⟨-, hnext, hedges, k, hdegrees⟩ := readSpec_foldl hraw (by omega)
  have hedgeVec : unique (fun a b => a == b) (sortEdges (lines.foldl readLine {}).edgeVec)
      = sortedEdges lines := by rw [hedges, sortedEdges]
  set degrees := (sortedEdges lines).foldl
    (fun degrees pair => degrees.modify pair.1 fun d => add64 d 1)
    (resize (lines.foldl readLine {}).degrees (vertexIds lines).length 0) with hdeg
  have hdegEq : degrees
      = (List.range (vertexIds lines).length).map fun v => (edgeRow lines v).length := by
    rw [hdeg, hdegrees, resize_replicate]
    refine List.ext_getElem (by simp [length_foldl_modify]) fun v hv hv' => ?_
    have hlt : v < (vertexIds lines).length := by simpa [length_foldl_modify] using hv
    have hzero : (List.replicate (vertexIds lines).length 0).getD v 0 = 0 := by
      rw [List.getD_eq_getElem _ _ (by simpa using hlt), List.getElem_replicate]
    rw [← List.getD_eq_getElem _ 0 hv,
      foldl_modify_getD (by simpa using hlt) (by rw [hzero]; omega), hzero, List.getElem_map,
      List.getElem_range, length_edgeRow, Nat.zero_add]
  have htake : ∀ v ≤ (vertexIds lines).length,
      (degrees.take v).sum = Rows.start (sortedEdges lines) v := by
    intro v hv
    rw [hdegEq, ← List.map_take, List.take_range, min_eq_left hv, ← Rows.sum_width]
    simp only [length_edgeRow]
  have hlenDeg : degrees.length = (vertexIds lines).length := by rw [hdegEq]; simp
  have hsum : degrees.sum = (sortedEdges lines).length := by
    have hall := htake _ le_rfl
    rw [List.take_of_length_le hlenDeg.le, Rows.start_eq_length] at hall
    · exact hall
    · exact fun e he => (mem_sortedEdges.mp he).lt
  have hindptr : ∀ v ≤ (vertexIds lines).length,
      (prefixSum 0 degrees).getD v 0 = Rows.start (sortedEdges lines) v := by
    intro v hv
    rw [prefixSum_getD (by rw [hsum]; omega) (by omega), Nat.zero_add, htake v hv]
  unfold GraphConverter.loadTxt
  simp only [hedgeVec, hnext, ← hdeg]
  refine ⟨rfl, by simp, rfl, hdegEq, by rw [length_prefixSum, hlenDeg], hindptr, ?_, rfl, rfl, rfl,
    rfl⟩
  refine List.map_congr_left fun v hv => ?_
  rw [range_eq_edgeRow hindptr (List.mem_range.mp hv), lowerBound]
  exact binarySearch_eq (edgeRow_sortedLT v) v (Nat.zero_le _)
    (by simpa using List.countP_le_length) (by simp)

include hraw hlen

theorem converterSpec_loadTxt : ConverterSpec lines (GraphConverter.loadTxt lines) :=
  converterSpec_of_room (fun line hline => hraw line (List.mem_of_mem_filter hline))
    (length_sortedEdges_lt hlen)

end Convert

/-- `g` is the graph of the proper lines, its vertices numbered in the order of their first
appearance. -/
structure IsGraphOf (lines : List (ℕ × ℕ)) (g : Graph) : Prop where
  numVertex : g.numVertex = (vertexIds lines).length
  ids_nodup : (vertexIds lines).Nodup
  mem_ids : ∀ id, id ∈ vertexIds lines ↔ ∃ line ∈ lines, line.1 ≠ line.2 ∧ (id = line.1 ∨ id = line.2)
  sorted : ∀ v < g.numVertex, (g.N v).data.SortedLT
  neighbours : ∀ v < g.numVertex, ∀ w, w ∈ (g.N v).data ↔ Joined lines v w
  degree : ∀ v < g.numVertex, g.degree v = (g.N v).size
  nBound : ∀ v < g.numVertex, (g.NBound v).data = (g.N v).data.filter fun x => decide (x < v)
  symm : ∀ v w, v < g.numVertex → w ∈ (g.N v).data → v ∈ (g.N w).data
  loopless : ∀ v < g.numVertex, v ∉ (g.N v).data
  indptr_zero : g.indptr.getD 0 0 = 0
  indptr_mono : ∀ v < g.numVertex, g.indptr.getD v 0 ≤ g.indptr.getD (v + 1) 0
  indptr_last : g.indptr.getD g.numVertex 0 = g.numEdge
  maxDegree : g.maxDegree = (Finset.range g.numVertex).sup g.degree
  maxOffset : g.maxOffset = (Finset.range g.numVertex).sup fun v => g.offset.getD v 0

theorem read_save (metaData : MetaData) :
    MetaData.read metaData.save
      = some { metaData with numTriangle := metaData.numTriangle / 6 } := by
  simp [MetaData.read, MetaData.save, MetaFile.item, Constant.kMetaNumVertex,
    Constant.kMetaNumEdge, Constant.kMetaNumTriangle, Constant.kMetaMaxDegree,
    Constant.kMetaMaxOffset, Constant.kMetaMaxTriangle, List.lookup_cons]

theorem readFile_eq {file : List ℕ} {n : ℕ} (h : file.length = n) :
    readFile file n = some file := by
  rw [readFile, if_pos h.ge, List.take_of_length_le h.le]

/-- The graph that is read back. -/
def loadedGraph (lines : List (ℕ × ℕ)) : Graph :=
  let c := GraphConverter.loadTxt lines
  { indices := (sortedEdges lines).map Prod.snd
    indptr := c.indptr
    offset := c.offsets
    triangles := c.triangles
    numVertex := (vertexIds lines).length
    numEdge := (sortedEdges lines).length
    numTriangle := c.triNum / 6
    maxDegree := c.maxDeg
    maxOffset := c.maxOffset
    maxTriangle := c.maxTri }

section Load

variable {lines : List (ℕ × ℕ)} (hraw : ∀ line ∈ lines, line.1 < 2 ^ 63 ∧ line.2 < 2 ^ 63)
  (hlen : (vertexIds lines).length < 2 ^ 32 - 1)

include hraw hlen

/-- No file is missing or too short, and no number is cut. -/
theorem loadBin_convert_eq (mmap : Bool) :
    loadBin (convert lines) mmap = some (loadedGraph lines) := by
  have hspec := converterSpec_loadTxt hraw hlen
  have hbound : (vertexIds lines).length < 2 ^ 32 - 1 := hlen
  have hto32 : to32 (GraphConverter.loadTxt lines).indices = (sortedEdges lines).map Prod.snd := by
    rw [hspec.indices, to32, List.map_map]
    refine List.map_congr_left fun e he => ?_
    have := (mem_sortedEdges.mp he).symm.lt
    exact Nat.mod_eq_of_lt (by omega)
  have hindices : ((sortedEdges lines).map Prod.snd).length = (sortedEdges lines).length := by simp
  have hoffsets : (GraphConverter.loadTxt lines).offsets.length = (vertexIds lines).length := by
    rw [hspec.offsets]
    simp
  have htriangles : (GraphConverter.loadTxt lines).triangles.length = (vertexIds lines).length := by
    rw [hspec.triangles]
    simp
  have hmeta : MetaData.read (convert lines).metaFile = some
      { numVertex := (vertexIds lines).length, numEdge := (sortedEdges lines).length
        numTriangle := (GraphConverter.loadTxt lines).triNum / 6
        maxDegree := (GraphConverter.loadTxt lines).maxDeg
        maxOffset := (GraphConverter.loadTxt lines).maxOffset
        maxTriangle := (GraphConverter.loadTxt lines).maxTri } := by
    rw [convert, read_save, hspec.vNum, hspec.eNum]
  have hsaved : (convert lines).indicesU32 = some ((sortedEdges lines).map Prod.snd) := by
    rw [convert, saveU32, hspec.vNum, if_pos hbound, hto32]
  have hindptr : readFile (convert lines).indptrU64 ((vertexIds lines).length + 1)
      = some (GraphConverter.loadTxt lines).indptr := readFile_eq hspec.length_indptr
  have hoffset : readFile (convert lines).offsetU64 (vertexIds lines).length
      = some (GraphConverter.loadTxt lines).offsets := readFile_eq hoffsets
  have htriangle : readFile (convert lines).triangleU64 (vertexIds lines).length
      = some (GraphConverter.loadTxt lines).triangles := readFile_eq htriangles
  rw [loadBin, hmeta]
  simp only [Option.bind_eq_bind, Option.bind_some, hindptr, hoffset, htriangle, hsaved,
    readFile_eq hindices, List.take_of_length_le hindices.le, ite_self]
  rfl

theorem loadedGraph_row {v : ℕ} (hv : v < (vertexIds lines).length) :
    ((loadedGraph lines).N v).data = edgeRow lines v :=
  range_eq_edgeRow (converterSpec_loadTxt hraw hlen).indptr hv

theorem loadedGraph_degree {v : ℕ} (hv : v < (vertexIds lines).length) :
    (loadedGraph lines).degree v = (edgeRow lines v).length := by
  have hspec := converterSpec_loadTxt hraw hlen
  rw [Graph.degree, loadedGraph, hspec.indptr v hv.le, hspec.indptr (v + 1) hv, Rows.start_succ,
    Nat.add_sub_cancel_left, length_edgeRow]

theorem loadedGraph_offset {v : ℕ} (hv : v < (vertexIds lines).length) :
    (loadedGraph lines).offset.getD v 0
      = (edgeRow lines v).countP fun x => decide (x < v) := by
  rw [loadedGraph, (converterSpec_loadTxt hraw hlen).offsets,
    List.getD_eq_getElem _ _ (by simpa using hv)]
  simp

theorem loadedGraph_nBound {v : ℕ} (hv : v < (vertexIds lines).length) :
    ((loadedGraph lines).NBound v).data = (edgeRow lines v).filter fun x => decide (x < v) := by
  have hrow := loadedGraph_row hraw hlen hv
  have hle : (loadedGraph lines).offset.getD v 0 ≤ (loadedGraph lines).degree v := by
    rw [loadedGraph_offset hraw hlen hv, loadedGraph_degree hraw hlen hv]
    exact List.countP_le_length
  rw [← SortedList.take_countP_lt (edgeRow_sortedLT v), ← loadedGraph_offset hraw hlen hv, ← hrow,
    Graph.N, Graph.NBound, Graph.row, Graph.row, List.take_take, min_eq_left hle]

end Load

/-- Converting the lines and loading the files gives the graph of the lines. -/
theorem loadBin_convert (lines : List (ℕ × ℕ))
    (hraw : ∀ line ∈ lines, line.1 < 2 ^ 63 ∧ line.2 < 2 ^ 63)
    (hlen : (vertexIds lines).length < 2 ^ 32 - 1) (mmap : Bool) :
    ∃ g, loadBin (convert lines) mmap = some g ∧ IsGraphOf lines g := by
  have hspec := converterSpec_loadTxt hraw hlen
  have hrow := fun {v} => loadedGraph_row hraw hlen (v := v)
  have hdegree := fun {v} => loadedGraph_degree hraw hlen (v := v)
  have hoffset := fun {v} => loadedGraph_offset hraw hlen (v := v)
  refine ⟨loadedGraph lines, loadBin_convert_eq hraw hlen mmap, ?_⟩
  constructor
  · rfl
  · exact vertexIds_nodup
  · intro id
    rw [mem_vertexIds]
    simp [properLines, and_assoc]
  · exact fun v hv => hrow hv ▸ edgeRow_sortedLT v
  · exact fun v hv w => by rw [hrow hv, mem_edgeRow]
  · exact fun v hv => by rw [hdegree hv, VertexSet.size, hrow hv]
  · exact fun v hv => by rw [loadedGraph_nBound hraw hlen hv, hrow hv]
  · intro v w hv hw
    rw [hrow hv] at hw
    rw [hrow (mem_edgeRow.mp hw).symm.lt, mem_edgeRow]
    exact (mem_edgeRow.mp hw).symm
  · intro v hv hmem
    rw [hrow hv] at hmem
    exact (mem_edgeRow.mp hmem).ne rfl
  · exact (hspec.indptr 0 (Nat.zero_le _)).trans (Rows.start_zero _)
  · intro v hv
    rw [loadedGraph, hspec.indptr v (le_of_lt hv), hspec.indptr (v + 1) hv]
    exact Rows.start_mono _ (Nat.le_succ v)
  · rw [loadedGraph, hspec.indptr _ le_rfl]
    exact Rows.start_eq_length fun e he => (mem_sortedEdges.mp he).lt
  · calc (loadedGraph lines).maxDegree
        = (Finset.range (vertexIds lines).length).sup fun v => (edgeRow lines v).length := by
          rw [loadedGraph, hspec.maxDeg, hspec.degrees, parallelMax_map_range]
      _ = _ := Finset.sup_congr rfl fun v hv => (hdegree (Finset.mem_range.mp hv)).symm
  · calc (loadedGraph lines).maxOffset
        = (Finset.range (vertexIds lines).length).sup
            fun v => (edgeRow lines v).countP fun x => decide (x < v) := by
          rw [loadedGraph, hspec.maxOffset, hspec.offsets, parallelMax_map_range]
      _ = _ := Finset.sup_congr rfl fun v hv => (hoffset (Finset.mem_range.mp hv)).symm

/-- A path of three vertices, with a self-loop and a repeated line. -/
theorem loadBin_convert_path : ∃ g,
    loadBin (convert [(7, 3), (3, 3), (9, 3), (3, 7)]) false = some g
    ∧ IsGraphOf [(7, 3), (3, 3), (9, 3), (3, 7)] g ∧ (g.N 1).data = [0, 2] := by
  obtain ⟨g, hload, hgraph⟩ := loadBin_convert [(7, 3), (3, 3), (9, 3), (3, 7)]
    (by decide) (by decide) false
  refine ⟨g, hload, hgraph, ?_⟩
  have hrun : (loadBin (convert [(7, 3), (3, 3), (9, 3), (3, 7)]) false).map
      (fun g => (g.N 1).data) = some [0, 2] := by decide +kernel
  rw [hload] at hrun
  simpa using hrun

end GraphMini
