import GraphMini.Lib.Triangles
import GraphMini.Preprocess.Capacity
import GraphMini.Preprocess.MetaText
import GraphMini.Preprocess.SnapFile

/-!
# The triangle counts of the converter

A vertex counts the common neighbours it has with each of its neighbours, up to a degree of 31 bits;
the counts are 64 bits wide. The counts are right exactly if the neighbours that are left out close no
triangle and six times the number of triangles still fits.
-/

namespace GraphMini

open SimpleGraph

/-- The simple graph of the edges, on the numbers of the ids. -/
def builtGraph (edges : List (ℕ × ℕ)) : SimpleGraph (Fin (vertexIds edges).length) where
  Adj v w := Joined edges v w
  symm := ⟨fun _ _ h => h.symm⟩
  loopless := ⟨fun _ h => h.ne rfl⟩

instance (edges : List (ℕ × ℕ)) : DecidableRel (builtGraph edges).Adj := by
  intro v w
  simp only [builtGraph, Joined]
  infer_instance

/-- What `save_meta` saves. -/
def GraphConverter.metaData (c : GraphConverter) : MetaData :=
  { numVertex := c.vNum, numEdge := c.eNum, numTriangle := c.triNum, maxDegree := c.maxDeg
    maxOffset := c.maxOffset, maxTriangle := c.maxTri }

/-- The counts of the converter are those of the graph, in memory and in the metadata. -/
structure TrianglesCounted (edges : List (ℕ × ℕ)) : Prop where
  triangles : ∀ v : Fin (vertexIds edges).length, (GraphConverter.loadTxt edges).triangles[v.val]?
    = some (2 * ((builtGraph edges).trianglesAt v).card)
  triNum : (GraphConverter.loadTxt edges).triNum = 6 * ((builtGraph edges).cliqueFinset 3).card
  metaData : MetaData.readText (GraphConverter.loadTxt edges).metaData.saveText
    = some { (GraphConverter.loadTxt edges).metaData with
        numTriangle := ((builtGraph edges).cliqueFinset 3).card }

/-- The neighbours behind the first `int v1_degree`. -/
def leftOut (edges : List (ℕ × ℕ)) (v : ℕ) : List ℕ :=
  (edgeRow edges v).drop (intCount (edgeRow edges v).length)

/-- A degree below `2 ^ 31` leaves nothing out. -/
theorem leftOut_eq_nil {edges : List (ℕ × ℕ)} {v : ℕ} (h : (edgeRow edges v).length < 2 ^ 31) :
    leftOut edges v = [] := by
  have hcount : intCount (edgeRow edges v).length = (edgeRow edges v).length := by
    rw [intCount, Nat.mod_eq_of_lt (by omega), if_pos h]
  rw [leftOut, hcount, List.drop_length]

/-! ### Counting at one vertex -/

section

variable {edges : List (ℕ × ℕ)}

/-- How many common neighbours `v` has with its neighbour `w`. -/
def commonCount (edges : List (ℕ × ℕ)) (v w : ℕ) : ℕ :=
  (edgeRow edges v).countP fun x => decide (x ∈ edgeRow edges w)

theorem commonCount_eq_zero_iff {v w : ℕ} :
    commonCount edges v w = 0 ↔ ∀ x, ¬ (Joined edges v x ∧ Joined edges w x) := by
  rw [commonCount, List.countP_eq_zero]
  constructor
  · rintro h x ⟨hv, hw⟩
    exact h x (mem_edgeRow.mpr hv) (by simpa using mem_edgeRow.mpr hw)
  · intro h x hv hw
    exact h x ⟨mem_edgeRow.mp hv, mem_edgeRow.mp (of_decide_eq_true hw)⟩

/-- A row as the neighbourhood in the graph. -/
theorem map_edgeRow (v : Fin (vertexIds edges).length) :
    (edgeRow edges v).toFinset = ((builtGraph edges).neighborFinset v).map Fin.valEmbedding := by
  ext w
  simp only [List.mem_toFinset, mem_edgeRow, Finset.mem_map, mem_neighborFinset,
    Fin.valEmbedding_apply]
  constructor
  · exact fun h => ⟨⟨w, h.symm.lt⟩, h, rfl⟩
  · rintro ⟨w, h, rfl⟩
    exact h

theorem commonCount_eq_card (v w : Fin (vertexIds edges).length) :
    commonCount edges v w
      = ((builtGraph edges).neighborFinset v ∩ (builtGraph edges).neighborFinset w).card := by
  calc commonCount edges v w
      = ((edgeRow edges v).filter fun x => decide (x ∈ edgeRow edges w)).toFinset.card := by
        rw [commonCount, List.countP_eq_length_filter, List.toFinset_card_of_nodup]
        exact (edgeRow_sortedLT _).nodup.filter _
    _ = ((edgeRow edges v).toFinset ∩ (edgeRow edges w).toFinset).card := by
        congr 1
        ext x
        simp
    _ = _ := by rw [map_edgeRow, map_edgeRow, ← Finset.map_inter, Finset.card_map]

/-- With all neighbours of `v` the sum is twice the number of triangles at `v`. -/
theorem sum_commonCount (v : Fin (vertexIds edges).length) :
    ((edgeRow edges v).map (commonCount edges v)).sum
      = 2 * ((builtGraph edges).trianglesAt v).card := by
  calc ((edgeRow edges v).map (commonCount edges v)).sum
      = ∑ w ∈ (edgeRow edges v).toFinset, commonCount edges v w :=
        (List.sum_toFinset _ (edgeRow_sortedLT _).nodup).symm
    _ = ∑ w ∈ (builtGraph edges).neighborFinset v, commonCount edges v w := by
        rw [map_edgeRow, Finset.sum_map]
        rfl
    _ = ∑ w ∈ (builtGraph edges).neighborFinset v,
          ((builtGraph edges).neighborFinset v ∩ (builtGraph edges).neighborFinset w).card :=
        Finset.sum_congr rfl fun w _ => commonCount_eq_card v w
    _ = 2 * ((builtGraph edges).trianglesAt v).card := sum_card_common_neighbours _ v

/-- What the counter at `v` adds up. -/
def counted (edges : List (ℕ × ℕ)) (v : ℕ) : ℕ :=
  (((edgeRow edges v).take (intCount (edgeRow edges v).length)).map (commonCount edges v)).sum

theorem counted_add_leftOut (edges : List (ℕ × ℕ)) (v : ℕ) :
    counted edges v + ((leftOut edges v).map (commonCount edges v)).sum
      = ((edgeRow edges v).map (commonCount edges v)).sum := by
  rw [counted, leftOut, ← List.sum_append, ← List.map_append, List.take_append_drop]

/-- Nothing is missing from the counter at `v` if its neighbours that are left out have no neighbour
in common with it. -/
theorem counted_eq_iff (v : Fin (vertexIds edges).length) :
    counted edges v = 2 * ((builtGraph edges).trianglesAt v).card
      ↔ ∀ w ∈ leftOut edges v, ∀ x, ¬ (Joined edges v x ∧ Joined edges w x) := by
  have hsum := counted_add_leftOut edges v
  rw [sum_commonCount] at hsum
  calc counted edges v = 2 * ((builtGraph edges).trianglesAt v).card
      ↔ ((leftOut edges v).map (commonCount edges v)).sum = 0 := by omega
    _ ↔ ∀ w ∈ leftOut edges v, commonCount edges v w = 0 := by
        rw [List.sum_eq_zero_iff]
        simp
    _ ↔ _ := forall₂_congr fun w _ => commonCount_eq_zero_iff

theorem counted_le (v : Fin (vertexIds edges).length) :
    counted edges v ≤ 2 * ((builtGraph edges).trianglesAt v).card := by
  have hsum := counted_add_leftOut edges v
  rw [sum_commonCount] at hsum
  omega

theorem card_trianglesAt_le (v : Fin (vertexIds edges).length) :
    ((builtGraph edges).trianglesAt v).card ≤ ((builtGraph edges).cliqueFinset 3).card :=
  Finset.card_filter_le _ _

/-- The sum as `uint64_t` has it. -/
theorem foldl_add64_mod {α : Type*} (l : List α) (f : α → ℕ) (acc : ℕ) (hacc : acc < 2 ^ 64) :
    l.foldl (fun count x => add64 count (f x)) acc = (acc + (l.map f).sum) % 2 ^ 64 := by
  induction l generalizing acc with
  | nil =>
      rw [List.foldl_nil, List.map_nil, List.sum_nil, Nat.add_zero, Nat.mod_eq_of_lt hacc]
  | cons x l ih =>
      have hstep : add64 acc (f x) < 2 ^ 64 := Nat.mod_lt _ (by decide)
      rw [List.foldl_cons, ih _ hstep, List.map_cons, List.sum_cons, add64, Nat.mod_add_mod, add_assoc]

theorem parallelSum_eq (vec : List ℕ) : parallelSum vec = vec.sum % 2 ^ 64 := by
  have := foldl_add64_mod vec id 0 (by decide)
  simpa [parallelSum] using this

theorem parallelMax_lt {vec : List ℕ} {bound : ℕ} (hpos : 0 < bound) (h : ∀ x ∈ vec, x < bound) :
    parallelMax vec < bound := by
  have hfold : ∀ acc < bound, vec.foldl max acc < bound := by
    induction vec with
    | nil => exact fun acc hacc => hacc
    | cons x vec ih =>
        intro acc hacc
        exact ih (fun y hy => h y (List.mem_cons_of_mem _ hy)) _
          (max_lt hacc (h x List.mem_cons_self))
  exact hfold 0 hpos

/-! ### The counts of the converter -/

section Convert

variable (hraw : ∀ e ∈ properLines edges, e.1 < 2 ^ 63 ∧ e.2 < 2 ^ 63)
  (hroom : (properLines edges).length * 2 < 2 ^ 59)

/-- No pair is in `edge_vec` that was not pushed. -/
theorem length_sortedEdges_le_pushed (edges : List (ℕ × ℕ)) :
    (sortedEdges edges).length ≤ (properLines edges).length * 2 := by
  rw [← length_flatMap_numberedEdge (vertexIds edges)]
  refine (StdAlgorithm.unique_sublist _).length_le.trans (le_of_eq ?_)
  exact (List.perm_insertionSort _ _).length_eq

include hraw hroom

theorem converterSpec_of_read : ConverterSpec edges (GraphConverter.loadTxt edges) :=
  converterSpec_of_room hraw
    (((length_sortedEdges_le_pushed edges).trans_lt hroom).trans (by decide))

/-- The counter at a vertex, modulo `2 ^ 64`. -/
theorem triangleCount_eq_mod {v : ℕ} (hv : v < (vertexIds edges).length) :
    GraphConverter.triangleCount (GraphConverter.loadTxt edges).indices
        (GraphConverter.loadTxt edges).indptr v
      = (((edgeRow edges v).take (intCount (edgeRow edges v).length)).map
          (commonCount edges v)).sum % 2 ^ 64 := by
  have hspec := converterSpec_of_read hraw hroom
  have hrange : ∀ w < (vertexIds edges).length, GraphConverter.range
      (GraphConverter.loadTxt edges).indices (GraphConverter.loadTxt edges).indptr w
      = edgeRow edges w := by
    intro w hw
    rw [hspec.indices, range_eq_edgeRow hspec.indptr hw]
  have hcount : ∀ w ∈ (edgeRow edges v).take (intCount (edgeRow edges v).length),
      intersectCntLoop none (edgeRow edges v) (GraphConverter.range
        (GraphConverter.loadTxt edges).indices (GraphConverter.loadTxt edges).indptr w) 0
      = commonCount edges v w := by
    intro w hw
    rw [hrange w (mem_edgeRow.mp (List.mem_of_mem_take hw)).symm.lt, intersectCntLoop_eq,
      intersectLoop_eq none (edgeRow_sortedLT v) (edgeRow_sortedLT w), Nat.zero_add, commonCount,
      List.countP_eq_length_filter]
    simp [reaches]
  rw [GraphConverter.triangleCount, hrange v hv,
    ← Nat.zero_add (((edgeRow edges v).take _).map (commonCount edges v)).sum,
    ← foldl_add64_mod _ _ 0 (by decide)]
  apply List.foldl_ext
  intro count w hw
  rw [hcount w hw]

/-- What is stored for a vertex. -/
theorem triangles_getElem (v : Fin (vertexIds edges).length) :
    (GraphConverter.loadTxt edges).triangles[v.val]? = some (counted edges v % 2 ^ 64) := by
  have hspec := converterSpec_of_read hraw hroom
  rw [hspec.triangles, List.getElem?_map, List.getElem?_range v.isLt, Option.map_some,
    triangleCount_eq_mod hraw hroom v.isLt]
  rfl

theorem triNum_eq : (GraphConverter.loadTxt edges).triNum
    = (∑ v : Fin (vertexIds edges).length, counted edges v % 2 ^ 64) % 2 ^ 64 := by
  have hspec := converterSpec_of_read hraw hroom
  have htri : (GraphConverter.loadTxt edges).triNum
      = parallelSum (GraphConverter.loadTxt edges).triangles := rfl
  rw [htri, parallelSum_eq, hspec.triangles, ← Finset.sum_range fun v => counted edges v % 2 ^ 64]
  congr 1
  calc ((List.range (vertexIds edges).length).map (GraphConverter.triangleCount
          (GraphConverter.loadTxt edges).indices (GraphConverter.loadTxt edges).indptr)).sum
      = ((List.range (vertexIds edges).length).map fun v => counted edges v % 2 ^ 64).sum := by
        congr 1
        apply List.map_congr_left
        exact fun v hv => triangleCount_eq_mod hraw hroom (List.mem_range.mp hv)
    _ = ∑ v ∈ Finset.range (vertexIds edges).length, counted edges v % 2 ^ 64 := rfl

/-- Every field of the metadata is a number of 64 bits. -/
theorem metaData_fits : (GraphConverter.loadTxt edges).metaData.Fits := by
  have hspec := converterSpec_of_read hraw hroom
  have hids := length_vertexIds_le hraw
  have hvNum : (vertexIds edges).length < 2 ^ 64 := by omega
  have hpushed := length_sortedEdges_le_pushed edges
  have hrow : ∀ v, (edgeRow edges v).length < 2 ^ 64 := fun v =>
    (length_edgeRow_le v).trans_lt hvNum
  rw [MetaData.Fits]
  simp only [MetaData.save, GraphConverter.metaData, List.mem_cons, List.not_mem_nil, or_false,
    forall_eq_or_imp, forall_eq]
  refine ⟨?_, ?_, ?_, ?_, ?_, ?_⟩
  · rw [hspec.vNum]
    exact hvNum
  · rw [hspec.eNum]
    omega
  · rw [triNum_eq hraw hroom]
    exact Nat.mod_lt _ (by decide)
  · rw [hspec.maxDeg, hspec.degrees]
    apply parallelMax_lt (by decide)
    intro x hx
    obtain ⟨v, -, rfl⟩ := List.mem_map.mp hx
    exact hrow v
  · rw [hspec.maxOffset, hspec.offsets]
    apply parallelMax_lt (by decide)
    intro x hx
    obtain ⟨v, -, rfl⟩ := List.mem_map.mp hx
    exact List.countP_le_length.trans_lt (hrow v)
  · rw [hspec.maxTri, hspec.triangles]
    apply parallelMax_lt (by decide)
    intro x hx
    obtain ⟨v, hv, rfl⟩ := List.mem_map.mp hx
    rw [triangleCount_eq_mod hraw hroom (List.mem_range.mp hv)]
    exact Nat.mod_lt _ (by decide)

end Convert

end

section

variable {edges : List (ℕ × ℕ)} (hraw : ∀ e ∈ properLines edges, e.1 < 2 ^ 63 ∧ e.2 < 2 ^ 63)
  (hroom : (properLines edges).length * 2 < 2 ^ 59)

include hraw hroom

/-- Right counts need room for the sum, and every triangle found from both of its other corners. -/
theorem TrianglesCounted.fits_and_leftOut (h : TrianglesCounted edges) :
    6 * ((builtGraph edges).cliqueFinset 3).card < 2 ^ 64 ∧
      ∀ v, ∀ w ∈ leftOut edges v, ∀ x, ¬ (Joined edges v x ∧ Joined edges w x) := by
  have hfits : 6 * ((builtGraph edges).cliqueFinset 3).card < 2 ^ 64 := by
    rw [← h.triNum, triNum_eq hraw hroom]
    exact Nat.mod_lt _ (by decide)
  refine ⟨hfits, fun v w hw x hx => ?_⟩
  have hv : v < (vertexIds edges).length := hx.1.lt
  have hcounted : counted edges v
      = 2 * ((builtGraph edges).trianglesAt ⟨v, hv⟩).card := by
    have hstored := (triangles_getElem hraw hroom ⟨v, hv⟩).symm.trans (h.triangles ⟨v, hv⟩)
    have hbound := counted_le (⟨v, hv⟩ : Fin (vertexIds edges).length)
    have hle := card_trianglesAt_le (⟨v, hv⟩ : Fin (vertexIds edges).length)
    rw [← Option.some.inj hstored, Nat.mod_eq_of_lt (by omega)]
  exact (counted_eq_iff ⟨v, hv⟩).mp hcounted w hw x hx

theorem trianglesCounted_of_fits
    (hfits : 6 * ((builtGraph edges).cliqueFinset 3).card < 2 ^ 64)
    (hleft : ∀ v, ∀ w ∈ leftOut edges v, ∀ x, ¬ (Joined edges v x ∧ Joined edges w x)) :
    TrianglesCounted edges := by
  have hsix : ∑ v, 2 * ((builtGraph edges).trianglesAt v).card
      = 6 * ((builtGraph edges).cliqueFinset 3).card := by
    rw [← Finset.mul_sum, sum_card_trianglesAt]
    omega
  have hcounted : ∀ v : Fin (vertexIds edges).length,
      counted edges v % 2 ^ 64 = 2 * ((builtGraph edges).trianglesAt v).card := by
    intro v
    have hle := card_trianglesAt_le v
    rw [(counted_eq_iff v).mpr (hleft v), Nat.mod_eq_of_lt (by omega)]
  have htriNum : (GraphConverter.loadTxt edges).triNum
      = 6 * ((builtGraph edges).cliqueFinset 3).card := by
    rw [triNum_eq hraw hroom, Finset.sum_congr rfl fun v _ => hcounted v, hsix,
      Nat.mod_eq_of_lt hfits]
  have hsixth : (GraphConverter.loadTxt edges).metaData.numTriangle / 6
      = ((builtGraph edges).cliqueFinset 3).card := by
    have hfield : (GraphConverter.loadTxt edges).metaData.numTriangle
        = (GraphConverter.loadTxt edges).triNum := rfl
    rw [hfield, htriNum]
    omega
  refine ⟨fun v => ?_, htriNum, ?_⟩
  · rw [triangles_getElem hraw hroom v, hcounted v]
  · rw [readText_saveText (metaData_fits hraw hroom), hsixth]

end

/-- The counts are right exactly if six times the number of triangles fits and no neighbour behind
the first `int v1_degree` ones closes a triangle. -/
theorem trianglesCounted_iff (edges : List (ℕ × ℕ))
    (hraw : ∀ e ∈ properLines edges, e.1 < 2 ^ 63 ∧ e.2 < 2 ^ 63)
    (hroom : (properLines edges).length * 2 < 2 ^ 59) :
    TrianglesCounted edges ↔
      6 * ((builtGraph edges).cliqueFinset 3).card < 2 ^ 64 ∧
        ∀ v, ∀ w ∈ leftOut edges v, ∀ x, ¬ (Joined edges v x ∧ Joined edges w x) :=
  ⟨fun h => h.fits_and_leftOut hraw hroom, fun h => trianglesCounted_of_fits hraw hroom h.1 h.2⟩

/-- A triangle with a fourth vertex at one of its corners. -/
theorem trianglesCounted_tail : TrianglesCounted [(0, 1), (1, 2), (2, 0), (2, 3)] := by
  refine (trianglesCounted_iff _ (by decide) (by decide)).mpr ⟨by decide +kernel, ?_⟩
  intro v w hw
  rw [leftOut_eq_nil ((length_edgeRow_le v).trans_lt (by decide))] at hw
  exact absurd hw List.not_mem_nil

/-! ### A vertex of more than 31 bits -/

/-- A centre with `n` neighbours, of which two are joined. -/
def wideStar (n : ℕ) : List (ℕ × ℕ) := (List.range n).map (fun i => (0, i + 1)) ++ [(1, 2)]

section

variable {n : ℕ}

theorem properLines_wideStar (n : ℕ) : properLines (wideStar n) = wideStar n := by
  rw [properLines, List.filter_eq_self]
  intro e he
  rcases List.mem_append.mp he with he | he
  · obtain ⟨i, -, rfl⟩ := List.mem_map.mp he
    simp
  · obtain rfl := List.mem_singleton.mp he
    rfl

theorem vertexIds_star (n : ℕ) :
    vertexIds ((List.range (n + 1)).map fun i => (0, i + 1)) = List.range (n + 2) := by
  induction n with
  | zero => rfl
  | succ n ih =>
      have hzero : see (List.range (n + 2)) 0 = List.range (n + 2) :=
        if_pos (List.mem_range.mpr (by omega))
      have hnew : see (List.range (n + 2)) (n + 1 + 1) = List.range (n + 2) ++ [n + 2] :=
        if_neg (by simp)
      rw [List.range_succ, List.map_append, List.map_singleton, vertexIds_append, if_neg (by simp), ih]
      simp only [hzero, hnew]
      exact List.range_succ.symm

theorem vertexIds_wideStar (n : ℕ) : vertexIds (wideStar (n + 2)) = List.range (n + 3) := by
  have hone : see (List.range (n + 3)) 1 = List.range (n + 3) :=
    if_pos (List.mem_range.mpr (by omega))
  have htwo : see (List.range (n + 3)) 2 = List.range (n + 3) :=
    if_pos (List.mem_range.mpr (by omega))
  rw [wideStar, vertexIds_append, if_neg (by decide), vertexIds_star (n + 1)]
  simp only [hone, htwo]

theorem idNumber_wideStar {x : ℕ} (hx : x < n + 3) : idNumber (wideStar (n + 2)) x = x := by
  have hlt : x < (List.range (n + 3)).length := by simpa using hx
  rw [idNumber, vertexIds_wideStar]
  have := List.nodup_range.idxOf_getElem x hlt
  simpa using this

theorem joined_zero_wideStar {w : ℕ} :
    Joined (wideStar (n + 2)) 0 w ↔ w ∈ List.range' 1 (n + 2) := by
  have hid := fun x => idNumber_wideStar (n := n) (x := x)
  rw [Joined, properLines_wideStar, List.mem_range'_1]
  constructor
  · rintro ⟨line, hline, hends⟩
    rcases List.mem_append.mp hline with hline | hline
    · obtain ⟨i, hi, rfl⟩ := List.mem_map.mp hline
      have hi := List.mem_range.mp hi
      simp only at hends
      rw [hid 0 (by omega), hid (i + 1) (by omega)] at hends
      omega
    · obtain rfl := List.mem_singleton.mp hline
      simp only at hends
      rw [hid 1 (by omega), hid 2 (by omega)] at hends
      omega
  · rintro ⟨hlow, hhigh⟩
    refine ⟨(0, w - 1 + 1), List.mem_append_left _ (List.mem_map.mpr ⟨w - 1, ?_, rfl⟩), Or.inl ⟨?_, ?_⟩⟩
    · exact List.mem_range.mpr (by omega)
    · exact hid 0 (by omega)
    · simp only
      rw [hid _ (by omega)]
      omega

theorem joined_one_two (n : ℕ) : Joined (wideStar (n + 2)) 1 2 := by
  rw [Joined, properLines_wideStar]
  exact ⟨(1, 2), List.mem_append_right _ (List.mem_singleton.mpr rfl),
    Or.inl ⟨idNumber_wideStar (by omega), idNumber_wideStar (by omega)⟩⟩

/-- With `2 ^ 31` neighbours at the centre its loop does not run, and the triangle is not counted
there. -/
theorem not_trianglesCounted_wideStar :
    (∀ e ∈ properLines (wideStar (2 ^ 31)), e.1 < 2 ^ 63 ∧ e.2 < 2 ^ 63) ∧
      (properLines (wideStar (2 ^ 31))).length * 2 < 2 ^ 59 ∧
      ¬ TrianglesCounted (wideStar (2 ^ 31)) := by
  obtain ⟨n, hn⟩ : ∃ n, n + 2 = 2 ^ 31 := ⟨2 ^ 31 - 2, by norm_num⟩
  rw [← hn]
  have hraw : ∀ e ∈ properLines (wideStar (n + 2)), e.1 < 2 ^ 63 ∧ e.2 < 2 ^ 63 := by
    intro e he
    rw [properLines_wideStar] at he
    rcases List.mem_append.mp he with he | he
    · obtain ⟨i, hi, rfl⟩ := List.mem_map.mp he
      have hi := List.mem_range.mp hi
      simp only
      omega
    · obtain rfl := List.mem_singleton.mp he
      decide
  have hroom : (properLines (wideStar (n + 2))).length * 2 < 2 ^ 59 := by
    rw [properLines_wideStar, wideStar, List.length_append, List.length_map, List.length_range,
      List.length_singleton]
    omega
  have hrow : edgeRow (wideStar (n + 2)) 0 = List.range' 1 (n + 2) := by
    apply SortedList.eq_of_mem_iff (edgeRow_sortedLT 0) (List.sortedLT_range' _ _ one_ne_zero)
    intro w
    rw [mem_edgeRow, joined_zero_wideStar]
  have hcount : intCount (n + 2) = 0 := by
    rw [hn]
    rfl
  have hleft : leftOut (wideStar (n + 2)) 0 = List.range' 1 (n + 2) := by
    rw [leftOut, hrow, List.length_range', hcount, List.drop_zero]
  refine ⟨hraw, hroom, fun h => ?_⟩
  apply (h.fits_and_leftOut hraw hroom).2 0 1 _ 2
  · exact ⟨joined_zero_wideStar.mpr (List.mem_range'_1.mpr ⟨by omega, by omega⟩), joined_one_two n⟩
  · rw [hleft]
    exact List.mem_range'_1.mpr ⟨le_rfl, by omega⟩

end

end GraphMini
