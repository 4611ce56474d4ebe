import GraphMini.Codegen.Nested
import GraphMini.Codegen.PlanMgSpec
import GraphMini.Preprocess.Triangles

/-!
# The divisors of `gen_code_tbb_call`

The size test of the run-time nested programs divides by the number of vertices and by the average
degree, as `meta.txt` has them. An id is numbered by an edge, so a graph that has a vertex has an edge
at every vertex; a file without an edge makes a graph without a vertex.
-/

namespace GraphMini

open Text StdAlgorithm

section

variable {edges : List (ℕ × ℕ)}

theorem exists_joined {v : ℕ} (hv : v < (vertexIds edges).length) : ∃ w, Joined edges v w := by
  obtain ⟨line, hline, hend⟩ := mem_vertexIds.mp (List.getElem_mem hv)
  have hnumber : idNumber edges (vertexIds edges)[v] = v := vertexIds_nodup.idxOf_getElem v hv
  rcases hend with hend | hend
  · exact ⟨_, line, hline, Or.inl ⟨hend ▸ hnumber, rfl⟩⟩
  · exact ⟨_, line, hline, Or.inr ⟨rfl, hend ▸ hnumber⟩⟩

/-- Every vertex has a pair of its own. -/
theorem length_vertexIds_le_sortedEdges (edges : List (ℕ × ℕ)) :
    (vertexIds edges).length ≤ (sortedEdges edges).length := by
  have hsub : List.range (vertexIds edges).length ⊆ (sortedEdges edges).map Prod.fst := by
    intro v hv
    obtain ⟨w, hw⟩ := exists_joined (List.mem_range.mp hv)
    exact List.mem_map.mpr ⟨(v, w), mem_sortedEdges.mpr hw, rfl⟩
  calc (vertexIds edges).length = (List.range (vertexIds edges).length).length :=
        List.length_range.symm
    _ ≤ ((sortedEdges edges).map Prod.fst).length :=
        (List.nodup_range.subperm hsub).length_le
    _ = (sortedEdges edges).length := List.length_map _

/-- An average degree fits the `int` that holds it. -/
theorem avgDeg_lt (hroom : (sortedEdges edges).length < 2 ^ 59) :
    (sortedEdges edges).length / (vertexIds edges).length < 2 ^ 31 := by
  set n := (vertexIds edges).length with hn
  set avg := (sortedEdges edges).length / n with havg
  have hle : (sortedEdges edges).length ≤ n * n := length_sortedEdges_le edges
  have havgle : avg ≤ n := Nat.div_le_of_le_mul hle
  have hmul : avg * n ≤ (sortedEdges edges).length := Nat.div_mul_le_self _ _
  by_contra hbig
  have hsquare : 2 ^ 31 * 2 ^ 31 ≤ avg * n := Nat.mul_le_mul (by omega) (by omega)
  omega

theorem vertexIds_eq_nil_iff : vertexIds edges = [] ↔ properLines edges = [] := by
  constructor
  · intro h
    rw [List.eq_nil_iff_forall_not_mem]
    intro line hline
    have : line.1 ∈ vertexIds edges := mem_vertexIds.mpr ⟨line, hline, Or.inl rfl⟩
    rw [h] at this
    exact List.not_mem_nil this
  · intro h
    rw [vertexIds, h]
    rfl

end

/-! ### The metadata in the plan -/

section

variable {sort : List VertexSetIR → List VertexSetIR} {sc : Schedule} {metaData : MetaData}
  {plan : PlanIR} {cfg : CodeGenConfig}

theorem createPlan_metaData {t : AdjMatType} (h : createPlan sort sc t metaData = .ok plan) :
    plan.metaData = metaData := by
  obtain ⟨pSize, -, h⟩ := Loop.exists_of_bind_eq_ok h
  obtain ⟨-, -, h⟩ := Loop.exists_of_bind_eq_ok h
  obtain ⟨iterSet, -, h⟩ := Loop.exists_of_bind_eq_ok h
  by_cases ht : t = .edgeInducedIEP
  · rw [if_pos ht] at h
    by_cases hnum : 1 < sc.inExclusionOptimizeNum
    · simp only [hnum, if_true] at h
      obtain ⟨iepSet, -, h⟩ := Loop.exists_of_bind_eq_ok h
      obtain rfl := Except.ok.inj h
      rfl
    · simp only [hnum, if_false] at h
      obtain rfl := Except.ok.inj h
      rfl
  · rw [if_neg ht] at h
    obtain rfl := Except.ok.inj h
    rfl

theorem genPlan_metaData (h : genPlan sort sc cfg metaData = .ok (some plan)) :
    plan.metaData = metaData := by
  obtain ⟨base, hbase, h⟩ := Loop.exists_of_bind_eq_ok h
  have h := Except.ok.inj h
  by_cases hcfg : cfg.pruningType = .none
  · rw [if_pos hcfg] at h
    obtain rfl := Option.some.inj h
    exact createPlan_metaData hbase
  · rw [if_neg hcfg] at h
    obtain ⟨mgOps, -, rfl⟩ := createPlanMg_eq_some h
    have hmeta := createPlan_metaData hbase
    exact hmeta

/-- With both divisors positive every class is written. -/
theorem genCodeNested_ne_none (hsize : parallelSize plan ≠ none) :
    genCodeNested plan cfg ≠ .ok none := by
  intro h
  obtain ⟨loops, hloops, h⟩ := Loop.exists_of_bind_eq_ok h
  have hsome : ∀ loop ∈ loops, ∃ cls, loop = some cls := by
    intro loop hloop
    obtain ⟨i, hi, rfl⟩ := List.getElem_of_mem hloop
    have hall := Loop.forall₂_of_mapM_ok hloops
    have hwritten := hall.get (hall.length_eq ▸ hi) hi
    obtain ⟨body, -, hwritten⟩ := Loop.exists_of_bind_eq_ok hwritten
    have hwritten := Except.ok.inj hwritten
    simp only [List.get_eq_getElem] at hwritten
    rw [if_neg fun hdivides => hsize hdivides.2] at hwritten
    exact ⟨_, hwritten.symm⟩
  have hall : ∀ loops : List (Option LoopClass), (∀ loop ∈ loops, ∃ cls, loop = some cls) →
      ∃ classes, loops.mapM id = some classes := by
    intro loops hloops
    induction loops with
    | nil => exact ⟨[], rfl⟩
    | cons loop loops ih =>
        obtain ⟨cls, rfl⟩ := hloops loop List.mem_cons_self
        obtain ⟨classes, hclasses⟩ := ih fun l hl => hloops l (List.mem_cons_of_mem _ hl)
        exact ⟨cls :: classes, by rw [List.mapM_cons, hclasses]; rfl⟩
  obtain ⟨classes, hclasses⟩ := hall loops hsome
  rw [List.allSome, hclasses] at h
  exact absurd (Except.ok.inj h) (by simp)

end

/-- The metadata that is read again: its divisors are positive, the average degree fits its `int`, and
no plan makes the generator divide by zero. -/
structure DividesByNoZero (metaData : MetaData) : Prop where
  numVertex : metaData.numVertex ≠ 0
  avgDeg : 1 ≤ metaData.numEdge / metaData.numVertex
  avgDeg_lt : metaData.numEdge / metaData.numVertex < 2 ^ 31
  code : ∀ sort sc cfg plan, genPlan sort sc cfg metaData = .ok (some plan) →
    genCodeNested plan cfg ≠ .ok none

/-- The generator divides by no zero exactly for the files with a line of two different ids before the
first line that does not parse. -/
theorem dividesByNoZero_iff (text : List Char) (edges : List (ℕ × ℕ))
    (h : readEdges {} (lines text) = some edges) :
    (∃ metaData, MetaData.readText (GraphConverter.loadTxt edges).metaData.saveText = some metaData ∧
      DividesByNoZero metaData) ↔
    ∃ line ∈ (lines text).takeWhile (fun line => !malformed line), ∃ edge,
      lineEdge line = some edge ∧ edge.1 ≠ edge.2 := by
  obtain ⟨hlines, hraw, -, hroom⟩ := hasRead_of_readEdges h
  have hspec := converterSpec_of_read hraw hroom
  have hread := readText_saveText (metaData_fits hraw hroom)
  have hvNum : (GraphConverter.loadTxt edges).metaData.numVertex = (vertexIds edges).length :=
    hspec.vNum
  have heNum : (GraphConverter.loadTxt edges).metaData.numEdge = (sortedEdges edges).length :=
    hspec.eNum
  have hedge : vertexIds edges ≠ [] ↔ ∃ line ∈ (lines text).takeWhile (fun line => !malformed line),
      ∃ edge, lineEdge line = some edge ∧ edge.1 ≠ edge.2 := by
    rw [Ne, vertexIds_eq_nil_iff, hlines, properLines_allEdges_eq_nil_iff]
    push Not
    rfl
  rw [← hedge]
  constructor
  · rintro ⟨metaData, hmeta, hdivides⟩ hnil
    obtain rfl := Option.some.inj (hread.symm.trans hmeta)
    exact hdivides.numVertex (by rw [hvNum, hnil]; rfl)
  · intro hne
    have hpos : 0 < (vertexIds edges).length := List.length_pos_of_ne_nil hne
    have havg : 1 ≤ (sortedEdges edges).length / (vertexIds edges).length :=
      (Nat.one_le_div_iff hpos).mpr (length_vertexIds_le_sortedEdges edges)
    refine ⟨_, hread, by rw [hvNum]; omega, by rw [heNum, hvNum]; exact havg, ?_, ?_⟩
    · rw [heNum, hvNum]
      exact avgDeg_lt ((length_sortedEdges_le_pushed edges).trans_lt hroom)
    · intro sort sc cfg plan hplan
      apply genCodeNested_ne_none
      rw [parallelSize, genPlan_metaData hplan, hvNum, heNum,
        if_neg (by simp only [Bool.or_eq_true, decide_eq_true_eq]; omega)]
      split <;> simp

/-- One edge behind a comment. -/
theorem dividesByNoZero_edge : ∃ metaData,
    MetaData.readText (GraphConverter.loadTxt [(7, 3)]).metaData.saveText = some metaData ∧
      DividesByNoZero metaData :=
  (dividesByNoZero_iff "# one edge\n7 3\n".toList [(7, 3)] (by decide +kernel)).mpr
    ⟨"7 3".toList, by decide +kernel, (7, 3), by decide +kernel, by decide⟩

/-- Four vertices that are all joined. -/
def clique : Schedule where
  adjMat := "0111101111011110".toList
  restrictPair := []

/-- A file with a comment and a self-loop makes a graph without a vertex, and the nested code of a
clique divides by zero. -/
theorem divides_by_zero_selfLoop :
    readEdges {} (lines "# no edge\n5 5\n".toList) = some [(5, 5)] ∧
      (¬ ∃ metaData, MetaData.readText (GraphConverter.loadTxt [(5, 5)]).metaData.saveText
        = some metaData ∧ DividesByNoZero metaData) ∧
      ∃ plan, genPlan (insertionSort VertexSetIR.less) clique { parType := .nestedRt } {}
          = .ok (some plan) ∧ genCodeNested plan { parType := .nestedRt } = .ok none := by
  have hread : MetaData.readText (GraphConverter.loadTxt [(5, 5)]).metaData.saveText = some {} := by
    decide +kernel
  refine ⟨by decide +kernel, ?_, ?_⟩
  · rintro ⟨metaData, hmeta, hdivides⟩
    obtain rfl := Option.some.inj (hread.symm.trans hmeta)
    exact hdivides.numVertex rfl
  · have htest : (genPlan (insertionSort VertexSetIR.less) clique { parType := .nestedRt }
        {}).toOption.join.any (fun plan =>
          (genCodeNested plan { parType := .nestedRt }).toOption.any Option.isNone) = true := by
      decide +kernel
    obtain ⟨plan, hplan, hnone⟩ := Loop.exists_ok_some_of_any htest
    obtain ⟨result, hresult, hnone⟩ := Loop.exists_ok_of_any hnone
    exact ⟨plan, hplan, by rw [hresult, Option.isNone_iff_eq_none.mp hnone]⟩

end GraphMini
