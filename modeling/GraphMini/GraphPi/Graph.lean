import GraphMini.Preprocess.ConverterSpec

/-!
# The graphs of the matcher

`Graph` of GraphPi: the rows of all vertices one after the other. `DataLoader::load_complete` numbers the
vertices of a complete graph in the order in which its edges name them and sorts the edges into rows.
-/

namespace GraphMini

namespace GraphPi

open StdAlgorithm

/-- With a graph goes `VertexSet::max_intersection_size` as its load leaves it. A load of another graph can only
make it greater. -/
structure Graph where
  vCnt : ℕ
  eCnt : ℕ
  edge : List ℕ
  vertex : List ℕ
  maxDegree : ℕ
  maxIntersectionSize : ℕ

/-- What `get_edge_index` delimits, the neighbours of `v`. -/
def Graph.row (g : Graph) (v : ℕ) : List ℕ :=
  (g.edge.drop (g.vertex.getD v 0)).take (g.vertex.getD (v + 1) 0 - g.vertex.getD v 0)

/-- The same graph for the generated programs. -/
def Graph.toGraph (g : Graph) : GraphMini.Graph where
  indices := g.edge
  indptr := g.vertex
  offset := (List.range g.vCnt).map fun v => (g.row v).countP fun x => decide (x < v)
  numVertex := g.vCnt
  numEdge := g.eCnt

/-- The edges as `load_complete` names them. -/
def completeLines (cliqueSize : ℕ) : List (ℕ × ℕ) :=
  (List.range cliqueSize).flatMap fun i => (List.range i).map fun j => (i, j)

/-- One edge is read: `id` lists the vertices in the order of their numbers. -/
def readEdge (state : List ℕ × List (ℕ × ℕ)) (line : ℕ × ℕ) : List ℕ × List (ℕ × ℕ) :=
  let id := see (see state.1 line.1) line.2
  let x := id.idxOf line.1
  let y := id.idxOf line.2
  (id, state.2 ++ [(x, y), (y, x)])

/-- `cmp_pair` -/
def cmpPair (a b : ℕ × ℕ) : Bool := decide (a.1 < b.1) || (decide (a.1 = b.1) && decide (a.2 < b.2))

/-- `vertex`, `have_edge` and `lst_v` after one more edge. -/
def fillStep (e : List (ℕ × ℕ)) (state : (ℕ → ℕ) × Finset ℕ × ℤ) (i : ℕ) : (ℕ → ℕ) × Finset ℕ × ℤ :=
  let v := (e.getD i (0, 0)).1
  if (v : ℤ) ≠ state.2.2 then (Function.update state.1 v i, insert v state.2.1, (v : ℤ))
  else (state.1, state.2.1, (v : ℤ))

/-- The array `vertex`: the first edge of each vertex, and where a vertex has no edge the next one. -/
def fillVertex (e : List (ℕ × ℕ)) (vCnt : ℕ) : ℕ → ℕ :=
  let state := (List.range e.length).foldl (fillStep e) (fun _ => 0, ∅, -1)
  (List.range vCnt).reverse.foldl
    (fun vertex i => if i ∈ state.2.1 then vertex else Function.update vertex i (vertex (i + 1)))
    (Function.update state.1 vCnt e.length)

/-- The array `degree`, sorted. -/
def sortedDegrees (e : List (ℕ × ℕ)) (vCnt : ℕ) : List ℕ :=
  ((List.range vCnt).map fun v => e.countP fun a => decide (a.1 = v)).insertionSort (· ≤ ·)

/-- `load_complete`; a wrong number of vertices or edges is an error. -/
def loadComplete (cliqueSize : ℕ) : Option Graph :=
  let (id, e) := (completeLines cliqueSize).foldl readEdge ([], [])
  let degree := sortedDegrees e cliqueSize
  if id.length ≠ cliqueSize ∨ e.length ≠ cliqueSize * (cliqueSize - 1) / 2 * 2 then none
  else
    let e := unique (fun a b => a == b) (e.insertionSort fun a b => cmpPair b a = false)
    some
      { vCnt := cliqueSize
        eCnt := e.length
        edge := e.map Prod.snd
        vertex := (List.range (cliqueSize + 1)).map (fillVertex e cliqueSize)
        maxDegree := degree.getD (cliqueSize - 1) 0
        maxIntersectionSize := degree.getD (cliqueSize - 2) 0 }

/-- What a loader makes of a graph: the numbers fit their types, and with the greatest degree and the second
greatest it is known what a row may hold and what two rows may have in common. -/
structure Graph.Loaded (g : Graph) : Prop where
  vCnt_lt : g.vCnt < 2 ^ 31
  eCnt_lt : g.eCnt < 2 ^ 32
  row_le : ∀ v < g.vCnt, (g.row v).length ≤ g.maxDegree
  min_le : ∀ v < g.vCnt, ∀ w < g.vCnt, v ≠ w → min (g.row v).length (g.row w).length ≤ g.maxIntersectionSize

/-! ### The rows -/

section

variable {e : List (ℕ × ℕ)} {n : ℕ}

/-- After the first edges the row of each vertex that has one begins where it should. -/
theorem fill_spec (hsorted : e.Pairwise fun a b => a.1 ≤ b.1) (hn : n ≤ e.length) :
    let state := (List.range n).foldl (fillStep e) (fun _ => 0, ∅, -1)
    (∀ v, v ∈ state.2.1 ↔ ∃ a ∈ e.take n, a.1 = v) ∧ (∀ v ∈ state.2.1, state.1 v = Rows.start e v)
      ∧ (n = 0 ∧ state.2.2 = -1 ∨ 0 < n ∧ state.2.2 = (e.getD (n - 1) (0, 0)).1) := by
  induction n with
  | zero => simp
  | succ n ih =>
      obtain ⟨hmem, hstart, hlst⟩ := ih (by omega)
      have hlt : n < e.length := by omega
      have hget : e.getD n (0, 0) = e[n] := List.getD_eq_getElem _ _ hlt
      rw [List.range_succ, List.foldl_append, List.foldl_cons, List.foldl_nil]
      generalize (List.range n).foldl (fillStep e) (fun _ => 0, ∅, -1) = state at *
      have htake : ∀ v, (∃ a ∈ e.take (n + 1), a.1 = v) ↔ (∃ a ∈ e.take n, a.1 = v) ∨ e[n].1 = v := by
        intro v
        rw [List.take_succ_eq_append_getElem hlt]
        simp only [List.mem_append, List.mem_singleton, or_and_right, exists_or, exists_eq_left]
      by_cases hnew : ((e.getD n (0, 0)).1 : ℤ) ≠ state.2.2
      · have hstep : fillStep e state n = (Function.update state.1 e[n].1 n, insert e[n].1 state.2.1, (e[n].1 : ℤ)) := by
          rw [← hget]
          exact if_pos hnew
        have hfirst : ∀ a ∈ e.take n, a.1 < e[n].1 := by
          intro a ha
          rcases hlst with ⟨rfl, -⟩ | ⟨hpos, hlst⟩
          · simp at ha
          · have hprev : n - 1 < e.length := by omega
            rw [hlst, hget, List.getD_eq_getElem _ _ hprev] at hnew
            have hle := List.pairwise_iff_getElem.mp hsorted (n - 1) n hprev hlt (by omega)
            obtain ⟨k, hk, rfl⟩ := List.mem_take_iff_getElem.mp ha
            have hle' : e[k].1 ≤ e[n - 1].1 := by
              rcases Nat.lt_or_ge k (n - 1) with hlow | hhigh
              · exact List.pairwise_iff_getElem.mp hsorted k (n - 1) _ hprev hlow
              · have hsame : k = n - 1 := by omega
                subst hsame
                exact le_rfl
            omega
        have hvalue : Rows.start e e[n].1 = n := by
          have hsplit : e = e.take n ++ e.drop n := (List.take_append_drop n e).symm
          have hlow : (e.take n).countP (fun a => decide (a.1 < e[n].1)) = n := by
            rw [List.countP_eq_length.mpr fun a ha => decide_eq_true (hfirst a ha), List.length_take]
            omega
          have hhigh : (e.drop n).countP (fun a => decide (a.1 < e[n].1)) = 0 := by
            rw [List.countP_eq_zero]
            intro a ha
            obtain ⟨k, hk, rfl⟩ := List.mem_drop_iff_getElem.mp ha
            rw [decide_eq_true_eq, not_lt]
            rcases Nat.eq_zero_or_pos k with rfl | hpos
            · exact le_rfl
            · exact List.pairwise_iff_getElem.mp hsorted n (n + k) hlt _ (by omega)
          rw [Rows.start]
          conv_lhs => arg 2; rw [hsplit]
          rw [List.countP_append, hlow, hhigh, add_zero]
        simp only [hstep]
        refine ⟨fun v => ?_, fun v hv => ?_, Or.inr ⟨Nat.succ_pos n, ?_⟩⟩
        · rw [htake, Finset.mem_insert, hmem, or_comm, eq_comm]
        · rcases eq_or_ne v e[n].1 with rfl | hne
          · rw [Function.update_self, hvalue]
          · rw [Function.update_of_ne hne]
            exact hstart v ((Finset.mem_insert.mp hv).resolve_left hne)
        · rw [Nat.add_sub_cancel, hget]
      · have hstep : fillStep e state n = (state.1, state.2.1, (e[n].1 : ℤ)) := by
          rw [← hget]
          exact if_neg hnew
        rw [not_not] at hnew
        simp only [hstep]
        refine ⟨fun v => ?_, hstart, Or.inr ⟨Nat.succ_pos n, by rw [Nat.add_sub_cancel, hget]⟩⟩
        rw [htake, hmem, iff_self_or]
        rintro rfl
        rcases hlst with ⟨rfl, hlst⟩ | ⟨hpos, hlst⟩
        · rw [hlst] at hnew
          omega
        · have hprev : n - 1 < e.length := by omega
          rw [hlst, hget, List.getD_eq_getElem _ _ hprev, Nat.cast_inj] at hnew
          exact ⟨e[n - 1], List.mem_take_iff_getElem.mpr ⟨n - 1, by omega, rfl⟩, hnew.symm⟩

/-- The rows begin where they should. -/
theorem fillVertex_eq {vCnt v : ℕ} (hsorted : e.Pairwise fun a b => a.1 ≤ b.1)
    (hlt : ∀ a ∈ e, a.1 < vCnt) (hv : v ≤ vCnt) : fillVertex e vCnt v = Rows.start e v := by
  obtain ⟨hmem, hstart, -⟩ := fill_spec hsorted le_rfl
  rw [List.take_length] at hmem
  rw [fillVertex]
  generalize (List.range e.length).foldl (fillStep e) (fun _ => 0, ∅, -1) = state at *
  have hback : ∀ m ≤ vCnt, ∀ v ≤ vCnt, m ≤ v ∨ v ∈ state.2.1 →
      (((List.range vCnt).reverse.take (vCnt - m)).foldl
        (fun vertex i => if i ∈ state.2.1 then vertex else Function.update vertex i (vertex (i + 1)))
        (Function.update state.1 vCnt e.length)) v = Rows.start e v := by
    intro m hm
    induction hk : vCnt - m generalizing m with
    | zero =>
        intro v hv hor
        rw [List.take_zero, List.foldl_nil]
        rcases eq_or_ne v vCnt with rfl | hne
        · rw [Function.update_self]
          exact (Rows.start_eq_length hlt).symm
        · rw [Function.update_of_ne hne]
          exact hstart v (hor.resolve_left (by omega))
    | succ k ih =>
        intro v hv hor
        have hnext := ih (m + 1) (by omega) (by omega)
        have htake : (List.range vCnt).reverse.take (k + 1)
            = (List.range vCnt).reverse.take k ++ [m] := by
          rw [List.take_succ_eq_append_getElem (by simp; omega)]
          congr
          rw [List.getElem_reverse, List.getElem_range]
          simp
          omega
        rw [htake, List.foldl_append, List.foldl_cons, List.foldl_nil]
        split_ifs with hin
        · apply hnext v hv
          rcases hor with hle | hor
          · rcases Nat.eq_or_lt_of_le hle with rfl | hlt'
            · exact Or.inr hin
            · exact Or.inl hlt'
          · exact Or.inr hor
        · rcases eq_or_ne v m with rfl | hne
          · rw [Function.update_self, hnext (v + 1) (by omega) (Or.inl le_rfl), Rows.start_succ]
            have hwidth : Rows.width e v = 0 := by
              rw [Rows.width, List.countP_eq_zero]
              intro a ha
              rw [decide_eq_true_eq]
              exact fun h => hin ((hmem v).mpr ⟨a, ha, h⟩)
            rw [hwidth, add_zero]
          · rw [Function.update_of_ne hne]
            apply hnext v hv
            rcases hor with hle | hor
            · exact Or.inl (by omega)
            · exact Or.inr hor
  have hall := hback 0 (Nat.zero_le _) v hv (Or.inl (Nat.zero_le _))
  rw [Nat.sub_zero, List.take_of_length_le (by simp)] at hall
  exact hall

end

/-! ### The complete graph -/

section

variable {lines : List (ℕ × ℕ)} {n v w : ℕ}

/-- The edges are numbered as they are when all vertices are known. -/
theorem foldl_readEdge (hproper : ∀ line ∈ lines, line.1 ≠ line.2) :
    lines.foldl readEdge ([], []) = (vertexIds lines, lines.flatMap (numberedEdge (vertexIds lines))) := by
  induction lines using List.reverseRecOn with
  | nil => rfl
  | append_singleton lines line ih =>
      have hline : line.1 ≠ line.2 := hproper line (by simp)
      have hlines : ∀ line ∈ lines, line.1 ≠ line.2 := fun line' hline' => hproper line' (by simp [hline'])
      have hids := vertexIds_append lines line
      rw [if_neg hline] at hids
      have hkeep : ∀ x ∈ vertexIds lines, (vertexIds (lines ++ [line])).idxOf x = (vertexIds lines).idxOf x := by
        intro x hx
        rw [hids, idxOf_see (mem_see.mpr (Or.inl hx)), idxOf_see hx]
      rw [List.foldl_append, ih hlines, List.foldl_cons, List.foldl_nil, readEdge, ← hids, List.flatMap_append,
        List.flatMap_singleton]
      have hsame : lines.flatMap (numberedEdge (vertexIds lines))
          = lines.flatMap (numberedEdge (vertexIds (lines ++ [line]))) := by
        apply List.flatMap_congr
        intro line' hline'
        have hproper' := hlines line' hline'
        have hin : line' ∈ properLines lines := List.mem_filter.mpr ⟨hline', decide_eq_true hproper'⟩
        rw [numberedEdge, numberedEdge, hkeep _ (mem_vertexIds.mpr ⟨line', hin, Or.inl rfl⟩),
          hkeep _ (mem_vertexIds.mpr ⟨line', hin, Or.inr rfl⟩)]
      rw [hsame]
      rfl

theorem mem_completeLines : (v, w) ∈ completeLines n ↔ w < v ∧ v < n := by
  rw [completeLines, List.mem_flatMap]
  simp only [List.mem_range, List.mem_map, Prod.mk.injEq]
  constructor
  · rintro ⟨i, hi, j, hj, rfl, rfl⟩
    exact ⟨hj, hi⟩
  · rintro ⟨hw, hv⟩
    exact ⟨v, hv, w, hw, rfl, rfl⟩

theorem properLines_completeLines (n : ℕ) : properLines (completeLines n) = completeLines n := by
  apply List.filter_eq_self.mpr
  rintro ⟨v, w⟩ hmem
  exact decide_eq_true (mem_completeLines.mp hmem).1.ne'

theorem mem_vertexIds_completeLines (hn : 2 ≤ n) : v ∈ vertexIds (completeLines n) ↔ v < n := by
  rw [mem_vertexIds, properLines_completeLines]
  constructor
  · rintro ⟨⟨i, j⟩, hmem, hv⟩
    have hlt := mem_completeLines.mp hmem
    rcases hv with rfl | rfl
    · exact hlt.2
    · exact hlt.1.trans hlt.2
  · intro hv
    rcases Nat.eq_zero_or_pos v with rfl | hpos
    · exact ⟨(1, 0), mem_completeLines.mpr ⟨Nat.one_pos, hn⟩, Or.inr rfl⟩
    · exact ⟨(v, 0), mem_completeLines.mpr ⟨hpos, hv⟩, Or.inl rfl⟩

theorem length_vertexIds_completeLines (hn : 2 ≤ n) : (vertexIds (completeLines n)).length = n := by
  have hset : (vertexIds (completeLines n)).toFinset = Finset.range n := by
    ext v
    rw [List.mem_toFinset, mem_vertexIds_completeLines hn, Finset.mem_range]
  rw [← List.toFinset_card_of_nodup vertexIds_nodup, hset, Finset.card_range]

/-- All vertices are joined, whatever their numbers. -/
theorem joined_completeLines (hn : 2 ≤ n) : Joined (completeLines n) v w ↔ v < n ∧ w < n ∧ v ≠ w := by
  have hlength := length_vertexIds_completeLines hn
  constructor
  · intro h
    exact ⟨hlength ▸ h.lt, hlength ▸ h.symm.lt, h.ne⟩
  · rintro ⟨hv, hw, hne⟩
    have hv' : v < (vertexIds (completeLines n)).length := by omega
    have hw' : w < (vertexIds (completeLines n)).length := by omega
    have hnumber : ∀ {k : ℕ} (hk : k < (vertexIds (completeLines n)).length),
        idNumber (completeLines n) (vertexIds (completeLines n))[k] = k :=
      fun {k} hk => vertexIds_nodup.idxOf_getElem k hk
    have hmem : ∀ {k : ℕ} (hk : k < (vertexIds (completeLines n)).length), (vertexIds (completeLines n))[k] < n :=
      fun {k} hk => (mem_vertexIds_completeLines hn).mp (List.getElem_mem hk)
    rw [Joined, properLines_completeLines]
    rcases lt_trichotomy (vertexIds (completeLines n))[v] (vertexIds (completeLines n))[w] with hlt | heq | hlt
    · exact ⟨_, mem_completeLines.mpr ⟨hlt, hmem hw'⟩, Or.inr ⟨hnumber hw', hnumber hv'⟩⟩
    · exact absurd (vertexIds_nodup.getElem_inj_iff.mp heq) hne
    · exact ⟨_, mem_completeLines.mpr ⟨hlt, hmem hv'⟩, Or.inl ⟨hnumber hv', hnumber hw'⟩⟩

theorem length_completeLines (n : ℕ) : (completeLines n).length = n * (n - 1) / 2 := by
  rw [completeLines, List.length_flatMap]
  simp only [List.length_map, List.length_range]
  rw [← Finset.sum_range_id, ← List.sum_toFinset _ List.nodup_range, List.toFinset_range]

theorem mem_numberedEdges (hn : 2 ≤ n) :
    (v, w) ∈ (completeLines n).flatMap (numberedEdge (vertexIds (completeLines n))) ↔ v < n ∧ w < n ∧ v ≠ w := by
  rw [← joined_completeLines hn, ← mem_sortedEdges, sortedEdges, mem_unique (by simp), sortEdges,
    List.mem_insertionSort, properLines_completeLines]

/-- Each vertex has an edge to each other one. -/
theorem countP_numberedEdges (hn : 2 ≤ n) (hv : v < n) :
    ((completeLines n).flatMap (numberedEdge (vertexIds (completeLines n)))).countP (fun a => decide (a.1 = v))
      = n - 1 := by
  set e := (completeLines n).flatMap (numberedEdge (vertexIds (completeLines n))) with he
  have hset : e.toFinset = (Finset.range n).offDiag := by
    ext ⟨v, w⟩
    rw [List.mem_toFinset, he, mem_numberedEdges hn, Finset.mem_offDiag, Finset.mem_range, Finset.mem_range]
  have hlength : e.length = n * n - n := by
    have htwo : n * (n - 1) / 2 * 2 = n * (n - 1) := Nat.div_mul_cancel (Nat.even_mul_pred_self n).two_dvd
    rw [he, List.length_flatMap, ← Nat.mul_sub_one, ← htwo, ← length_completeLines]
    simp [numberedEdge]
  have hnodup : e.Nodup := by
    rw [← Multiset.coe_nodup, ← Multiset.toFinset_card_eq_card_iff_nodup]
    have hcard : e.toFinset.card = n * n - n := by rw [hset, Finset.offDiag_card, Finset.card_range]
    exact hcard.trans hlength.symm
  have hrow : (e.filter fun a => decide (a.1 = v)).toFinset = ((Finset.range n).erase v).image (Prod.mk v) := by
    ext ⟨v', w⟩
    rw [List.mem_toFinset, List.mem_filter, he, mem_numberedEdges hn, Finset.mem_image]
    simp only [Finset.mem_erase, Finset.mem_range, decide_eq_true_eq, Prod.mk.injEq]
    constructor
    · rintro ⟨⟨-, hw, hne⟩, rfl⟩
      exact ⟨w, ⟨hne.symm, hw⟩, rfl, rfl⟩
    · rintro ⟨w, ⟨hne, hw⟩, rfl, rfl⟩
      exact ⟨⟨hv, hw, hne.symm⟩, rfl⟩
  rw [List.countP_eq_length_filter, ← List.toFinset_card_of_nodup (hnodup.filter _), hrow,
    Finset.card_image_of_injective _ (Prod.mk_right_injective v), Finset.card_erase_of_mem (Finset.mem_range.mpr hv),
    Finset.card_range]

/-- All degrees are the same. -/
theorem sortedDegrees_complete (hn : 2 ≤ n) :
    sortedDegrees ((completeLines n).flatMap (numberedEdge (vertexIds (completeLines n)))) n
      = List.replicate n (n - 1) := by
  have hall : (List.range n).map (fun v => ((completeLines n).flatMap
      (numberedEdge (vertexIds (completeLines n)))).countP fun a => decide (a.1 = v)) = List.replicate n (n - 1) := by
    rw [List.eq_replicate_iff]
    refine ⟨by simp, fun d hd => ?_⟩
    obtain ⟨v, hv, rfl⟩ := List.mem_map.mp hd
    exact countP_numberedEdges hn (List.mem_range.mp hv)
  rw [sortedDegrees, hall]
  exact List.perm_replicate.mp (List.perm_insertionSort _ _)

/-- The graph that `load_complete` makes. -/
def loadedComplete (n : ℕ) : Graph where
  vCnt := n
  eCnt := (sortedEdges (completeLines n)).length
  edge := (sortedEdges (completeLines n)).map Prod.snd
  vertex := (List.range (n + 1)).map (fillVertex (sortedEdges (completeLines n)) n)
  maxDegree := n - 1
  maxIntersectionSize := n - 1

theorem length_numberedEdges (n : ℕ) :
    ((completeLines n).flatMap (numberedEdge (vertexIds (completeLines n)))).length = n * (n - 1) / 2 * 2 := by
  rw [List.length_flatMap, ← length_completeLines]
  simp [numberedEdge]

/-- The edges are sorted as the converter sorts them. -/
theorem unique_numberedEdges (n : ℕ) : unique (fun a b => a == b) (((completeLines n).flatMap
    (numberedEdge (vertexIds (completeLines n)))).insertionSort fun a b => cmpPair b a = false)
      = sortedEdges (completeLines n) := by
  have hcmp : ∀ a b, cmpPair a b = edgeLess a b := by
    intro a b
    rw [Bool.eq_iff_iff, edgeLess_iff, cmpPair, EdgeLT]
    simp
  rw [sortedEdges, sortEdges, properLines_completeLines]
  simp only [hcmp]

theorem loadComplete_eq (hn : 2 ≤ n) : loadComplete n = some (loadedComplete n) := by
  have hproper : ∀ line ∈ completeLines n, line.1 ≠ line.2 := by
    rintro ⟨v, w⟩ hmem
    exact (mem_completeLines.mp hmem).1.ne'
  have hdegree : ∀ i < n, (sortedDegrees ((completeLines n).flatMap
      (numberedEdge (vertexIds (completeLines n)))) n).getD i 0 = n - 1 := by
    intro i hi
    rw [sortedDegrees_complete hn, List.getD_replicate _ hi]
  rw [loadComplete, foldl_readEdge hproper]
  simp only [length_vertexIds_completeLines hn, length_numberedEdges, unique_numberedEdges, ne_eq,
    not_true_eq_false, or_self, if_false, hdegree (n - 1) (by omega), hdegree (n - 2) (by omega)]
  rfl

theorem sortedEdges_le : (sortedEdges (completeLines n)).Pairwise fun a b => a.1 ≤ b.1 := by
  apply sortedEdges_pairwise.imp
  intro a b h
  unfold EdgeLT at h
  omega

theorem sortedEdges_first (hn : 2 ≤ n) : ∀ a ∈ sortedEdges (completeLines n), a.1 < n := by
  rintro ⟨v, w⟩ hmem
  exact ((joined_completeLines hn).mp (mem_sortedEdges.mp hmem)).1

theorem loadedComplete_vertex (hn : 2 ≤ n) {v : ℕ} (hv : v ≤ n) :
    (loadedComplete n).vertex.getD v 0 = Rows.start (sortedEdges (completeLines n)) v := by
  have hv' : v < (loadedComplete n).vertex.length := by
    rw [loadedComplete, List.length_map, List.length_range]
    omega
  rw [List.getD_eq_getElem _ _ hv']
  simp only [loadedComplete, List.getElem_map, List.getElem_range]
  exact fillVertex_eq sortedEdges_le (sortedEdges_first hn) hv

theorem loadedComplete_row (hn : 2 ≤ n) {v : ℕ} (hv : v < n) :
    (loadedComplete n).row v = edgeRow (completeLines n) v := by
  rw [Graph.row, loadedComplete_vertex hn hv.le, loadedComplete_vertex hn hv, Rows.start_succ,
    Nat.add_sub_cancel_left, loadedComplete, ← List.map_drop, ← List.map_take,
    Rows.take_drop_eq_filter sortedEdges_le]
  rfl

theorem loadedComplete_adj (hn : 2 ≤ n) {v : ℕ} (hv : v < n) (w : ℕ) :
    (loadedComplete n).toGraph.Adj v w ↔ w < n ∧ w ≠ v := by
  have hiff : (loadedComplete n).toGraph.Adj v w ↔ w ∈ edgeRow (completeLines n) v := by
    rw [← loadedComplete_row hn hv]
    exact Iff.rfl
  rw [hiff, mem_edgeRow, joined_completeLines hn]
  constructor
  · rintro ⟨-, hw, hne⟩
    exact ⟨hw, hne.symm⟩
  · rintro ⟨hw, hne⟩
    exact ⟨hv, hw, hne.symm⟩

theorem loadedComplete_row_length (hn : 2 ≤ n) {v : ℕ} (hv : v < n) :
    ((loadedComplete n).row v).length ≤ n - 1 := by
  have hsub : (loadedComplete n).row v ⊆ (List.range n).erase v := by
    intro w hw
    have hjoined := (loadedComplete_adj hn hv w).mp hw
    exact List.nodup_range.mem_erase_iff.mpr ⟨hjoined.2, List.mem_range.mpr hjoined.1⟩
  have hsorted : ((loadedComplete n).row v).SortedLT := loadedComplete_row hn hv ▸ edgeRow_sortedLT v
  have hle := (List.subperm_of_subset hsorted.nodup hsub).length_le
  rwa [List.length_erase_of_mem (List.mem_range.mpr hv), List.length_range] at hle

theorem loadedComplete_loaded (hn : 2 ≤ n) (hlt : n < 2 ^ 16) : (loadedComplete n).Loaded := by
  refine ⟨hlt.trans (by norm_num), ?_, fun v => loadedComplete_row_length hn, fun v hv w _ _ => ?_⟩
  · have hall : n * (n - 1) ≤ 2 ^ 16 * (2 ^ 16 - 1) := Nat.mul_le_mul hlt.le (by omega)
    have hsub : (sortedEdges (completeLines n)).length ≤ n * (n - 1) / 2 * 2 := by
      rw [← length_numberedEdges, ← unique_numberedEdges]
      exact (unique_sublist _).length_le.trans (List.length_insertionSort _ _).le
    exact show (sortedEdges (completeLines n)).length < 2 ^ 32 by omega
  · exact (min_le_left _ _).trans (loadedComplete_row_length hn hv)

theorem loadedComplete_valid (hn : 2 ≤ n) (hlt : n < 2 ^ 16) : (loadedComplete n).toGraph.Valid := by
  have hinvalid : n < invalidId := hlt.trans (by decide)
  refine ⟨?_, ?_, ?_, ?_, ?_, ?_, ?_, ?_, ?_, hinvalid⟩
  · exact (loadedComplete_vertex hn (Nat.zero_le n)).trans (Rows.start_zero _)
  · intro v hv
    calc (loadedComplete n).vertex.getD v 0 = Rows.start (sortedEdges (completeLines n)) v :=
          loadedComplete_vertex hn (le_of_lt hv)
      _ ≤ Rows.start (sortedEdges (completeLines n)) (v + 1) := Rows.start_mono _ (Nat.le_succ v)
      _ = (loadedComplete n).vertex.getD (v + 1) 0 := (loadedComplete_vertex hn hv).symm
  · exact (loadedComplete_vertex hn le_rfl).trans (Rows.start_eq_length (sortedEdges_first hn))
  · exact List.length_map _
  · intro v hv
    have hsorted : ((loadedComplete n).row v).SortedLT := loadedComplete_row hn hv ▸ edgeRow_sortedLT v
    exact hsorted
  · intro v hv w hw
    exact ((loadedComplete_adj hn hv w).mp hw).1
  · intro v hv w hw
    have hjoined := (loadedComplete_adj hn hv w).mp hw
    exact (loadedComplete_adj hn hjoined.1 v).mpr ⟨hv, hjoined.2.symm⟩
  · intro v hv h
    exact ((loadedComplete_adj hn hv v).mp h).2 rfl
  · intro v hv
    have hv' : v < ((List.range (loadedComplete n).vCnt).map fun v =>
        ((loadedComplete n).row v).countP fun x => decide (x < v)).length := by
      rw [List.length_map, List.length_range]
      exact hv
    calc (loadedComplete n).toGraph.offset.getD v 0
        = ((loadedComplete n).row v).countP fun x => decide (x < v) := by
          rw [Graph.toGraph, List.getD_eq_getElem _ _ hv', List.getElem_map, List.getElem_range]
      _ = ((loadedComplete n).toGraph.N v).data.countP fun x => decide (x < v) := rfl

/-- `load_complete` gives the complete graph, with sorted rows. -/
theorem loadComplete_spec (hn : 2 ≤ n) (hlt : n < 2 ^ 16) :
    ∃ g, loadComplete n = some g ∧ g.vCnt = n ∧ g.toGraph.Valid
      ∧ (∀ v < n, ∀ w, g.toGraph.Adj v w ↔ w < n ∧ w ≠ v) ∧ g.Loaded ∧ g.maxIntersectionSize = n - 1 :=
  ⟨loadedComplete n, loadComplete_eq hn, rfl, loadedComplete_valid hn hlt, fun _ hv w => loadedComplete_adj hn hv w,
    loadedComplete_loaded hn hlt, rfl⟩

end

end GraphPi

end GraphMini
