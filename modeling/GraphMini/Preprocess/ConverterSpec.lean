import GraphMini.Lib.Rows
import GraphMini.Preprocess.Numbering

/-!
# What the converter writes

The sorted pairs without duplicates fall into the rows of the graph. Degrees, row starts and offsets
are counts over these pairs, and none of them leaves the range of its machine type.
-/

namespace GraphMini

open StdAlgorithm

/-- The number of an id. -/
def idNumber (lines : List (ℕ × ℕ)) (id : ℕ) : ℕ := (vertexIds lines).idxOf id

/-- The vertices `v` and `w` are the two ends of a proper line. -/
def Joined (lines : List (ℕ × ℕ)) (v w : ℕ) : Prop :=
  ∃ line ∈ properLines lines, (idNumber lines line.1 = v ∧ idNumber lines line.2 = w)
    ∨ (idNumber lines line.1 = w ∧ idNumber lines line.2 = v)

/-- The pairs of joined vertices, as the converter sorts them. -/
def sortedEdges (lines : List (ℕ × ℕ)) : List (ℕ × ℕ) :=
  unique (fun a b => a == b)
    (sortEdges ((properLines lines).flatMap (numberedEdge (vertexIds lines))))

/-- `a` comes before `b` in the order of the rows. -/
def EdgeLT (a b : ℕ × ℕ) : Prop := a.1 < b.1 ∨ (a.1 = b.1 ∧ a.2 < b.2)

section Edges

theorem edgeLess_iff {a b : ℕ × ℕ} : edgeLess a b = true ↔ EdgeLT a b := by
  unfold edgeLess EdgeLT
  split <;> simp only [decide_eq_true_eq] <;> omega

/-- Removing duplicates from a sorted list leaves a strictly sorted one. -/
theorem unique_pairwise {l : List (ℕ × ℕ)} (h : l.Pairwise fun a b => ¬ EdgeLT b a) :
    (unique (fun a b => a == b) l).Pairwise EdgeLT := by
  fun_induction unique (fun a b : ℕ × ℕ => a == b) l with
  | case1 => exact List.Pairwise.nil
  | case2 x => exact List.pairwise_singleton _ _
  | case3 x y rest hsame ih =>
      obtain rfl : x = y := by simpa using hsame
      exact ih (List.pairwise_cons.mp h).2
  | case4 x y rest hsame ih =>
      have hxy : x ≠ y := by simpa using hsame
      obtain ⟨hx, hrest⟩ := List.pairwise_cons.mp h
      refine List.pairwise_cons.mpr ⟨fun z hz => ?_, ih hrest⟩
      have hz : z ∈ y :: rest := (unique_sublist _).mem hz
      have hxz := hx z hz
      have hle : ¬ EdgeLT y x := hx y List.mem_cons_self
      have hyz : ¬ EdgeLT z y := by
        rcases List.mem_cons.mp hz with rfl | hz
        · unfold EdgeLT
          omega
        · exact (List.pairwise_cons.mp hrest).1 z hz
      have hne : x.1 ≠ y.1 ∨ x.2 ≠ y.2 := by
        by_contra hcon
        exact hxy (Prod.ext (by omega) (by omega))
      unfold EdgeLT at *
      omega

variable {lines : List (ℕ × ℕ)}

theorem sortedEdges_pairwise : (sortedEdges lines).Pairwise EdgeLT := by
  have hless : ∀ a b : ℕ × ℕ, edgeLess b a = false ↔ ¬ EdgeLT b a := by
    intro a b
    rw [← edgeLess_iff, Bool.not_eq_true]
  have htotal : Std.Total fun a b : ℕ × ℕ => edgeLess b a = false := by
    constructor
    intro a b
    simp only [hless, EdgeLT]
    omega
  have htrans : IsTrans (ℕ × ℕ) fun a b => edgeLess b a = false := by
    constructor
    intro a b c hab hbc
    simp only [hless, EdgeLT] at *
    omega
  exact unique_pairwise ((List.pairwise_insertionSort _ _).imp fun h => (hless _ _).mp h)

theorem mem_sortedEdges {v w : ℕ} : (v, w) ∈ sortedEdges lines ↔ Joined lines v w := by
  rw [sortedEdges, mem_unique (by simp), sortEdges, List.mem_insertionSort, List.mem_flatMap]
  refine exists_congr fun line => and_congr_right fun _ => ?_
  simp only [numberedEdge, List.mem_cons, Prod.mk.injEq, List.not_mem_nil, or_false, idNumber,
    eq_comm]
  tauto

theorem idNumber_lt {line : ℕ × ℕ} (hline : line ∈ properLines lines) :
    idNumber lines line.1 < (vertexIds lines).length
      ∧ idNumber lines line.2 < (vertexIds lines).length :=
  ⟨List.idxOf_lt_length_of_mem (mem_vertexIds.mpr ⟨line, hline, Or.inl rfl⟩),
    List.idxOf_lt_length_of_mem (mem_vertexIds.mpr ⟨line, hline, Or.inr rfl⟩)⟩

namespace Joined

variable {v w : ℕ}

theorem symm (h : Joined lines v w) : Joined lines w v := by
  obtain ⟨line, hline, hends⟩ := h
  exact ⟨line, hline, hends.symm⟩

theorem lt (h : Joined lines v w) : v < (vertexIds lines).length := by
  obtain ⟨line, hline, ⟨rfl, rfl⟩ | ⟨rfl, rfl⟩⟩ := h
  · exact (idNumber_lt hline).1
  · exact (idNumber_lt hline).2

theorem ne (h : Joined lines v w) : v ≠ w := by
  have hproper : ∀ line ∈ properLines lines, idNumber lines line.1 ≠ idNumber lines line.2 := by
    intro line hline heq
    have hne : line.1 ≠ line.2 := by simpa using (List.mem_filter.mp hline).2
    exact hne ((List.idxOf_inj (mem_vertexIds.mpr ⟨line, hline, Or.inl rfl⟩)).mp heq)
  obtain ⟨line, hline, ⟨rfl, rfl⟩ | ⟨rfl, rfl⟩⟩ := h
  · exact hproper line hline
  · exact (hproper line hline).symm

end Joined

theorem sortedEdges_nodup : (sortedEdges lines).Nodup :=
  sortedEdges_pairwise.imp fun {a b} h heq => by
    subst heq
    unfold EdgeLT at h
    omega

/-- There are at most as many pairs as there are pairs of vertices. -/
theorem length_sortedEdges_le (lines : List (ℕ × ℕ)) :
    (sortedEdges lines).length ≤ (vertexIds lines).length * (vertexIds lines).length := by
  have hsub : (sortedEdges lines).toFinset
      ⊆ Finset.range (vertexIds lines).length ×ˢ Finset.range (vertexIds lines).length := by
    rintro ⟨v, w⟩ hmem
    have hjoined := mem_sortedEdges.mp (List.mem_toFinset.mp hmem)
    simpa using ⟨hjoined.lt, hjoined.symm.lt⟩
  have hcard := Finset.card_le_card hsub
  rwa [List.toFinset_card_of_nodup sortedEdges_nodup, Finset.card_product, Finset.card_range]
    at hcard

/-- The row of a vertex. -/
def edgeRow (lines : List (ℕ × ℕ)) (v : ℕ) : List ℕ :=
  ((sortedEdges lines).filter fun e => decide (e.1 = v)).map Prod.snd

theorem mem_edgeRow {v w : ℕ} : w ∈ edgeRow lines v ↔ Joined lines v w := by
  rw [← mem_sortedEdges, edgeRow, List.mem_map]
  constructor
  · rintro ⟨e, he, rfl⟩
    obtain ⟨hmem, hfst⟩ := List.mem_filter.mp he
    obtain rfl : e.1 = v := by simpa using hfst
    exact hmem
  · exact fun hmem => ⟨(v, w), List.mem_filter.mpr ⟨hmem, by simp⟩, rfl⟩

theorem edgeRow_sortedLT (v : ℕ) : (edgeRow lines v).SortedLT := by
  refine List.Pairwise.sortedLT (List.pairwise_map.mpr ?_)
  refine List.Pairwise.imp_of_mem ?_ (sortedEdges_pairwise.filter _)
  intro a b ha hb hlt
  have ha' : a.1 = v := by simpa using (List.mem_filter.mp ha).2
  have hb' : b.1 = v := by simpa using (List.mem_filter.mp hb).2
  unfold EdgeLT at hlt
  omega

theorem length_edgeRow_le (v : ℕ) : (edgeRow lines v).length ≤ (vertexIds lines).length := by
  have hsub : (edgeRow lines v).toFinset ⊆ Finset.range (vertexIds lines).length := by
    intro w hw
    exact Finset.mem_range.mpr (mem_edgeRow.mp (List.mem_toFinset.mp hw)).symm.lt
  have hcard := Finset.card_le_card hsub
  rwa [List.toFinset_card_of_nodup (edgeRow_sortedLT v).nodup, Finset.card_range] at hcard

theorem length_edgeRow (v : ℕ) : (edgeRow lines v).length = Rows.width (sortedEdges lines) v := by
  rw [edgeRow, List.length_map, Rows.width, List.countP_eq_length_filter]

end Edges

/-! ### The loops of the converter -/

section Loops

/-- Counting the pairs of every row. -/
theorem foldl_modify_getD {edges : List (ℕ × ℕ)} {degrees : List ℕ} {u : ℕ}
    (hu : u < degrees.length) (hroom : degrees.getD u 0 + edges.length < 2 ^ 64) :
    (edges.foldl (fun degrees pair => degrees.modify pair.1 fun d => add64 d 1) degrees).getD u 0
      = degrees.getD u 0 + Rows.width edges u := by
  induction edges generalizing degrees with
  | nil => rfl
  | cons e edges ih =>
      have hget : (degrees.modify e.1 fun d => add64 d 1).getD u 0
          = degrees.getD u 0 + if e.1 = u then 1 else 0 := by
        rw [List.getD_eq_getElem _ _ (by simpa using hu), List.getElem_modify,
          List.getD_eq_getElem _ _ hu]
        split
        · rw [List.getD_eq_getElem _ _ hu, List.length_cons] at hroom
          simp only [add64]
          omega
        · rfl
      have hle : (if e.1 = u then 1 else 0) ≤ 1 := by split <;> omega
      rw [List.length_cons] at hroom
      rw [List.foldl_cons, ih (by simpa using hu) (by omega), hget]
      simp only [Rows.width, List.countP_cons, decide_eq_true_eq]
      omega

theorem length_foldl_modify (edges : List (ℕ × ℕ)) (degrees : List ℕ) :
    (edges.foldl (fun degrees pair => degrees.modify pair.1 fun d => add64 d 1) degrees).length
      = degrees.length := by
  induction edges generalizing degrees with
  | nil => rfl
  | cons e edges ih => rw [List.foldl_cons, ih, List.length_modify]

theorem length_prefixSum (acc : ℕ) (vec : List ℕ) :
    (prefixSum acc vec).length = vec.length + 1 := by
  induction vec generalizing acc with
  | nil => rfl
  | cons x vec ih => rw [prefixSum, List.length_cons, ih, List.length_cons]

/-- A prefix sum that fits is the sum. -/
theorem prefixSum_getD {acc : ℕ} {vec : List ℕ} (hroom : acc + vec.sum < 2 ^ 64) {i : ℕ}
    (hi : i ≤ vec.length) : (prefixSum acc vec).getD i 0 = acc + (vec.take i).sum := by
  induction vec generalizing acc i with
  | nil =>
      obtain rfl : i = 0 := by simpa using hi
      simp [prefixSum]
  | cons x vec ih =>
      cases i with
      | zero => simp [prefixSum]
      | succ i =>
          have hadd : add64 acc x = acc + x := by
            simp only [add64, List.sum_cons] at *
            omega
          rw [prefixSum, List.getD_cons_succ, hadd, ih (by simpa [add_assoc] using hroom)
            (by simpa using hi), List.take_succ_cons, List.sum_cons, add_assoc]

theorem parallelMax_map_range (f : ℕ → ℕ) (n : ℕ) :
    parallelMax ((List.range n).map f) = (Finset.range n).sup f := by
  induction n with
  | zero => rfl
  | succ n ih =>
      rw [parallelMax] at *
      rw [List.range_succ, List.map_append, List.foldl_append, ih, Finset.range_add_one,
        Finset.sup_insert, sup_comm]
      rfl

end Loops

end GraphMini
