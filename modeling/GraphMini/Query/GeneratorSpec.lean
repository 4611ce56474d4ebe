import GraphMini.Query.Generator
import Mathlib.Combinatorics.SimpleGraph.Connectivity.Connected

/-!
# What the query generator guarantees

The queue of the search never holds more than one node: the nodes are the vertices of the walk that the
draws choose, up to its first return to a node. The query is right exactly if the walk does not return
before it has enough vertices, and no two of them are joined by more than one line of the file.
-/

namespace GraphMini

namespace QueryGenerator

section

variable {g : DataGraph} {choice : ℕ → ℕ} {target start u v : ℕ} {nodes : List ℕ}

theorem mem_neighbors_comm : v ∈ neighbors g u ↔ u ∈ neighbors g v := by
  rw [← List.count_pos_iff, ← List.count_pos_iff]
  have := g.symm u v
  simp only [multiplicity] at this
  rw [neighbors, neighbors, this]

theorem chosen_mem (draw : ℕ) (hu : neighbors g u ≠ []) :
    chosen g choice draw u ∈ neighbors g u := by
  have hlt : choice draw % (neighbors g u).length < (neighbors g u).length :=
    Nat.mod_lt _ (List.length_pos_of_ne_nil hu)
  rw [chosen, List.getD_eq_getElem _ _ hlt]
  exact List.getElem_mem hlt

variable (g choice start) in
/-- The walk that the draws choose. -/
def walk : ℕ → ℕ
  | 0 => start
  | k + 1 => chosen g choice k (walk k)

variable (hstart : neighbors g start ≠ [])

include hstart

theorem neighbors_walk_ne_nil (k : ℕ) : neighbors g (walk g choice start k) ≠ [] := by
  induction k with
  | zero => exact hstart
  | succ k ih => exact List.ne_nil_of_mem (mem_neighbors_comm.mp (chosen_mem k ih))

theorem walk_succ_mem (k : ℕ) :
    walk g choice start (k + 1) ∈ neighbors g (walk g choice start k) :=
  chosen_mem k (neighbors_walk_ne_nil hstart k)

theorem walk_lt (hlt : start < g.numVertices) (k : ℕ) : walk g choice start k < g.numVertices := by
  cases k with
  | zero => exact hlt
  | succ k => exact g.inRange _ _ (walk_succ_mem hstart k)

/-- The search goes on along the walk as long as it meets new nodes. -/
theorem gather_walk (hnodup : ((List.range target).map (walk g choice start)).Nodup) (k : ℕ)
    (hk : k + 1 ≤ target) :
    gather g choice target k ((List.range (k + 1)).map (walk g choice start))
      [walk g choice start k] = (List.range target).map (walk g choice start) := by
  rw [gather]
  rcases Nat.lt_or_ge (k + 1) target with hlt | hge
  · have hnew : chosen g choice k (walk g choice start k)
        ∉ (List.range (k + 1)).map (walk g choice start) := by
      intro hmem
      obtain ⟨i, hi, heq⟩ := List.mem_map.mp hmem
      have hi := List.mem_range.mp hi
      have := List.inj_on_of_nodup_map hnodup (List.mem_range.mpr (by omega))
        (List.mem_range.mpr hlt) heq
      omega
    rw [if_pos (by simpa using hlt), if_neg (neighbors_walk_ne_nil hstart k), if_neg hnew]
    have ih := gather_walk hnodup (k + 1) hlt
    rw [List.range_succ, List.map_append, List.map_singleton] at ih
    exact ih
  · obtain rfl : target = k + 1 := by omega
    rw [if_neg (by simp)]
termination_by target - k

/-- A walk that returns too early leaves the query too small. -/
theorem length_gather_lt (hreturn : ¬ ((List.range target).map (walk g choice start)).Nodup) (k : ℕ)
    (hnodup : ((List.range (k + 1)).map (walk g choice start)).Nodup) (hk : k + 1 ≤ target) :
    (gather g choice target k ((List.range (k + 1)).map (walk g choice start))
      [walk g choice start k]).length < target := by
  rw [gather]
  rcases Nat.lt_or_ge (k + 1) target with hlt | hge
  · rw [if_pos (by simpa using hlt), if_neg (neighbors_walk_ne_nil hstart k)]
    by_cases hold : chosen g choice k (walk g choice start k)
        ∈ (List.range (k + 1)).map (walk g choice start)
    · rw [if_pos hold, gather, if_pos (by simpa using hlt)]
      simpa using hlt
    · rw [if_neg hold]
      have hsucc : (List.range (k + 1 + 1)).map (walk g choice start)
          = (List.range (k + 1)).map (walk g choice start) ++ [walk g choice start (k + 1)] := by
        rw [List.range_succ, List.map_append, List.map_singleton]
      have ih := length_gather_lt hreturn (k + 1)
        (hsucc ▸ hnodup.append (List.nodup_singleton _) (List.disjoint_singleton.mpr hold)) hlt
      rw [hsucc] at ih
      exact ih
  · obtain rfl : target = k + 1 := by omega
    exact absurd hnodup hreturn
termination_by target - k

end

/-! ### The edges of a query -/

section

variable {g : DataGraph} {nodes : List ℕ}

theorem idxOf_eq_iff (hnodup : nodes.Nodup) {v i : ℕ} (hi : i < nodes.length) :
    (v ∈ nodes ∧ nodes.idxOf v = i) ↔ v = nodes[i] := by
  constructor
  · rintro ⟨hv, rfl⟩
    exact (List.getElem_idxOf (List.idxOf_lt_length_of_mem hv)).symm
  · rintro rfl
    exact ⟨List.getElem_mem hi, hnodup.idxOf_getElem i hi⟩

/-- The lines that a node writes for a pair of places. -/
theorem count_row (hnodup : nodes.Nodup) {u i j : ℕ} (hj : j < nodes.length) :
    (((neighbors g u).filter fun v =>
        decide (v ∈ nodes) && decide (nodes.idxOf u < nodes.idxOf v)).map
      fun v => (nodes.idxOf u, nodes.idxOf v)).count (i, j)
      = if nodes.idxOf u = i ∧ i < j then (neighbors g u).count nodes[j] else 0 := by
  rw [List.count_eq_countP, List.countP_map, List.countP_filter]
  by_cases hcase : nodes.idxOf u = i ∧ i < j
  · obtain ⟨rfl, hlt⟩ := hcase
    rw [if_pos ⟨rfl, hlt⟩, List.count_eq_countP]
    apply List.countP_congr
    intro v _
    have hiff := idxOf_eq_iff hnodup (v := v) hj
    simp only [Function.comp_apply, Bool.and_eq_true, beq_iff_eq, Prod.mk.injEq, true_and,
      decide_eq_true_eq, ← hiff]
    constructor
    · rintro ⟨hv, hmem, -⟩
      exact ⟨hmem, hv⟩
    · rintro ⟨hmem, hv⟩
      exact ⟨hv, hmem, by omega⟩
  · rw [if_neg hcase, List.countP_eq_zero]
    intro v _
    simp only [Function.comp_apply, Bool.and_eq_true, beq_iff_eq, Prod.mk.injEq, decide_eq_true_eq]
    rintro ⟨⟨rfl, rfl⟩, -, hlt⟩
    exact hcase ⟨rfl, hlt⟩

theorem count_queryEdges (hnodup : nodes.Nodup) {i j : ℕ} (hi : i < nodes.length)
    (hj : j < nodes.length) : (queryEdges g nodes).count (i, j)
      = if i < j then multiplicity g.adjList nodes[i] nodes[j] else 0 := by
  rw [queryEdges, List.count_flatMap]
  calc _ = (nodes.map fun u => if u = nodes[i] ∧ i < j then (neighbors g u).count nodes[j] else 0).sum := by
        congr 1
        apply List.map_congr_left
        intro u hu
        have hiff := idxOf_eq_iff hnodup (v := u) hi
        rw [Function.comp_apply, count_row hnodup hj]
        simp only [← hiff, hu, true_and]
    _ = ∑ u ∈ nodes.toFinset, if u = nodes[i] ∧ i < j then (neighbors g u).count nodes[j] else 0 :=
        (List.sum_toFinset _ hnodup).symm
    _ = if nodes[i] = nodes[i] ∧ i < j then (neighbors g nodes[i]).count nodes[j] else 0 := by
        apply Finset.sum_eq_single
        · intro u _ hne
          exact if_neg fun h => hne h.1
        · intro hnot
          exact absurd (List.mem_toFinset.mpr (List.getElem_mem hi)) hnot
    _ = if i < j then multiplicity g.adjList nodes[i] nodes[j] else 0 := by
        simp only [true_and]
        rfl

/-- In one of the two directions each pair of places is written as often as its nodes are joined. -/
theorem count_add_count (hnodup : nodes.Nodup) {i j : ℕ} (hi : i < nodes.length)
    (hj : j < nodes.length) (hne : i ≠ j) :
    (queryEdges g nodes).count (i, j) + (queryEdges g nodes).count (j, i)
      = multiplicity g.adjList nodes[i] nodes[j] := by
  rw [count_queryEdges hnodup hi hj, count_queryEdges hnodup hj hi]
  rcases Nat.lt_or_gt_of_ne hne with hlt | hgt
  · rw [if_pos hlt, if_neg hlt.not_gt, Nat.add_zero]
  · rw [if_neg hgt.not_gt, if_pos hgt, Nat.zero_add, g.symm]

theorem of_mem_queryEdges {e : ℕ × ℕ} (he : e ∈ queryEdges g nodes) :
    e.1 < nodes.length ∧ e.2 < nodes.length ∧ e.1 ≠ e.2 := by
  obtain ⟨u, hu, he⟩ := List.mem_flatMap.mp he
  obtain ⟨v, hv, rfl⟩ := List.mem_map.mp he
  obtain ⟨-, hv⟩ := List.mem_filter.mp hv
  simp only [Bool.and_eq_true, decide_eq_true_eq] at hv
  exact ⟨List.idxOf_lt_length_of_mem hu, List.idxOf_lt_length_of_mem hv.1, hv.2.ne⟩

end

/-! ### The guarantee -/

/-- The graph of a query. -/
def Query.graph (q : Query) : SimpleGraph (Fin q.numVertices) :=
  SimpleGraph.fromRel fun i j => (i.val, j.val) ∈ q.edges

/-- The query has the wanted number of vertices, is connected, and lists each edge of the subgraph that
the nodes induce once, in one direction, and nothing else. -/
structure Query.Guaranteed (q : Query) (g : DataGraph) (nodes : List ℕ) (target : ℕ) : Prop where
  numVertices : q.numVertices = target
  length_nodes : nodes.length = q.numVertices
  nodup : nodes.Nodup
  connected : q.graph.Connected
  once : ∀ i j (hi : i < nodes.length) (hj : j < nodes.length), i ≠ j →
    q.edges.count (i, j) + q.edges.count (j, i) = if nodes[j] ∈ neighbors g nodes[i] then 1 else 0
  nothingElse : ∀ e ∈ q.edges, e.1 < nodes.length ∧ e.2 < nodes.length ∧ e.1 ≠ e.2

section

variable {g : DataGraph} {choice : ℕ → ℕ} {target start : ℕ} {nodes : List ℕ}

theorem count_le_one_iff {l : List ℕ} {x : ℕ} : l.count x ≤ 1 ↔ l.count x = if x ∈ l then 1 else 0 := by
  have hpos := List.count_pos_iff (l := l) (a := x)
  split
  · rename_i hx
    have := hpos.mpr hx
    omega
  · rename_i hx
    rw [List.count_eq_zero_of_not_mem hx]
    simp

/-- Neighbours among the nodes are joined in the query. -/
theorem graph_adj_of_mem_neighbors (hnodup : nodes.Nodup) {i j : Fin nodes.length} (hne : i ≠ j)
    (hmem : nodes[j] ∈ neighbors g nodes[i]) :
    (Query.graph { numVertices := nodes.length, edges := queryEdges g nodes }).Adj i j := by
  have hcount := count_add_count (g := g) hnodup i.isLt j.isLt (Fin.val_ne_of_ne hne)
  have hpos : 0 < multiplicity g.adjList nodes[i] nodes[j] := List.count_pos_iff.mpr hmem
  rw [Query.graph, SimpleGraph.fromRel_adj]
  refine ⟨hne, ?_⟩
  by_contra hnot
  obtain ⟨hforth, hback⟩ := not_or.mp hnot
  rw [List.count_eq_zero_of_not_mem hforth, List.count_eq_zero_of_not_mem hback] at hcount
  simp only [Fin.getElem_fin] at hpos
  omega

/-- The vertices of a walk are connected by it. -/
theorem connected_of_walk (hstart : neighbors g start ≠ [])
    (hperm : nodes.Perm ((List.range target).map (walk g choice start)))
    (hnodup : nodes.Nodup) (hpos : 1 ≤ target) :
    (Query.graph { numVertices := nodes.length, edges := queryEdges g nodes }).Connected := by
  have hmem : ∀ k < target, walk g choice start k ∈ nodes := fun k hk =>
    hperm.mem_iff.mpr (List.mem_map_of_mem (List.mem_range.mpr hk))
  have hwalk : ∀ k, ∀ hk : k < target,
      (Query.graph { numVertices := nodes.length, edges := queryEdges g nodes }).Reachable
        ⟨nodes.idxOf start, List.idxOf_lt_length_of_mem (hmem 0 (by omega))⟩
        ⟨nodes.idxOf (walk g choice start k), List.idxOf_lt_length_of_mem (hmem k hk)⟩ := by
    intro k hk
    induction k with
    | zero => rfl
    | succ k ih =>
        refine (ih (by omega)).trans ?_
        by_cases hsame : (⟨nodes.idxOf (walk g choice start k),
            List.idxOf_lt_length_of_mem (hmem k (by omega))⟩ : Fin nodes.length)
            = ⟨nodes.idxOf (walk g choice start (k + 1)), List.idxOf_lt_length_of_mem (hmem _ hk)⟩
        · rw [hsame]
        · apply SimpleGraph.Adj.reachable
          apply graph_adj_of_mem_neighbors hnodup hsame
          simpa using walk_succ_mem hstart k
  have hall : ∀ i : Fin nodes.length,
      (Query.graph { numVertices := nodes.length, edges := queryEdges g nodes }).Reachable
        ⟨nodes.idxOf start, List.idxOf_lt_length_of_mem (hmem 0 (by omega))⟩ i := by
    intro i
    obtain ⟨k, hk, hvalue⟩ := List.mem_map.mp (hperm.mem_iff.mp (List.getElem_mem i.isLt))
    have hidx : nodes.idxOf (walk g choice start k) = i := by
      rw [hvalue]
      exact hnodup.idxOf_getElem i i.isLt
    have hreach := hwalk k (List.mem_range.mp hk)
    simp only [hidx] at hreach
    exact hreach
  exact (SimpleGraph.connected_iff_exists_forall_reachable _).mpr ⟨_, hall⟩

theorem target_le_numVertices (hlt : start < g.numVertices) (hstart : neighbors g start ≠ [])
    (hnodup : ((List.range target).map (walk g choice start)).Nodup) : target ≤ g.numVertices := by
  have hsub : (List.range target).map (walk g choice start) ⊆ List.range g.numVertices := by
    intro v hv
    obtain ⟨k, -, rfl⟩ := List.mem_map.mp hv
    exact List.mem_range.mpr (walk_lt hstart hlt k)
  simpa using (hnodup.subperm hsub).length_le

end

/-- The query is what it should be exactly if the walk of the draws does not return within the wanted
number of vertices, and no two of them are joined by more than one line of the file. -/
theorem guaranteed_iff (enumerate : List ℕ → List ℕ) (henum : ∀ l, (enumerate l).Perm l)
    (g : DataGraph) (target start : ℕ) (choice : ℕ → ℕ) (hlt : start < g.numVertices)
    (hstart : neighbors g start ≠ []) :
    (∃ q, generate enumerate g target start choice = some q ∧
      q.Guaranteed g (enumerate (gather g choice target 0 [start] [start])) target) ↔
    1 ≤ target ∧ ((List.range target).map (walk g choice start)).Nodup ∧
      ∀ i < target, ∀ j < target, i ≠ j →
        multiplicity g.adjList (walk g choice start i) (walk g choice start j) ≤ 1 := by
  have hone : ((List.range (0 + 1)).map (walk g choice start)) = [start] := rfl
  set nodes := enumerate (gather g choice target 0 [start] [start]) with hnodes
  have hperm : nodes.Perm (gather g choice target 0 [start] [start]) := henum _
  constructor
  · rintro ⟨q, hq, hgood⟩
    rw [generate] at hq
    split at hq
    · simp at hq
    obtain rfl := Option.some.inj hq
    have hlen : (gather g choice target 0 [start] [start]).length = target := by
      rw [← hperm.length_eq]
      exact hgood.numVertices
    have hpos : 1 ≤ target := by
      by_contra hzero
      rw [gather, if_neg (by simp; omega)] at hlen
      simp at hlen
      omega
    have hnodup : ((List.range target).map (walk g choice start)).Nodup := by
      by_contra hreturn
      have hshort := length_gather_lt hstart hreturn 0
        (by rw [hone]; exact List.nodup_singleton _) hpos
      rw [hone] at hshort
      exact absurd hlen hshort.ne
    have hgather := gather_walk hstart hnodup 0 hpos
    rw [hone] at hgather
    rw [show walk g choice start 0 = start from rfl] at hgather
    refine ⟨hpos, hnodup, fun i hi j hj hne => ?_⟩
    have hmem : ∀ k < target, walk g choice start k ∈ nodes := by
      intro k hk
      rw [hperm.mem_iff, hgather]
      exact List.mem_map_of_mem (List.mem_range.mpr hk)
    obtain ⟨a, ha, hai⟩ := List.getElem_of_mem (hmem i hi)
    obtain ⟨b, hb, hbj⟩ := List.getElem_of_mem (hmem j hj)
    have hab : a ≠ b := by
      rintro rfl
      exact hne (List.inj_on_of_nodup_map hnodup (List.mem_range.mpr hi) (List.mem_range.mpr hj)
        (hai.symm.trans hbj))
    have hcount := hgood.once a b ha hb hab
    rw [count_add_count hgood.nodup ha hb hab, hai, hbj] at hcount
    rw [hcount]
    split <;> omega
  · rintro ⟨hpos, hnodup, hsingle⟩
    have hgather := gather_walk hstart hnodup 0 hpos
    rw [hone] at hgather
    rw [show walk g choice start 0 = start from rfl] at hgather
    rw [hgather] at hperm
    have hnodes : nodes.Nodup := hperm.nodup_iff.mpr hnodup
    have hlen : nodes.length = target := by
      rw [hperm.length_eq]
      simp
    refine ⟨{ numVertices := nodes.length, edges := queryEdges g nodes }, ?_, hlen, rfl, hnodes,
      connected_of_walk hstart hperm hnodes hpos, fun i j hi hj hne => ?_, fun e he =>
        of_mem_queryEdges he⟩
    · rw [generate, if_neg (not_lt.mpr (target_le_numVertices hlt hstart hnodup))]
    · rw [count_add_count hnodes hi hj hne]
      apply count_le_one_iff.mp
      obtain ⟨k, hk, hki⟩ := List.mem_map.mp (hperm.mem_iff.mp (List.getElem_mem hi))
      obtain ⟨m, hm, hmj⟩ := List.mem_map.mp (hperm.mem_iff.mp (List.getElem_mem hj))
      have hkm : k ≠ m := by
        rintro rfl
        exact hne ((hnodes.getElem_inj_iff).mp (hki.symm.trans hmj))
      have := hsingle k (List.mem_range.mp hk) m (List.mem_range.mp hm) hkm
      rw [hki, hmj] at this
      exact this

/-- In a triangle the walk 0, 1, 2 gives the triangle. -/
theorem guaranteed_triangle : ∃ g q, loadFromFile "0 1\n1 2\n0 2\n".toList = some g ∧
    generate id g 3 0 id = some q ∧ q.Guaranteed g (gather g id 3 0 [0] [0]) 3 := by
  have htest : (loadFromFile "0 1\n1 2\n0 2\n".toList).any (fun g =>
      decide (0 < g.numVertices) && decide (neighbors g 0 ≠ []) &&
        decide (((List.range 3).map (walk g id 0)).Nodup) &&
        decide (∀ i ∈ List.range 3, ∀ j ∈ List.range 3, i ≠ j →
          multiplicity g.adjList (walk g id 0 i) (walk g id 0 j) ≤ 1))
      = true := by
    decide +kernel
  obtain ⟨g, hg, htest⟩ := (Option.any_eq_true _ _).mp htest
  simp only [Bool.and_eq_true, decide_eq_true_eq] at htest
  obtain ⟨⟨⟨hlt, hstart⟩, hnodup⟩, hsingle⟩ := htest
  obtain ⟨q, hq, hgood⟩ := (guaranteed_iff id (fun _ => List.Perm.refl _) g 3 0 id hlt hstart).mpr
    ⟨by decide, hnodup, fun i hi j hj => hsingle i (List.mem_range.mpr hi) j (List.mem_range.mpr hj)⟩
  exact ⟨g, q, hg, hq, hgood⟩

/-- In the path 0, 1, 2 a walk that starts at 1 and comes back from 0 ends the search with two
vertices, although the component has three. -/
theorem not_guaranteed_path : ∃ g, loadFromFile "0 1\n1 2\n".toList = some g ∧
    neighbors g 1 = [0, 2] ∧
    generate id g 3 1 (fun _ => 0) = some { numVertices := 2, edges := [(0, 1)] } ∧
    ¬ ∃ q, generate id g 3 1 (fun _ => 0) = some q ∧
      q.Guaranteed g (gather g (fun _ => 0) 3 0 [1] [1]) 3 := by
  have htest : (loadFromFile "0 1\n1 2\n".toList).any (fun g => decide (neighbors g 1 = [0, 2]) &&
      decide (generate id g 3 1 (fun _ => 0) = some { numVertices := 2, edges := [(0, 1)] }))
      = true := by
    decide +kernel
  obtain ⟨g, hg, htest⟩ := (Option.any_eq_true _ _).mp htest
  simp only [Bool.and_eq_true, decide_eq_true_eq] at htest
  refine ⟨g, hg, htest.1, htest.2, ?_⟩
  rintro ⟨q, hq, hgood⟩
  obtain rfl := Option.some.inj (htest.2.symm.trans hq)
  exact absurd hgood.numVertices (by decide)

end QueryGenerator

end GraphMini
