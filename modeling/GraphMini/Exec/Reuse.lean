import GraphMini.Backend.MiniGraphRun
import GraphMini.Codegen.PlanMgSpec
import GraphMini.Exec.Candidate

/-!
# Reuse

The planner replaces computations by reuse on the word of three comparisons of bitsets: a superset
is cut instead of computing anew, an entry of a mini-graph is taken for an operation, and an index
into the iterated set is used as an index into the vertex set of a mini-graph. What the sets stand
for bears out all three.
-/

namespace GraphMini

open VertexSetIR

/-- The vertices that a set stands for once its depths are matched: adjacent to the vertices it has
an edge to, different from the others and in a vertex induced plan not adjacent to them, and below
those that restrict it. -/
def VertexSetIR.candidates (t : AdjMatType) (g : Graph) (placed : List ℕ) (v : VertexSetIR) :
    Finset ℕ :=
  (Finset.range g.numVertex).filter fun x => ∀ i ≤ v.loopDepth,
    (i ∈ v.edges → g.Adj (placed.getD i 0) x) ∧
    (i ∉ v.edges → x ≠ placed.getD i 0 ∧ (t = .vertexInduced → ¬ g.Adj (placed.getD i 0) x)) ∧
    (i ∈ v.restricts → x < placed.getD i 0)

section

variable {t : AdjMatType} {g : Graph} {placed : List ℕ} {u v op : VertexSetIR} {mg : MiniGraphIR}

theorem mem_candidates (hg : g.Valid) (hplaced : ∀ y ∈ placed, y < g.numVertex)
    (hlen : v.loopDepth < placed.length) {x : ℕ} :
    x ∈ v.candidates t g placed ↔
      Candidate t g v.edges v.restricts placed (v.loopDepth + 1) x := by
  simp only [candidates, Finset.mem_filter, Finset.mem_range, Candidate, Nat.lt_succ_iff]
  refine and_congr_right fun _ => forall₂_congr fun i hi => ?_
  have hy : placed.getD i 0 < g.numVertex := by
    rw [List.getD_eq_getElem _ _ (hi.trans_lt hlen)]
    exact hplaced _ (List.getElem_mem _)
  by_cases hedge : i ∈ v.edges
  · rw [fits_edge_iff hg hy hedge]
    simp [hedge]
  · simp [fits_nonEdge_iff hedge, hedge, and_assoc]

/-- A superset stands for more vertices. -/
theorem Candidate.of_isSupersetOf (h : u.isSupersetOf t v = true) {x : ℕ}
    (hx : Candidate t g v.edges v.restricts placed (v.loopDepth + 1) x) :
    Candidate t g u.edges u.restricts placed (u.loopDepth + 1) x := by
  obtain ⟨hdep, hbits⟩ := isSupersetOf_iff.mp h
  refine ⟨hx.1, fun i hi => ?_⟩
  obtain ⟨hne, hadj, hnot, hlt⟩ := hx.2 i (by omega)
  obtain ⟨hedge, hback, hres⟩ := hbits i (by omega)
  exact ⟨hne, fun h => hadj (hedge h), fun ht h => hnot ht fun h' => h (hback ht h'),
    fun h => hlt (hres h)⟩

theorem computed_iff {iter : VertexSetIR} :
    mg.computed t iter op = true ↔ mg.isSupersetOfSets t iter op = true ∧
      op.loopDepth = mg.intersect.loopDepth + 1 ∧ op.edgeNum = mg.intersect.edgeNum + 1 ∧
      ∀ i ≤ mg.intersect.loopDepth, (i ∈ mg.intersect.edges ↔ i ∈ op.edges) ∧
        (i ∈ mg.intersect.restricts ↔ i ∈ op.restricts) := by
  have hdep : (op.loopDepth : ℤ) - mg.intersect.loopDepth = 1
      ↔ op.loopDepth = mg.intersect.loopDepth + 1 := by omega
  have hnum : (op.edgeNum : ℤ) - mg.intersect.edgeNum = 1
      ↔ op.edgeNum = mg.intersect.edgeNum + 1 := by omega
  rw [MiniGraphIR.computed]
  split
  · rename_i hflag
    simp only [Bool.not_eq_true', Bool.and_eq_false_iff, decide_eq_false_iff_not, hdep,
      hnum] at hflag
    simp only [Bool.false_eq_true, false_iff, not_and]
    intro hsup hd hn
    rcases hflag with (h | h) | h
    · simp [hsup] at h
    · exact absurd hd h
    · exact absurd hn h
  · rename_i hflag
    simp only [Bool.not_eq_true', Bool.not_eq_false, Bool.and_eq_true, decide_eq_true_eq, hdep,
      hnum] at hflag
    obtain ⟨⟨hsup, hd⟩, hn⟩ := hflag
    simp [hsup, hd, hn, isEdge, isRestricted]

/-- The edge that an entry has more is the one at its own depth. -/
theorem mem_edges_of_computed {iter : VertexSetIR} (hmg : mg.intersect.Bounded) (hop : op.Bounded)
    (h : mg.computed t iter op = true) : op.loopDepth ∈ op.edges := by
  obtain ⟨-, hdep, hnum, hbits⟩ := computed_iff.mp h
  by_contra hnot
  have heq : op.edges = mg.intersect.edges := by
    ext i
    constructor
    · intro hi
      have hle := hop.edges_le i hi
      have hne : i ≠ op.loopDepth := fun heq => hnot (heq ▸ hi)
      exact (hbits i (by omega)).1.mpr hi
    · exact fun hi => (hbits i (hmg.edges_le i hi)).1.mp hi
  simp [edgeNum, heq] at hnum

end

/-- A superset stands for at least the vertices of the set, and an entry of a mini-graph for the part
of its intersect set that is joined to the vertex of the entry and below it where the operation is
restricted. -/
theorem reuse_sound (t : AdjMatType) {g : Graph} (hg : g.Valid) {placed : List ℕ}
    (hplaced : ∀ y ∈ placed, y < g.numVertex) :
    (∀ u v : VertexSetIR, v.loopDepth < placed.length → u.isSupersetOf t v = true →
      v.candidates t g placed ⊆ u.candidates t g placed) ∧
    ∀ (mg : MiniGraphIR) (iter op : VertexSetIR), mg.intersect.Bounded → op.Bounded →
      op.loopDepth < placed.length → mg.computed t iter op = true →
      op.candidates t g placed = (mg.intersect.candidates t g placed).filter fun x =>
        x ∈ (g.N (placed.getD op.loopDepth 0)).data ∧
          (op.loopDepth ∈ op.restricts → x < placed.getD op.loopDepth 0) := by
  refine ⟨fun u v hlen hsup x hx => ?_, fun mg iter op hmg hop hlen hcomputed => ?_⟩
  · have hdep := (isSupersetOf_iff.mp hsup).1
    rw [mem_candidates hg hplaced (hdep.trans_lt hlen)]
    exact Candidate.of_isSupersetOf hsup ((mem_candidates hg hplaced hlen).mp hx)
  · obtain ⟨-, hdep, -, hbits⟩ := computed_iff.mp hcomputed
    have hedge := mem_edges_of_computed hmg hop hcomputed
    have hy : placed.getD op.loopDepth 0 < g.numVertex := by
      rw [List.getD_eq_getElem _ _ hlen]
      exact hplaced _ (List.getElem_mem _)
    ext x
    rw [Finset.mem_filter, mem_candidates hg hplaced hlen,
      mem_candidates hg hplaced (show mg.intersect.loopDepth < placed.length by omega),
      candidate_succ_iff, fits_edge_iff hg hy hedge, hdep]
    refine and_congr_left fun _ => ?_
    exact candidate_congr (fun i hi => ((hbits i (by omega)).1).symm)
      (fun i hi => ((hbits i (by omega)).2).symm) fun _ _ => rfl

/-- The common neighbours of two vertices of a triangle, cut from the neighbours of the first. -/
theorem reuse_sound_triangle :
    (cut {0, 1} {1} 1).candidates .vertexInduced triangle [2, 1]
      = ((cut {0} ∅ 0).candidates .vertexInduced triangle [2, 1]).filter fun x =>
        x ∈ (triangle.N 1).data ∧ ((1 : ℕ) ∈ (cut {0, 1} {1} 1).restricts → x < 1) :=
  (reuse_sound .vertexInduced valid_triangle
    (by decide : ∀ y ∈ [2, 1], y < triangle.numVertex)).2
    { vertices := cut {0} ∅ 0, intersect := cut {0} ∅ 0 } (cut {0} ∅ 0) (cut {0, 1} {1} 1)
    (cut_bounded _ _ _) (cut_bounded _ _ _) (by decide) (by decide)

/-! ### Direct indexing -/

section

variable {t : AdjMatType} {g : Graph} {placed : List ℕ} {u v : VertexSetIR} {s s' : VertexSet}

/-- A list that is filtered from all vertices. -/
theorem Denotes.of_filter_range (h : s.data = (List.range g.numVertex).filter fun x =>
    decide (Candidate t g u.edges u.restricts placed (u.loopDepth + 1) x)) :
    Denotes t g placed u s := by
  refine ⟨h ▸ SortedList.filter (List.sortedLT_range _) _, fun x => ?_⟩
  rw [h, List.mem_filter, List.mem_range, decide_eq_true_eq]
  exact ⟨And.right, fun hx => ⟨hx.1, hx⟩⟩

/-- With the same edges and more restrictions a set is a prefix: a restriction is an upper bound. -/
theorem Denotes.prefix_of_restricts (hs : Denotes t g placed u s) (hs' : Denotes t g placed v s')
    (hdep : u.loopDepth = v.loopDepth) (hedges : ∀ i ≤ v.loopDepth, i ∈ u.edges ↔ i ∈ v.edges)
    (hres : ∀ i ≤ v.loopDepth, i ∈ v.restricts → i ∈ u.restricts) : s.data <+: s'.data := by
  set p : ℕ → Bool := fun x =>
    decide (∀ i ≤ v.loopDepth, i ∈ u.restricts → x < placed.getD i 0) with hp
  have heq : s.data = s'.data.filter p := by
    refine SortedList.eq_of_mem_iff hs.1 (SortedList.filter hs'.1 p) fun x => ?_
    rw [List.mem_filter, hs.2, hs'.2, hdep, hp, decide_eq_true_eq]
    constructor
    · rintro ⟨hlt, hfits⟩
      refine ⟨⟨hlt, fun i hi => ?_⟩, fun i hi => (hfits i (by omega)).2.2.2⟩
      obtain ⟨hne, hadj, hnot, hbelow⟩ := hfits i hi
      have hiff := hedges i (by omega)
      exact ⟨hne, fun h => hadj (hiff.mpr h), fun ht h => hnot ht fun h' => h (hiff.mp h'),
        fun h => hbelow (hres i (by omega) h)⟩
    · rintro ⟨⟨hlt, hfits⟩, hbelow⟩
      refine ⟨hlt, fun i hi => ?_⟩
      obtain ⟨hne, hadj, hnot, -⟩ := hfits i hi
      have hiff := hedges i (by omega)
      exact ⟨hne, fun h => hadj (hiff.mp h), fun ht h => hnot ht fun h' => h (hiff.mpr h'),
        fun h => hbelow i (by omega) h⟩
  rw [heq]
  refine SortedList.filter_prefix hs'.1 fun x y hxy hy => ?_
  rw [hp, decide_eq_true_eq] at hy ⊢
  exact fun i hi hmem => hxy.trans_lt (hy i hi hmem)

theorem skipBuildIndices_iff {mg : MiniGraphIR} {iter : VertexSetIR} :
    skipBuildIndices mg iter = true ↔ iter.loopDepth = mg.vertices.loopDepth ∧
      ∀ i ≤ mg.vertices.loopDepth, i ∈ iter.edges ↔ i ∈ mg.vertices.edges := by
  rw [skipBuildIndices, Bool.and_eq_true, beq_iff_eq]
  refine and_congr_right fun hdep => ?_
  simp [hdep, isEdge]

end

/-- A mini-graph that is read in a loop has a superset of the iterated set as its vertices. -/
theorem PlannedMgs.vertices_isSupersetOf {edge restrict : ℕ → Finset ℕ} {cfg : CodeGenConfig}
    {plan : PlanIR} (h : PlannedMgs edge restrict cfg plan) {dep : ℕ} {mg : MiniGraphIR}
    (hmg : mg ∈ plan.used dep) :
    mg.vertices.isSupersetOf plan.adjMatType (plan.iter (dep - 1)) = true := by
  obtain ⟨-, op, hop, hread⟩ := (h.mem_used dep mg).mp hmg
  obtain ⟨-, -, -, -, hsup, -⟩ := PlanIR.mem_mgs_of_getParentMg hread
  rw [MiniGraphIR.isSupersetOfSets, Bool.and_eq_true, h.loopDepth_eq hop] at hsup
  exact hsup.1

/-- Where no index array is built, the iterated set is a prefix of the vertices of the mini-graph,
and the entry at an index of the iterated set is the list of the vertex visited there. -/
theorem directIndexing_sound (sort : List VertexSetIR → List VertexSetIR) (sc : Schedule)
    (cfg : CodeGenConfig) (metaData : MetaData) (pSize : ℕ) (plan : PlanIR) (hsc : sc.Connected pSize)
    (hsort : PermutesOps sort (sc.edge pSize) (sc.restrict pSize) pSize)
    (hplan : genPlan sort sc cfg metaData = .ok (some plan)) (dep : ℕ) (mg : MiniGraphIR)
    (hmg : mg ∈ plan.used dep) (hskip : skipBuildIndices mg (plan.iter (dep - 1)) = true)
    (g : Graph) (placed : List ℕ) (s vertices : VertexSet)
    (hs : Denotes cfg.adjMatType g placed (plan.iter (dep - 1)) s)
    (hvertices : Denotes cfg.adjMatType g placed mg.vertices vertices) :
    s.data <+: vertices.data ∧
    (∀ idx < s.size, vertices.data[idx]? = s.data[idx]?) ∧
    ∀ (reqs : List BuildRequest) (objects : List MiniGraph) (returned : List (View × VertexSet))
      (id : ℕ) (req : BuildRequest), g.Valid → MiniGraphRun g reqs objects returned →
      lookup reqs id = some req → req.vertex.data = vertices.data →
      ∀ idx v, s.data[idx]? = some v →
        ∃ view objects' list, miniGraphN g objects id idx = some (view, objects') ∧
          view.read g objects' = some list ∧ Answers g req v list := by
  obtain ⟨h, htype⟩ := plannedMgs_genPlan hsc hsort hplan
  obtain ⟨hdep, hedges⟩ := skipBuildIndices_iff.mp hskip
  have hsup := h.vertices_isSupersetOf hmg
  have hbefore : s.data <+: vertices.data :=
    hs.prefix_of_restricts hvertices hdep hedges
      fun i hi => ((isSupersetOf_iff.mp hsup).2 i hi).2.2
  have hget : ∀ idx < s.size, vertices.data[idx]? = s.data[idx]? := by
    intro idx hidx
    obtain ⟨rest, hrest⟩ := hbefore
    rw [← hrest, List.getElem?_append_left hidx]
  refine ⟨hbefore, hget, ?_⟩
  intro reqs objects returned id req hg hrun hreq hdata idx v hv
  have hidx : idx < s.size := (List.getElem?_eq_some_iff.mp hv).1
  have hrep := (hrun.invariant hg).1
  obtain ⟨view, objects', hN, hout⟩ := miniGraphN_spec hg hrep id req idx v hreq
    (by rw [hdata, hget idx hidx, hv])
  exact ⟨view, objects', _, hN, hout.read, hout.answers⟩

/-- Four vertices that are all joined, the second below the first. -/
def orderedClique : Schedule where
  adjMat := "0111101111011110".toList
  restrictPair := [(0, 1)]

theorem connected_orderedClique : orderedClique.Connected 4 := by
  constructor <;> decide

/-- In the loop over the neighbours of the first vertex that are below it, a mini-graph of all its
neighbours is read at the index of the loop. -/
theorem directIndexing_sound_clique :
    ∃ plan, genPlan (StdAlgorithm.insertionSort VertexSetIR.less) orderedClique
        { pruningType := .eager } {} = .ok (some plan) ∧
      ∃ mg ∈ plan.used 1, skipBuildIndices mg (plan.iter 0) = true ∧ [0] <+: [0, 2] ∧
        (∀ idx < 1, [0, 2][idx]? = [0][idx]?) ∧
        ∀ (reqs : List BuildRequest) (objects : List MiniGraph) (returned : List (View × VertexSet))
          (id : ℕ) (req : BuildRequest), triangle.Valid → MiniGraphRun triangle reqs objects returned →
          lookup reqs id = some req → req.vertex.data = [0, 2] →
          ∀ idx v, [0][idx]? = some v →
            ∃ view objects' list, miniGraphN triangle objects id idx = some (view, objects') ∧
              view.read triangle objects' = some list ∧ Answers triangle req v list := by
  have hread : (genPlan (StdAlgorithm.insertionSort VertexSetIR.less) orderedClique
      { pruningType := .eager } {}).toOption.join.any (fun plan => (plan.used 1).any fun mg =>
        skipBuildIndices mg (plan.iter 0) && (plan.iter 0).same (cut {0} {0} 0)
          && mg.vertices.same (cut {0} ∅ 0)) = true := by decide +kernel
  obtain ⟨plan, hplan, hread⟩ := Loop.exists_ok_some_of_any hread
  obtain ⟨mg, hmg, htest⟩ := List.any_eq_true.mp hread
  simp only [Bool.and_eq_true] at htest
  obtain ⟨⟨hskip, hiter⟩, hvertices⟩ := htest
  refine ⟨plan, hplan, mg, hmg, hskip, ?_⟩
  have hs : Denotes .vertexInduced triangle [1] (cut {0} {0} 0) { data := [0] } :=
    .of_filter_range (by decide)
  have hs' : Denotes .vertexInduced triangle [1] (cut {0} ∅ 0) { data := [0, 2] } :=
    .of_filter_range (by decide)
  exact directIndexing_sound _ _ _ _ 4 plan connected_orderedClique
    (fun _ _ => StdAlgorithm.insertionSort_perm _ _) hplan 1 mg hmg hskip triangle [1] _ _
    (hs.congr (same_symm hiter)) (hs'.congr (same_symm hvertices))

end GraphMini
