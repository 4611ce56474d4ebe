import GraphMini.Backend.MiniGraphStale

/-!
# Positions in 32-bit cells

The position of an entry is the sum of the sizes before it, a number that need not fit into the
32-bit cell it is stored in. Where all the sums that a build stores do fit, the parts of the entries
are apart and `est_edges` covers them; where one does not, its cell holds another number. The sum can
reach `2 ^ 32` only on a graph with that many entries in its adjacency lists.
-/

namespace GraphMini

open Finset (range)

/-- The build goes through and leaves positions that are the sums of the sizes before them, so that
entries have parts of their own and `est_edges` of `MiniGraphOnline` covers all of them. -/
def BuildRequest.StoresPositions (g : Graph) (pool : MiniGraphPool) (objects : List MiniGraph)
    (req : BuildRequest) : Prop :=
  ∃ m objects', MiniGraph.build g pool req objects = some (m, objects') ∧
    req.Positioned g objects m ∧
    (∀ i j pos pos' : ℕ, i < j → j < req.vertex.size → req.StoresPos i → req.StoresPos j →
      m.pos.get i = some pos → m.pos.get j = some pos' → pos + req.room g objects i ≤ pos') ∧
    (req.type = .online → ∃ estEdges, m.pos.get req.vertex.size = some estEdges ∧
      ∑ i ∈ range req.vertex.size, req.room g objects i ≤ estEdges)

namespace MiniGraph

/-- The positions are 32-bit words. -/
def WordsFit (m : MiniGraph) : Prop := ∀ i w : ℕ, m.pos.get i = some w → w < 2 ^ 32

section

variable {g : Graph} {pool : MiniGraphPool} {req : BuildRequest} {m m' : MiniGraph}
  {objects objects' : List MiniGraph} {i value : ℕ}

theorem WordsFit.setPos (h : m.WordsFit) (hrun : m.setPos i value = some m') : m'.WordsFit := by
  simp only [MiniGraph.setPos, Option.bind_eq_bind, Option.bind_eq_some_iff, Option.pure_def,
    Option.some.injEq] at hrun
  obtain ⟨pos, hset, rfl⟩ := hrun
  intro j w hw
  simp only [Buffer.get_of_set hset] at hw
  split_ifs at hw
  · rw [← Option.some.inj hw]
    exact Nat.mod_lt _ (by norm_num)
  · exact h j w hw

theorem WordsFit.of_pos (h : m.WordsFit) (hpos : m'.pos = m.pos) : m'.WordsFit := by
  rw [WordsFit, hpos]
  exact h

theorem resize_pos (m : MiniGraph) (pool : MiniGraphPool) (i n : ℕ) :
    (m.resize pool i n).pos = m.pos := by
  rw [resize]
  split_ifs <;> rfl

theorem setDegree_pos (hrun : m.setDegree i value = some m') : m'.pos = m.pos := by
  simp only [setDegree, Option.bind_eq_bind, Option.bind_eq_some_iff, Option.pure_def,
    Option.some.injEq] at hrun
  obtain ⟨-, -, rfl⟩ := hrun
  rfl

theorem fill_pos {ids : List ℕ} (hrun : m.fill i ids = some m') : m'.pos = m.pos := by
  simp only [fill, Option.bind_eq_bind, Option.bind_eq_some_iff] at hrun
  obtain ⟨-, -, ctn, -, hset⟩ := hrun
  have hpos := setDegree_pos hset
  exact hpos

theorem clearDegrees_pos (hrun : m.clearDegrees = some m') : m'.pos = m.pos :=
  Loop.foldlM_keeps (P := fun s : MiniGraph => s.pos = m.pos)
    (fun _ _ _ hs hstep => (setDegree_pos hstep).trans hs) rfl hrun

theorem link_pos (hrun : m.link objects = some m') : m'.pos = m.pos := by
  unfold link at hrun
  split at hrun
  · rw [← Option.some.inj hrun]
  · simp only [Option.bind_eq_bind, Option.bind_eq_some_iff, Option.pure_def,
      Option.some.injEq] at hrun
    obtain ⟨-, -, -, -, rfl⟩ := hrun
    rfl

theorem WordsFit.pruneNow (h : m.WordsFit)
    (hrun : m.pruneNow g pool objects i = some (m', objects')) : m'.WordsFit := by
  simp only [MiniGraph.pruneNow, Option.bind_eq_bind, Option.bind_eq_some_iff, Option.pure_def,
    Option.some.injEq, Prod.mk.injEq] at hrun
  obtain ⟨start, -, ⟨ids, rest⟩, -, m₁, hfill, m₂, hset, rfl, -⟩ := hrun
  exact (h.of_pos ((fill_pos hfill).trans (resize_pos _ _ _ _))).setPos hset

theorem WordsFit.pruneByModel (h : m.WordsFit)
    (hrun : m.pruneByModel g pool i req = some m') : m'.WordsFit := by
  rw [MiniGraph.pruneByModel] at hrun
  split_ifs at hrun
  · simp only [pruneLater, Option.bind_eq_bind, Option.bind_eq_some_iff] at hrun
    obtain ⟨v, -, start, -, m₁, hset, hdegree⟩ := hrun
    exact ((h.of_pos (resize_pos _ _ _ _)).setPos hset).of_pos (setDegree_pos hdegree)
  · simp only [pruneNever, Option.bind_eq_bind, Option.bind_eq_some_iff] at hrun
    obtain ⟨m₁, hdegree, start, -, hset⟩ := hrun
    exact (h.of_pos (setDegree_pos hdegree)).setPos hset

theorem WordsFit.start (hrun : (MiniGraph.start pool req).setPos 0 0 = some m) : m.WordsFit := by
  have hfresh : (MiniGraph.start pool req).WordsFit := by
    intro i w hw
    simp [MiniGraph.start] at hw
  exact hfresh.setPos hrun

/-- The state of a loop over objects. -/
theorem WordsFit.foldl_pruneNow {l : List ℕ} {s s' : MiniGraph × List MiniGraph} (h : s.1.WordsFit)
    (hrun : l.foldlM (fun (s : MiniGraph × List MiniGraph) i => s.1.pruneNow g pool s.2 i) s = some s') :
    s'.1.WordsFit :=
  Loop.foldlM_keeps (P := fun s : MiniGraph × List MiniGraph => s.1.WordsFit)
    (fun _ _ _ hs hstep => hs.pruneNow hstep) h hrun

theorem WordsFit.eager (hrun : MiniGraphEager.build g pool req objects = some (m, objects')) :
    m.WordsFit := by
  simp only [MiniGraphEager.build, Option.bind_eq_bind, Option.bind_eq_some_iff] at hrun
  obtain ⟨m₀, hset, m₁, hlink, hloop⟩ := hrun
  exact foldl_pruneNow (s := (m₁, objects)) ((start hset).of_pos (link_pos hlink)) hloop

theorem WordsFit.lazy (hrun : MiniGraphLazy.build g pool req objects = some (m, objects')) :
    m.WordsFit := by
  simp only [MiniGraphLazy.build, Option.bind_eq_bind, Option.bind_eq_some_iff] at hrun
  obtain ⟨m₀, hset, m₁, hclear, m₂, hlink, hrun⟩ := hrun
  split_ifs at hrun
  obtain ⟨⟨m₃, objects₃, numEdges⟩, hloop, heq⟩ := Option.bind_eq_some_iff.mp hrun
  obtain ⟨rfl, -⟩ := Prod.mk.inj (Option.some.inj heq)
  refine Loop.foldlM_keeps (P := fun s : MiniGraph × List MiniGraph × ℕ => s.1.WordsFit) ?_
    ((start hset).of_pos ((link_pos hlink).trans (clearDegrees_pos hclear))) hloop
  intro s k s' hs hstep
  simp only [Option.bind_eq_some_iff, Option.pure_def,
    Option.some.injEq] at hstep
  obtain ⟨m₄, hpos, ⟨ids, rest⟩, -, m₅, hfill, rfl⟩ := hstep
  exact (hs.setPos hpos).of_pos ((fill_pos hfill).trans (resize_pos _ _ _ _))

theorem WordsFit.online (hrun : MiniGraphOnline.build g pool req objects = some (m, objects')) :
    m.WordsFit := by
  simp only [MiniGraphOnline.build, Option.bind_eq_bind, Option.bind_eq_some_iff] at hrun
  obtain ⟨m₀, hset, m₁, hclear, m₂, hlink, hrun⟩ := hrun
  split_ifs at hrun
  obtain ⟨m₃, hpositions, hrun⟩ := Option.bind_eq_some_iff.mp hrun
  obtain ⟨estEdges, -, hloop⟩ := Option.bind_eq_some_iff.mp hrun
  have hfit : m₃.WordsFit := by
    refine Loop.foldlM_keeps (P := WordsFit) (fun s k s' hs hstep => ?_)
      ((start hset).of_pos ((link_pos hlink).trans (clearDegrees_pos hclear))) hpositions
    obtain ⟨start, -, hstep⟩ := Option.bind_eq_some_iff.mp hstep
    obtain ⟨room, -, hpos⟩ := Option.bind_eq_some_iff.mp hstep
    exact hs.setPos hpos
  have hreserve : (m₃.reserve pool estEdges).pos = m₃.pos := by
    rw [reserve]
    split_ifs <;> rfl
  refine Loop.foldlM_keeps (P := fun s : MiniGraph × List MiniGraph => s.1.WordsFit)
    (fun s k s' hs hstep => ?_) (s := (m₃.reserve pool estEdges, objects)) (hfit.of_pos hreserve)
    hloop
  simp only [Option.bind_eq_some_iff, Option.pure_def, Option.some.injEq] at hstep
  obtain ⟨⟨ids, rest⟩, -, m₄, hfill, rfl⟩ := hstep
  exact hs.of_pos (fill_pos hfill)

theorem WordsFit.buildMerge {iter l : List ℕ} (h : m.WordsFit)
    (hrun : MiniGraphCostModel.buildMerge g pool req iter l m objects = some (m', objects')) :
    m'.WordsFit := by
  induction l generalizing iter m objects with
  | nil =>
      obtain ⟨rfl, -⟩ := Prod.mk.inj (Option.some.inj hrun)
      exact h
  | cons k l ih =>
      simp only [MiniGraphCostModel.buildMerge, Option.bind_eq_bind, Option.bind_eq_some_iff] at hrun
      obtain ⟨v, -, hrun⟩ := hrun
      split_ifs at hrun
      · obtain ⟨⟨m₁, objects₁⟩, hnow, hrest⟩ := Option.bind_eq_some_iff.mp hrun
        exact ih (h.pruneNow hnow) hrest
      · obtain ⟨m₁, hmodel, hrest⟩ := Option.bind_eq_some_iff.mp hrun
        exact ih (h.pruneByModel hmodel) hrest

theorem WordsFit.costModel
    (hrun : MiniGraphCostModel.build g pool req objects = some (m, objects')) : m.WordsFit := by
  by_cases hempty : req.parent.isNone = true ∧ req.vertex.size = 0
  · rw [MiniGraphCostModel.build, if_pos hempty] at hrun
    simp only [Option.bind_eq_bind, Option.bind_eq_some_iff, Option.pure_def, Option.some.injEq,
      Prod.mk.injEq] at hrun
    obtain ⟨m₀, hset, rfl, -⟩ := hrun
    refine WordsFit.setPos (fun i w hw => ?_) hset
    simp at hw
  · rw [MiniGraphCostModel.build, if_neg hempty] at hrun
    simp only [Option.bind_eq_bind, Option.bind_eq_some_iff] at hrun
    obtain ⟨m₀, hset, m₁, hlink, hrun⟩ := hrun
    have hfit : m₁.WordsFit := (start hset).of_pos (link_pos hlink)
    by_cases hstart : req.iter.start = req.vertex.start
    · rw [if_pos hstart] at hrun
      obtain ⟨⟨m₂, objects₂⟩, hfirst, hrun⟩ := Option.bind_eq_some_iff.mp hrun
      obtain ⟨m₃, hsecond, heq⟩ := Option.bind_eq_some_iff.mp hrun
      obtain ⟨rfl, -⟩ := Prod.mk.inj (Option.some.inj heq)
      have hfit₂ : m₂.WordsFit := foldl_pruneNow (s := (m₁, objects)) hfit hfirst
      exact Loop.foldlM_keeps (P := WordsFit) (fun _ _ _ hs hstep => hs.pruneByModel hstep) hfit₂
        hsecond
    · rw [if_neg hstart] at hrun
      exact hfit.buildMerge hrun

/-- Whatever a build stores in a position is a 32-bit word. -/
theorem WordsFit.build (hrun : MiniGraph.build g pool req objects = some (m, objects')) :
    m.WordsFit := by
  rw [MiniGraph.build] at hrun
  cases htype : req.type with
  | eager => exact eager (by simpa [htype] using hrun)
  | lazy => exact lazy (by simpa [htype] using hrun)
  | online => exact online (by simpa [htype] using hrun)
  | costModel => exact costModel (by simpa [htype] using hrun)

end

end MiniGraph

section

variable {g : Graph} {reqs : List BuildRequest} {req : BuildRequest} {objects : List MiniGraph}
  {returned : List (View × VertexSet)} {pool : MiniGraphPool}

theorem BuildRequest.StoresPositions.reachesIter (hadm : req.Admissible g reqs)
    (hrep : Represent g reqs objects) (htype : req.type = .costModel)
    (h : req.StoresPositions g pool objects) : req.ReachesIter := by
  obtain ⟨m, objects', hbuild, hpositions, -⟩ := h
  have hbuild' : MiniGraphCostModel.build g pool req objects = some (m, objects') := by
    simpa [MiniGraph.build, htype] using hbuild
  intro hstart
  split_ifs with hparent
  · by_contra hlt
    rw [MiniGraphCostModel.build_eq_none hstart hparent (not_le.mp hlt) hadm hrep] at hbuild'
    simp at hbuild'
  · by_contra hne
    rw [not_or] at hne
    obtain ⟨m₀, hset, -, heq⟩ := MiniGraphCostModel.build_of_skipped g objects pool
      hstart (by simpa using hparent) hne.1 hne.2
    rw [heq] at hbuild'
    split_ifs at hbuild'
    obtain rfl : m₀ = m := by simpa using (Prod.mk.inj (Option.some.inj hbuild')).1
    have hstored := hpositions 1 (Nat.one_le_iff_ne_zero.mpr hne.1) (by simp [StoresPos, htype])
    rw [(MiniGraph.start_unwritten hset).1 1 one_ne_zero] at hstored
    simp at hstored

/-- A build leaves the positions it should exactly if the sums that it stores are below `2 ^ 32` and,
for `MiniGraphCostModel`, it reaches the entries of `iter`. -/
theorem storesPositions_iff (hg : g.Valid) (hrun : MiniGraphRun g reqs objects returned)
    (pool : MiniGraphPool) (hadm : req.Admissible g reqs)
    (hfound : req.type = .lazy → req.IterFound) :
    req.StoresPositions g pool objects ↔
      req.PositionsFit g objects ∧ (req.type = .costModel → req.ReachesIter) := by
  have hrep := (hrun.invariant hg).1
  constructor
  · intro hstores
    refine ⟨fun i hi hstored => ?_, fun htype => hstores.reachesIter hadm hrep htype⟩
    obtain ⟨m, objects', hbuild, hpositions, -⟩ := hstores
    exact MiniGraph.WordsFit.build hbuild i _ (hpositions i hi hstored)
  · rintro ⟨hfit, hreach⟩
    obtain ⟨m, objects', hbuild, -, -, -, hpositions⟩ :=
      MiniGraph.build_spec pool hg hadm hrep hfit hfound hreach
    refine ⟨m, objects', hbuild, hpositions, fun i j pos pos' hij hj hi hj' hpos hpos' => ?_,
      fun htype => ?_⟩
    · rw [hpositions i (by omega) hi] at hpos
      rw [hpositions j hj.le hj'] at hpos'
      rw [← Option.some.inj hpos, ← Option.some.inj hpos']
      exact entryStart_add_le _ hij
    · exact ⟨_, hpositions _ le_rfl (by simp [BuildRequest.StoresPos, htype]), le_rfl⟩

end

/-- The positions of a triangle. -/
theorem storesPositions_triangle : wholeTriangle.StoresPositions triangle exactPool [] := by
  refine (storesPositions_iff valid_triangle .start exactPool admissible_wholeTriangle ?_).mpr
    ⟨BuildRequest.OffsetsFit.positionsFit (BuildRequest.offsetsFit_of_mul_lt (by decide)), ?_⟩
  · simp [wholeTriangle]
  · simp [wholeTriangle]

/-! ### A complete graph -/

/-- All pairs of `n` vertices are joined. -/
def completeGraph (n : ℕ) : Graph where
  indices := (List.range n).flatMap fun v => (List.range n).erase v
  indptr := (List.range (n + 1)).map fun v => v * (n - 1)
  offset := List.range n
  numVertex := n
  numEdge := n * (n - 1)

/-- Rows of one width. -/
theorem take_drop_flatMap_range {α : Type} {f : ℕ → List α} {w n v : ℕ}
    (hf : ∀ i < n, (f i).length = w) (hv : v < n) :
    (((List.range n).flatMap f).drop (v * w)).take w = f v := by
  obtain ⟨k, rfl⟩ : ∃ k, n = v + (1 + k) := ⟨n - v - 1, by omega⟩
  have hlen : ((List.range v).flatMap f).length = v * w := by
    have hall : (List.range v).map (fun i => (f i).length) = List.replicate v w := by
      refine List.eq_replicate_iff.mpr ⟨by simp, fun x hx => ?_⟩
      obtain ⟨i, hi, rfl⟩ := List.mem_map.mp hx
      exact hf i (by have := List.mem_range.mp hi; omega)
    rw [List.length_flatMap, hall, List.sum_replicate, smul_eq_mul]
  rw [List.range_add, List.range_add, List.flatMap_append, List.map_append, List.flatMap_append,
    ← hlen, List.drop_left]
  have hone : ((List.range 1).map (v + ·)).flatMap f = f v := by simp
  rw [hone, ← hf v hv, List.take_left]

section

variable {n v : ℕ}

theorem degree_completeGraph (hv : v < n) : (completeGraph n).degree v = n - 1 := by
  have hget : ∀ i ≤ n, (completeGraph n).indptr.getD i 0 = i * (n - 1) := by
    intro i hi
    rw [completeGraph, List.getD_eq_getElem _ _ (by simp; omega)]
    simp
  rw [Graph.degree, hget _ hv, hget _ hv.le, Nat.succ_mul]
  omega

theorem N_completeGraph (hv : v < n) : ((completeGraph n).N v).data = (List.range n).erase v := by
  have hstart : (completeGraph n).indptr.getD v 0 = v * (n - 1) := by
    rw [completeGraph, List.getD_eq_getElem _ _ (by simp; omega)]
    simp
  rw [Graph.N, Graph.row, degree_completeGraph hv, hstart]
  refine take_drop_flatMap_range (f := fun v => (List.range n).erase v) (fun i hi => ?_) hv
  rw [List.length_erase_of_mem (List.mem_range.mpr hi), List.length_range]

theorem adj_completeGraph {x : ℕ} (hv : v < n) : (completeGraph n).Adj v x ↔ x ≠ v ∧ x < n := by
  rw [Graph.Adj, N_completeGraph hv, List.nodup_range.mem_erase_iff, List.mem_range]

theorem countP_lt_range (hv : v ≤ n) : (List.range n).countP (fun x => decide (x < v)) = v := by
  obtain ⟨k, rfl⟩ : ∃ k, n = v + k := ⟨n - v, by omega⟩
  have hbelow : (List.range v).countP (fun x => decide (x < v)) = v := by
    rw [List.countP_eq_length.mpr, List.length_range]
    simp
  rw [List.range_add, List.countP_append, hbelow, Nat.add_eq_left, List.countP_eq_zero]
  simp

theorem valid_completeGraph (hn : n < invalidId) : (completeGraph n).Valid where
  indptr_zero := by simp [completeGraph]
  indptr_mono v hv := by
    have hv' : v < n := hv
    simp only [completeGraph]
    rw [List.getD_eq_getElem _ _ (by simp; omega), List.getD_eq_getElem _ _ (by simp; omega)]
    simp only [List.getElem_map, List.getElem_range]
    exact Nat.mul_le_mul_right _ (Nat.le_succ v)
  indptr_last := by
    simp only [completeGraph]
    rw [List.getD_eq_getElem _ _ (by simp)]
    simp
  indices_length := by
    simp only [completeGraph]
    have hall : (List.range n).map (fun v => ((List.range n).erase v).length)
        = List.replicate n (n - 1) := by
      refine List.eq_replicate_iff.mpr ⟨by simp, fun x hx => ?_⟩
      obtain ⟨i, hi, rfl⟩ := List.mem_map.mp hx
      rw [List.length_erase_of_mem hi, List.length_range]
    rw [List.length_flatMap, hall, List.sum_replicate, smul_eq_mul]
  sorted v hv := by
    have hv' : v < n := hv
    rw [N_completeGraph hv']
    exact SortedList.sublist (List.sortedLT_range n) List.erase_sublist
  lt_numVertex x hx y hy := ((adj_completeGraph hx).mp hy).2
  symm x hx y hy := by
    obtain ⟨hne, hlt⟩ := (adj_completeGraph hx).mp hy
    exact (adj_completeGraph hlt).mpr ⟨hne.symm, hx⟩
  loopless x hx hadj := ((adj_completeGraph hx).mp hadj).1 rfl
  offset_eq v hv := by
    have hv' : v < n := hv
    rw [N_completeGraph hv', List.countP_erase, countP_lt_range hv'.le]
    simp [completeGraph, hv']
  numVertex_lt := hn

/-- All vertices, pruned at once. -/
def wholeComplete (n : ℕ) : BuildRequest where
  type := .eager
  bounded := false
  parent := none
  vertex := { data := List.range n, start := 0 }
  intersect := { data := List.range n }
  iter := { data := List.range n, start := 0 }

theorem wholeComplete_size : (wholeComplete n).vertex.size = n := List.length_range

theorem wholeComplete_ne_lazy : (wholeComplete n).type ≠ .lazy := by
  simp [wholeComplete]

theorem admissible_wholeComplete (hn : n < invalidId) :
    (wholeComplete n).Admissible (completeGraph n) [] where
  sets := {
    vertex_sorted := List.sortedLT_range n
    vertex_lt := fun _ hv => List.mem_range.mp hv
    intersect_sorted := List.sortedLT_range n
    intersect_lt := fun _ hx => (List.mem_range.mp hx).trans hn
    iter_sorted := List.sortedLT_range n
    consistent := fun _ => Or.inl List.prefix_rfl }
  covered p hp := by simp [wholeComplete] at hp

/-- The sizes add up to the number of entries of all adjacency lists. -/
theorem entryStart_wholeComplete (objects : List MiniGraph) :
    entryStart ((wholeComplete n).room (completeGraph n) objects) n = n * (n - 1) := by
  have hroom : ∀ i ∈ range n, (wholeComplete n).room (completeGraph n) objects i = n - 1 := by
    intro i hi
    have hlt := Finset.mem_range.mp hi
    have hv : (wholeComplete n).vertex.data.getD i 0 = i := by
      rw [wholeComplete, List.getD_eq_getElem _ _ (by simpa using hlt), List.getElem_range]
    have hexact : (wholeComplete n).exact (completeGraph n) i = (List.range n).erase i := by
      rw [List.nodup_range.erase_eq_filter, BuildRequest.exact]
      refine List.filter_congr fun x hx => ?_
      have hx' : x < n := List.mem_range.mp hx
      simp [wholeComplete, adj_completeGraph hlt, hx', bne, beq_eq_decide]
    simp only [BuildRequest.room, hv, hexact]
    simp only [wholeComplete]
    rw [List.length_erase_of_mem (List.mem_range.mpr hlt), List.length_range]
  rw [entryStart, Finset.sum_congr rfl hroom, Finset.sum_const, Finset.card_range, smul_eq_mul]

end

/-- On 65537 vertices that are all joined the last position wraps around. -/
theorem positions_wrap : ¬ ∀ (g : Graph) (reqs : List BuildRequest) (objects : List MiniGraph)
    (returned : List (View × VertexSet)) (pool : MiniGraphPool) (req : BuildRequest),
    g.Valid → MiniGraphRun g reqs objects returned → req.Admissible g reqs →
    (req.type = .lazy → req.IterFound) → req.StoresPositions g pool objects := by
  intro hall
  have hn : 65537 < invalidId := by decide
  obtain ⟨m, objects', hbuild, hpositions, -⟩ := hall (completeGraph 65537) [] [] [] exactPool
    (wholeComplete 65537) (valid_completeGraph hn) .start (admissible_wholeComplete hn)
    (fun hlazy => absurd hlazy wholeComplete_ne_lazy)
  have hlast := hpositions 65537 wholeComplete_size.ge (fun hlazy => absurd hlazy wholeComplete_ne_lazy)
  rw [entryStart_wholeComplete] at hlast
  have hlt := MiniGraph.WordsFit.build hbuild _ _ hlast
  norm_num at hlt

end GraphMini
