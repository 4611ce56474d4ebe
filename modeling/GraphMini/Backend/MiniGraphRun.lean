import GraphMini.Backend.MiniGraphCostModel

/-!
# Runs of builds and reads

A run builds mini-graphs, each from the data graph or from an older mini-graph that covers it, and
reads them in any order. In every state that a run reaches each entry is answered as the law for its
class says, and every list that was returned on the way still shows what it showed when it was
returned.
-/

namespace GraphMini

/-- The requests and objects of a run, the newest first, and the lists that `N` has returned with
what they showed at that time. The offsets of every build are below `2 ^ 32`, and the build of
`MiniGraphCostModel` reaches its entries. -/
inductive MiniGraphRun (g : Graph) :
    List BuildRequest → List MiniGraph → List (View × VertexSet) → Prop where
  | start : MiniGraphRun g [] [] []
  | build {reqs objects returned req objects'} (pool : MiniGraphPool) :
      MiniGraphRun g reqs objects returned → req.Admissible g reqs → req.OffsetsFit g objects →
      (req.type = .costModel → req.ReachesIter) →
      miniGraphBuild g pool req objects = some objects' →
      MiniGraphRun g (req :: reqs) objects' returned
  | read {reqs objects returned req objects' id view s} {i : ℕ} :
      MiniGraphRun g reqs objects returned → lookup reqs id = some req → i < req.vertex.size →
      miniGraphN g objects id i = some (view, objects') → view.read g objects' = some s →
      MiniGraphRun g reqs objects' ((view, s) :: returned)

section

variable {g : Graph} {reqs : List BuildRequest} {req : BuildRequest}
  {objects objects' : List MiniGraph} {returned : List (View × VertexSet)} {pool : MiniGraphPool}

/-- The assertion of `MiniGraphLazy::build` holds if `iter` is part of the vertex set. -/
theorem BuildRequest.iterFound_iff (hsets : req.Sets g) :
    req.IterFound ↔ (req.parent.isSome = true → ∀ x ∈ req.iter.data, x ∈ req.vertex.data) := by
  refine forall_congr' fun _ => ?_
  have hmap := map_getIndices hsets.vertex_sorted hsets.iter_sorted hsets.consistent
  have hlen : (getIndices req.vertex req.iter).length
      = (req.vertex.data.filter fun x => decide (x ∈ req.iter.data)).length := by
    rw [← hmap, List.length_map]
  have hsub : (req.vertex.data.filter fun x => decide (x ∈ req.iter.data)).Sublist req.iter.data :=
    SortedList.sublist_of_subset (SortedList.filter hsets.vertex_sorted _) hsets.iter_sorted
      fun x hx => of_decide_eq_true (List.mem_filter.mp hx).2
  rw [hlen]
  constructor
  · intro heq x hx
    rw [← hsub.eq_of_length heq] at hx
    exact (List.mem_filter.mp hx).1
  · intro hall
    apply le_antisymm hsub.length_le
    apply (hsets.iter_sorted.nodup.subperm fun x hx => ?_).length_le
    exact List.mem_filter.mpr ⟨hall x hx, decide_eq_true hx⟩

theorem BuildRequest.PositionsFit.offsetsFit (h : req.PositionsFit g objects)
    (htype : req.type ≠ .lazy) : req.OffsetsFit g objects :=
  h _ le_rfl fun hlazy => absurd hlazy htype

variable (pool) in
theorem MiniGraph.build_spec (hg : g.Valid) (hadm : req.Admissible g reqs)
    (hrep : Represent g reqs objects) (hfit : req.PositionsFit g objects)
    (hfound : req.type = .lazy → req.IterFound)
    (hreach : req.type = .costModel → req.ReachesIter) :
    BuildsObject g reqs req objects (MiniGraph.build g pool req objects) := by
  rw [MiniGraph.build]
  have hoffsets := hfit.offsetsFit
  cases htype : req.type with
  | eager => exact MiniGraphEager.build_spec hg hadm hrep htype (hoffsets (by simp [htype]))
  | lazy => exact MiniGraphLazy.build_spec hg hadm hrep htype hfit (hfound htype)
  | online => exact MiniGraphOnline.build_spec hg hadm hrep htype (hoffsets (by simp [htype]))
  | costModel =>
      exact MiniGraphCostModel.build_spec hg hadm hrep htype (hoffsets (by simp [htype]))
        (hreach htype)

variable (pool) in
theorem miniGraphBuild_spec (hg : g.Valid) (hadm : req.Admissible g reqs)
    (hrep : Represent g reqs objects) (hfit : req.OffsetsFit g objects)
    (hfound : req.type = .lazy → req.IterFound)
    (hreach : req.type = .costModel → req.ReachesIter) :
    ∃ m objects', miniGraphBuild g pool req objects = some (m :: objects') ∧
      Represent g (req :: reqs) (m :: objects') ∧ Keeps objects objects' := by
  obtain ⟨m, objects', hrun, hm, hrep', hkeeps, -⟩ :=
    MiniGraph.build_spec pool hg hadm hrep hfit.positionsFit hfound hreach
  refine ⟨m, objects', ?_, .cons hadm hm hrep', hkeeps⟩
  rw [miniGraphBuild, hrun]
  rfl

/-- The assertion of `MiniGraphLazy::build` stops the program. -/
theorem miniGraphBuild_eq_none (hadm : req.Admissible g reqs) (hrep : Represent g reqs objects)
    (htype : req.type = .lazy) (hfound : ¬ req.IterFound) :
    miniGraphBuild g pool req objects = none := by
  obtain ⟨m₀, hset, hsame, -, hdegcap, -⟩ := MiniGraph.start_spec pool req
  obtain ⟨degree, hclear, -⟩ := m₀.clearDegrees_spec (by rw [hsame.vertex]; exact hdegcap)
  have hsame' : ({ m₀ with degree } : MiniGraph).Same req :=
    ⟨hsame.type, hsame.bounded, hsame.parent, hsame.vertex, hsame.intersect⟩
  obtain ⟨mgIndices, hlink, -⟩ := hsame'.link_some hadm hrep
  have hassert : req.parent.isSome = true ∧
      (getIndices req.vertex req.iter).length ≠ req.iter.size := by
    simpa [BuildRequest.IterFound] using hfound
  simp only [miniGraphBuild, MiniGraph.build, htype, MiniGraphLazy.build, hset, hclear, hlink, Option.bind_eq_bind,
    Option.bind_some, if_pos hassert]
  rfl

/-- What holds in every state of a run. -/
theorem MiniGraphRun.invariant (hg : g.Valid) (hrun : MiniGraphRun g reqs objects returned) :
    Represent g reqs objects ∧
      ∀ r ∈ returned, r.1.Settled objects ∧ r.1.read g objects = some r.2 := by
  induction hrun with
  | start => exact ⟨.nil, by simp⟩
  | @build reqs objects returned req objects' pool _ hadm hfit hreach hbuild ih =>
      obtain ⟨hrep, hreturned⟩ := ih
      have hfound : req.type = .lazy → req.IterFound := by
        intro htype
        by_contra hnot
        rw [miniGraphBuild_eq_none hadm hrep htype hnot] at hbuild
        simp at hbuild
      obtain ⟨m, rest, hbuild', hrep', hkeeps⟩ :=
        miniGraphBuild_spec pool hg hadm hrep hfit hfound hreach
      obtain rfl := Option.some.inj (hbuild.symm.trans hbuild')
      refine ⟨hrep', fun r hr => ?_⟩
      obtain ⟨hsettled, hread⟩ := hreturned r hr
      have hsettled' := hsettled.mono hkeeps
      refine ⟨hsettled'.cons m, ?_⟩
      cases hrep' with
      | cons _ _ hrest =>
          rw [View.read_cons m hsettled', hsettled.read_eq hrep hrest hkeeps, hread]
  | @read reqs objects returned req objects' id view s i _ hreq hi hN hread ih =>
      obtain ⟨hrep, hreturned⟩ := ih
      obtain ⟨view', rest, hN', hout⟩ := miniGraphN_spec hg hrep id req i _ hreq
        (List.getElem?_eq_getElem hi)
      obtain ⟨rfl, rfl⟩ := Prod.mk.inj (Option.some.inj (hN.symm.trans hN'))
      refine ⟨hout.represent, fun r hr => ?_⟩
      rcases List.mem_cons.mp hr with rfl | hr
      · exact ⟨hout.settled, hread⟩
      · obtain ⟨hsettled, hread⟩ := hreturned r hr
        refine ⟨hsettled.mono hout.keeps, ?_⟩
        rw [hsettled.read_eq hrep hout.represent hout.keeps, hread]

/-- After any builds and reads: a build of `MiniGraphEager`, `MiniGraphLazy` or `MiniGraphOnline` goes
through, unless `MiniGraphLazy` with a parent finds an id of `iter` outside of its vertex set; every
entry is answered; and no list that was returned has changed. -/
theorem miniGraph_answers (hg : g.Valid) (hrun : MiniGraphRun g reqs objects returned) :
    (∀ (pool : MiniGraphPool) (req : BuildRequest), req.type ≠ .costModel →
      req.Admissible g reqs → req.OffsetsFit g objects →
      ((miniGraphBuild g pool req objects).isSome = true ↔
        (req.type = .lazy → req.parent.isSome = true →
          ∀ x ∈ req.iter.data, x ∈ req.vertex.data))) ∧
    (∀ (id : ℕ) (req : BuildRequest) (i v : ℕ), lookup reqs id = some req →
      req.vertex.data[i]? = some v →
      ∃ view objects' s, miniGraphN g objects id i = some (view, objects') ∧
        view.read g objects' = some s ∧ Answers g req v s) ∧
    ∀ r ∈ returned, r.1.read g objects = some r.2 := by
  obtain ⟨hrep, hreturned⟩ := hrun.invariant hg
  refine ⟨?_, ?_, fun r hr => (hreturned r hr).2⟩
  · intro pool req htype hadm hfit
    rw [← forall_congr' fun _ : req.type = .lazy => BuildRequest.iterFound_iff hadm.sets]
    constructor
    · intro hsome hlazy
      by_contra hnot
      simp [miniGraphBuild_eq_none hadm hrep hlazy hnot] at hsome
    · intro hfound
      obtain ⟨m, objects', hbuild, -⟩ := miniGraphBuild_spec pool hg hadm hrep hfit hfound
        fun h => absurd h htype
      rw [hbuild]
      rfl
  · intro id req i v hreq hv
    obtain ⟨view, objects', hN, hout⟩ := miniGraphN_spec hg hrep id req i v hreq hv
    exact ⟨view, objects', _, hN, hout.read, hout.answers⟩

end

/-! ### A triangle -/

def triangle : Graph where
  indices := [1, 2, 0, 2, 0, 1]
  indptr := [0, 2, 4, 6]
  offset := [0, 1, 2]
  numVertex := 3
  numEdge := 6

theorem valid_triangle : triangle.Valid := by
  constructor <;> decide

/-- Every container is as large as asked for. -/
def exactPool : MiniGraphPool where
  capacity _ n := n
  le_capacity _ _ := le_rfl

/-- The whole triangle, pruned at once. -/
def wholeTriangle : BuildRequest where
  type := .eager
  bounded := false
  parent := none
  vertex := { data := [0, 1, 2], start := 0 }
  intersect := { data := [0, 1, 2] }
  iter := { data := [0, 1, 2], start := 0 }

/-- Two of its vertices, built from the whole triangle in a loop over a set that has another one. -/
def edgeOfTriangle : BuildRequest where
  type := .lazy
  bounded := false
  parent := some 0
  vertex := { data := [1, 2], start := 1 }
  intersect := { data := [0, 1, 2] }
  iter := { data := [0, 1], start := 0 }

theorem admissible_wholeTriangle : wholeTriangle.Admissible triangle [] where
  sets := by constructor <;> decide
  covered p hp := by simp [wholeTriangle] at hp

theorem admissible_edgeOfTriangle : edgeOfTriangle.Admissible triangle [wholeTriangle] where
  sets := by constructor <;> decide
  covered p hp := by
    obtain rfl : 0 = p := by simpa [edgeOfTriangle] using hp
    exact ⟨wholeTriangle, rfl, by constructor <;> decide⟩

/-- The whole triangle has been built. -/
theorem exists_run_wholeTriangle :
    ∃ objects, MiniGraphRun triangle [wholeTriangle] objects [] := by
  obtain ⟨objects, hbuild⟩ := Option.isSome_iff_exists.mp
    (by decide +kernel : (miniGraphBuild triangle exactPool wholeTriangle []).isSome = true)
  refine ⟨objects, .build exactPool .start admissible_wholeTriangle ?_ ?_ hbuild⟩
  · exact BuildRequest.offsetsFit_of_mul_lt (by decide)
  · simp [wholeTriangle]

theorem miniGraph_answers_triangle :
    ∃ objects, MiniGraphRun triangle [wholeTriangle] objects [] ∧
      ∀ i v : ℕ, wholeTriangle.vertex.data[i]? = some v →
        ∃ view objects' s, miniGraphN triangle objects 0 i = some (view, objects') ∧
          view.read triangle objects' = some s ∧ Answers triangle wholeTriangle v s := by
  obtain ⟨objects, hrun⟩ := exists_run_wholeTriangle
  exact ⟨objects, hrun, fun i v hv => (miniGraph_answers valid_triangle hrun).2.1 0 _ i v rfl hv⟩

/-- With an id of `iter` outside of its vertex set, `MiniGraphLazy` stops instead of answering. -/
theorem lazy_build_stops :
    ¬ ∀ (g : Graph) (reqs : List BuildRequest) (objects : List MiniGraph)
      (returned : List (View × VertexSet)) (pool : MiniGraphPool) (req : BuildRequest),
      g.Valid → MiniGraphRun g reqs objects returned → req.type = .lazy → req.Admissible g reqs →
      req.OffsetsFit g objects → (miniGraphBuild g pool req objects).isSome = true := by
  intro hall
  obtain ⟨objects, hrun⟩ := exists_run_wholeTriangle
  have hfit : edgeOfTriangle.OffsetsFit triangle objects :=
    BuildRequest.offsetsFit_of_mul_lt (by decide)
  have hnone : miniGraphBuild triangle exactPool edgeOfTriangle objects = none := by
    apply miniGraphBuild_eq_none admissible_edgeOfTriangle (hrun.invariant valid_triangle).1 rfl
    unfold BuildRequest.IterFound
    decide +kernel
  have hsome := hall triangle [wholeTriangle] objects [] exactPool edgeOfTriangle valid_triangle hrun
    rfl admissible_edgeOfTriangle hfit
  rw [hnone] at hsome
  exact absurd hsome (by decide)

end GraphMini
