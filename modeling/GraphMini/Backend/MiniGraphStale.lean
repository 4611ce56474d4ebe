import GraphMini.Backend.MiniGraphRun

/-!
# Stale memory in `MiniGraphCostModel`

The builds of `MiniGraphCostModel` that answer as they should, reading only what they have written,
are those that reach the entries of `iter`. Besides, the loop over `vertex` and `iter` looks at the
word after the last id of `iter`. An answer depends on this word if its vertex lies beyond `iter`, the
model leaves the entry unpruned, and pruning would make a difference.
-/

namespace GraphMini

/-- The objects after some calls of `N`. -/
inductive Reads (g : Graph) (reqs : List BuildRequest) (objects : List MiniGraph) :
    List MiniGraph → Prop where
  | refl : Reads g reqs objects objects
  | step {objects₁ objects₂ id req view} {i : ℕ} : Reads g reqs objects objects₁ →
      lookup reqs id = some req → i < req.vertex.size →
      miniGraphN g objects₁ id i = some (view, objects₂) → Reads g reqs objects objects₂

/-- The list that `N` returns. -/
def readEntry (g : Graph) (id i : ℕ) (objects : List MiniGraph) : Option VertexSet := do
  let (view, objects) ← miniGraphN g objects id i
  view.read g objects

namespace BuildRequest

variable (g : Graph) (pool : MiniGraphPool) (reqs : List BuildRequest) (objects : List MiniGraph)
  (req : BuildRequest)

/-- The build goes through, and after any calls of `N` every entry is answered; a read of a word that
nobody has written has no result. -/
def AnswersCalls : Prop :=
  ∃ objects', miniGraphBuild g pool req objects = some objects' ∧
    ∀ objects'', Reads g (req :: reqs) objects' objects'' →
      ∀ i v : ℕ, req.vertex.data[i]? = some v →
        ∃ s, readEntry g objects.length i objects'' = some s ∧ Answers g req v s

/-- The answers are the same whatever lies behind `iter`. -/
def IgnoresBeyond : Prop :=
  ∀ (beyond : ℕ → ℕ) (i : ℕ), i < req.vertex.size →
    (miniGraphBuild g pool { req with beyond } objects).bind (readEntry g objects.length i)
      = (miniGraphBuild g pool req objects).bind (readEntry g objects.length i)

/-- The list an entry has before it is pruned: the adjacency list, or the answer of the parent. -/
def source (v : ℕ) : Option VertexSet :=
  match req.parent with
  | none => some (g.N v)
  | some p => do
      let mg ← lookup objects p
      readEntry g p (mg.vertex.data.idxOf v) objects

/-- Beyond all of `iter` an entry is given room by the model, or there is nothing to prune. -/
def SettledBeyond : Prop :=
  req.iter.start ≠ req.vertex.start → ∀ i v : ℕ, req.vertex.data[i]? = some v →
    (∀ x ∈ req.iter.data, x < v) →
      req.shouldPrune i = true ∨ ∀ s, req.source g objects v = some s → s.data = req.exact g v

end BuildRequest

section

variable {g : Graph} {reqs : List BuildRequest} {req : BuildRequest}
  {objects objects' : List MiniGraph} {returned : List (View × VertexSet)} {pool : MiniGraphPool}

theorem readEntry_eq (hg : g.Valid) (hrep : Represent g reqs objects) {id i v : ℕ}
    (hreq : lookup reqs id = some req) (hv : req.vertex.data[i]? = some v) :
    readEntry g id i objects = some (shown g reqs objects id i) ∧
      Answers g req v (shown g reqs objects id i) := by
  obtain ⟨view, objects', hN, hout⟩ := miniGraphN_spec hg hrep id req i v hreq hv
  refine ⟨?_, hout.answers⟩
  simp [readEntry, hN, hout.read]

theorem Reads.represent (hg : g.Valid) (hrep : Represent g reqs objects)
    (hreads : Reads g reqs objects objects') : Represent g reqs objects' := by
  induction hreads with
  | refl => exact hrep
  | step _ hreq hi hN ih =>
      obtain ⟨view, objects₂, hN', hout⟩ :=
        miniGraphN_spec hg ih _ _ _ _ hreq (List.getElem?_eq_getElem hi)
      obtain ⟨-, rfl⟩ := Prod.mk.inj (Option.some.inj (hN.symm.trans hN'))
      exact hout.represent

/-- A build that reaches its entries answers. -/
theorem BuildRequest.ReachesIter.answersCalls (hg : g.Valid) (hrep : Represent g reqs objects)
    (htype : req.type = .costModel) (hadm : req.Admissible g reqs)
    (hfit : req.OffsetsFit g objects) (hreach : req.ReachesIter) :
    req.AnswersCalls g pool reqs objects := by
  obtain ⟨m, rest, hbuild, hrep', hkeeps⟩ := miniGraphBuild_spec pool hg hadm hrep hfit
    (fun h => by simp [htype] at h) fun _ => hreach
  refine ⟨m :: rest, hbuild, fun objects'' hreads i v hv => ?_⟩
  have hself : lookup (req :: reqs) objects.length = some req := by
    rw [← hrep.length_eq]
    exact lookup_self req reqs
  obtain ⟨hread, hanswers⟩ := readEntry_eq hg (hreads.represent hg hrep') hself hv
  exact ⟨_, hread, hanswers⟩

/-! ### Builds that miss entries of `iter` -/

theorem MiniGraph.pruneNow_vertex {m m' : MiniGraph} {i : ℕ}
    (h : m.pruneNow g pool objects i = some (m', objects')) : m'.vertex = m.vertex := by
  simp only [MiniGraph.pruneNow, MiniGraph.fill, MiniGraph.setPos, MiniGraph.setDegree,
    Option.bind_eq_bind, Option.bind_eq_some_iff, Option.pure_def, Option.some.injEq,
    Prod.mk.injEq] at h
  obtain ⟨-, -, ⟨-, -⟩, -, -, ⟨-, -, -, -, -, -, rfl⟩, -, ⟨-, -, rfl⟩, rfl, -⟩ := h
  rw [MiniGraph.resize]
  split_ifs <;> rfl

/-- With a parent the loop over `iter` runs beyond the vertex set. -/
theorem MiniGraphCostModel.build_eq_none (hstart : req.iter.start = req.vertex.start)
    (hparent : req.parent.isSome = true) (hsize : req.vertex.size < req.iter.size)
    (hadm : req.Admissible g reqs) (hrep : Represent g reqs objects) :
    MiniGraphCostModel.build g pool req objects = none := by
  obtain ⟨m₀, hset, hsame, -⟩ := MiniGraph.start_spec pool req
  obtain ⟨mgIndices, hlink, hmatches⟩ := hsame.link_some hadm hrep
  have hsome : ¬ req.parent.isNone = true := by
    cases h : req.parent <;> simp [h] at hparent ⊢
  have hempty : ¬ (req.parent.isNone = true ∧ req.vertex.size = 0) := fun h => hsome h.1
  have hshared : ¬ (req.parent.isNone = true ∧ req.vertex.size ≠ 0) := fun h => hsome h.1
  rw [MiniGraphCostModel.build, if_neg hempty]
  simp only [hset, hlink, Option.bind_eq_bind, Option.bind_some, if_pos hstart, if_neg hshared]
  have hkeep : ∀ (s : MiniGraph × List MiniGraph) (i : ℕ) (s' : MiniGraph × List MiniGraph),
      s.1.vertex = req.vertex → s.1.pruneNow g pool s.2 i = some s' → s'.1.vertex = req.vertex :=
    fun s i s' hs hrun => (MiniGraph.pruneNow_vertex hrun).trans hs
  -- the assertion on `m_vertex[i]`
  have hstop : ∀ s : MiniGraph × List MiniGraph, s.1.vertex = req.vertex →
      s.1.pruneNow g pool s.2 req.vertex.size = none := by
    intro s hs
    have hbeyond : s.1.vertex.data[req.vertex.size]? = none := by
      rw [hs]
      exact List.getElem?_eq_none le_rfl
    have hvertex : ∀ n, (s.1.resize pool req.vertex.size n).vertex = s.1.vertex := by
      intro n
      rw [MiniGraph.resize]
      split_ifs <;> rfl
    simp only [MiniGraph.pruneNow, MiniGraph.pruned, hvertex, hbeyond, Option.bind_eq_bind,
      Option.bind_none, Option.bind_fun_none]
  have hnone := Loop.foldlM_eq_none _ (List.mem_range.mpr hsize) hkeep hstop
    (s := ({ m₀ with mgIndices }, objects)) hmatches.vertex
  exact Eq.trans (congrArg (Option.bind · _) hnone) rfl

theorem MiniGraph.start_unwritten {m : MiniGraph}
    (h : (MiniGraph.start pool req).setPos 0 0 = some m) :
    (∀ i, i ≠ 0 → m.pos.get i = none) ∧ ∀ i, m.degree.get i = none := by
  have hpos : 0 < (MiniGraph.start pool req).pos.capacity := by
    have : req.vertex.size + 1024 ≤ (MiniGraph.start pool req).pos.capacity := pool.le_capacity 0 _
    omega
  obtain ⟨pos, hset, -, -, hother⟩ := MiniGraph.setPos_some hpos (show 0 < 2 ^ 32 by norm_num)
  obtain rfl := Option.some.inj (h.symm.trans hset)
  refine ⟨fun i hi => ?_, fun i => ?_⟩
  · rw [hother i hi]
    exact Buffer.get_fresh _ i
  · exact Buffer.get_fresh _ i

variable (g pool objects) in
/-- Without a parent, and on one array, the loop over the rest of the vertex set reads a position that
nobody has written, and where there is no rest nothing but the first position is written. -/
theorem MiniGraphCostModel.build_of_skipped (hstart : req.iter.start = req.vertex.start)
    (hparent : req.parent = none) (hvertex : req.vertex.size ≠ 0) (hiter : req.iter.size ≠ 0) :
    ∃ m₀, (MiniGraph.start pool req).setPos 0 0 = some m₀ ∧ m₀.type = req.type ∧
      MiniGraphCostModel.build g pool req objects
        = if req.iter.size < req.vertex.size then none else some (m₀, objects) := by
  obtain ⟨m₀, hset, hsame, -⟩ := MiniGraph.start_spec pool req
  obtain ⟨hpos, -⟩ := MiniGraph.start_unwritten hset
  refine ⟨m₀, hset, hsame.type, ?_⟩
  have hlink : m₀.link objects = some m₀ := by
    unfold MiniGraph.link
    split
    · rfl
    · next p hp => simp [hsame.parent, hparent] at hp
  have hmodel : ∀ i, i ≠ 0 → m₀.pruneByModel g pool i req = none := by
    intro i hi
    rw [MiniGraph.pruneByModel]
    split_ifs
    · simp [MiniGraph.pruneLater, hpos i hi]
    · cases hdeg : m₀.setDegree i notPrune with
      | none => simp [MiniGraph.pruneNever, hdeg]
      | some m =>
          have hsame' : m.pos = m₀.pos := by
            simp only [MiniGraph.setDegree, Option.bind_eq_bind, Option.bind_eq_some_iff,
              Option.pure_def, Option.some.injEq] at hdeg
            obtain ⟨-, -, rfl⟩ := hdeg
            rfl
          simp [MiniGraph.pruneNever, hdeg, hsame', hpos i hi]
  simp only [MiniGraphCostModel.build, hparent, Option.isNone_none, hvertex, and_false, ne_eq,
    not_false_eq_true, and_true, if_true, if_false, hset, hlink, hstart, Option.bind_eq_bind,
    Option.bind_some, List.range_zero, List.foldlM_nil, Option.pure_def]
  split_ifs with hlt
  · obtain ⟨count, hcount⟩ : ∃ count, req.vertex.size - req.iter.size = count + 1 :=
      ⟨req.vertex.size - req.iter.size - 1, by omega⟩
    simp [hcount, List.range'_succ, hmodel _ hiter]
  · rw [Nat.sub_eq_zero_of_le (not_lt.mp hlt)]
    simp

/-- Without a parent the entries of `iter` are left unwritten. -/
theorem BuildRequest.not_answersCalls_of_skipped (htype : req.type = .costModel)
    (hstart : req.iter.start = req.vertex.start) (hparent : req.parent = none)
    (hvertex : req.vertex.size ≠ 0) (hiter : req.iter.size ≠ 0) :
    ¬ req.AnswersCalls g pool reqs objects := by
  rintro ⟨objects', hbuild, hanswers⟩
  obtain ⟨m₀, hset, htype₀, heq⟩ := MiniGraphCostModel.build_of_skipped g objects pool
    hstart hparent hvertex hiter
  obtain ⟨-, hdegree⟩ := MiniGraph.start_unwritten hset
  simp only [miniGraphBuild, MiniGraph.build, htype, heq] at hbuild
  split_ifs at hbuild with hlt
  · simp at hbuild
  · obtain rfl : m₀ :: objects = objects' := by simpa using hbuild
    have hv := List.getElem?_eq_getElem (Nat.pos_of_ne_zero hvertex : 0 < req.vertex.data.length)
    obtain ⟨s, hread, -⟩ := hanswers _ .refl 0 _ hv
    simp [readEntry, miniGraphN, htype₀, htype, MiniGraphCostModel.N, hdegree] at hread

variable (pool) in
/-- The builds that answer are those that reach the entries of `iter`. -/
theorem BuildRequest.answersCalls_iff (hg : g.Valid) (hrep : Represent g reqs objects)
    (htype : req.type = .costModel) (hadm : req.Admissible g reqs)
    (hfit : req.OffsetsFit g objects) :
    req.AnswersCalls g pool reqs objects ↔ req.ReachesIter := by
  refine ⟨fun hanswers hstart => ?_, ReachesIter.answersCalls hg hrep htype hadm hfit⟩
  split_ifs with hparent
  · by_contra hlt
    obtain ⟨objects', hbuild, -⟩ := hanswers
    simp [miniGraphBuild, MiniGraph.build, htype,
      MiniGraphCostModel.build_eq_none hstart hparent (not_le.mp hlt) hadm hrep] at hbuild
  · by_contra hne
    rw [not_or] at hne
    have hnone : req.parent = none := by simpa using hparent
    exact not_answersCalls_of_skipped htype hstart hnone hne.1 hne.2 hanswers

/-! ### The word behind `iter` -/

/-- The list that `source` finds is an answer that reading and building do not change. -/
theorem BuildRequest.source_eq (hg : g.Valid) (hadm : req.Admissible g reqs)
    (hrep : Represent g reqs objects) {m : MiniGraph} {i v : ℕ} (hm : m.Matches reqs req)
    (hv : req.vertex.data[i]? = some v) (hkeeps : Keeps objects objects')
    (hstate : m.Unpruned i) :
    req.source g objects v
      = some (shown g (req :: reqs) (m :: objects') objects'.length i) := by
  cases hparent : req.parent with
  | none =>
      simp only [source, hparent, shown, if_true, if_pos hstate, hm.parent, getD_vertex hv]
  | some p =>
      obtain ⟨parent, hlookup, hcov⟩ := hadm.covered p hparent
      obtain ⟨j, hj, hvj⟩ := hm.linked p parent hparent hlookup i v hv
      obtain ⟨mg, hmg, _, hmgrep, hsets⟩ := hrep.lookup hlookup
      have hjD : m.mgIndices.getD i 0 = j := by
        rw [List.getD_eq_getElem?_getD, hj, Option.getD_some]
      have hshown : shown g (req :: reqs) (m :: objects') objects'.length i
          = shown g reqs objects p j := by
        simp only [shown, if_true, if_pos hstate, hm.parent, hparent, hjD, hkeeps.shown_eq]
      rw [hshown, ← (readEntry_eq hg hrep hlookup hvj).1]
      simp only [source, hparent, hmg, hmgrep.idxOf_vertex hsets hvj, Option.bind_eq_bind,
        Option.bind_some]

variable (req pool) in
/-- What an entry of the built object is read as. -/
theorem BuildRequest.readEntry_build (hg : g.Valid) (hadm : req.Admissible g reqs)
    (hrep : Represent g reqs objects) (htype : req.type = .costModel)
    (hfit : req.OffsetsFit g objects) (hreach : req.ReachesIter) {i v : ℕ}
    (hv : req.vertex.data[i]? = some v) :
    ∃ s, (miniGraphBuild g pool req objects).bind (readEntry g objects.length i) = some s ∧
      s.vid = v ∧ (req.LeftFree i v → req.source g objects v = some s) ∧
      (¬ req.LeftFree i v → s = { data := req.exact g v, vid := v }) := by
  obtain ⟨m, rest, hbuild, hrep', hkeeps⟩ := miniGraphBuild_spec pool hg hadm hrep hfit
    (fun h => by simp [htype] at h) fun _ => hreach
  have hself : lookup (req :: reqs) objects.length = some req := by
    rw [← hrep.length_eq]
    exact lookup_self req reqs
  obtain ⟨hread, hanswers⟩ := readEntry_eq hg hrep' hself hv
  refine ⟨shown g (req :: reqs) (m :: rest) objects.length i, ?_, hanswers.vid, ?_⟩
  · rw [hbuild, Option.bind_some, hread]
  · cases hrep' with
    | cons _ hm hrest =>
        obtain ⟨room, hholds⟩ := hm
        have hi : i < req.vertex.size := (List.getElem?_eq_some_iff.mp hv).1
        rw [hkeeps.length_eq]
        cases hholds.entry i hi v hv with
        | stored _ hdegree _ _ hkept =>
            refine ⟨fun h => absurd h hkept, fun _ => ?_⟩
            exact shown_eq_exact hv
              (not_unpruned_of_exact hg hadm.sets hv hdegree)
        | reserved _ _ hdegree _ hkept =>
            refine ⟨fun h => absurd h hkept, fun _ => shown_eq_exact hv ?_⟩
            rintro (⟨hlazy, -⟩ | ⟨-, hnever⟩)
            · simp [hholds.type, htype] at hlazy
            · exact absurd (Option.some.inj (hdegree.symm.trans hnever)) (by decide)
        | unpruned hstate _ hleft =>
            exact ⟨fun _ => source_eq hg hadm hrep hholds.toMatches hv hkeeps hstate,
              fun h => absurd hleft h⟩

/-- Before the last id of `iter`, and on a shared array, the word behind `iter` plays no part. -/
theorem BuildRequest.prunesAtOnce_congr (beyond : ℕ → ℕ) {i v : ℕ}
    (h : req.iter.start = req.vertex.start ∨ ∃ x ∈ req.iter.data, v ≤ x) :
    ({ req with beyond } : BuildRequest).PrunesAtOnce i v ↔ req.PrunesAtOnce i v := by
  rw [PrunesAtOnce, PrunesAtOnce]
  split_ifs with hstart
  · exact Iff.rfl
  · obtain ⟨x, hx, hvx⟩ := h.resolve_left hstart
    have hne : req.iter.data.dropWhile (· < v) ≠ [] := by
      intro hnil
      have := List.dropWhile_eq_nil_iff.mp hnil x hx
      simp only [decide_eq_true_eq] at this
      omega
    obtain ⟨y, ys, hcons⟩ := List.exists_cons_of_ne_nil hne
    simp only [hcons, List.head?_cons, Option.getD_some]

/-- Behind the last id of `iter` the word decides. -/
theorem BuildRequest.prunesAtOnce_beyond (beyond : ℕ → ℕ) {i v : ℕ}
    (hstart : req.iter.start ≠ req.vertex.start) (h : ∀ x ∈ req.iter.data, x < v) :
    ({ req with beyond } : BuildRequest).PrunesAtOnce i v ↔ beyond i = v := by
  have hnil : req.iter.data.dropWhile (· < v) = [] := by
    rw [List.dropWhile_eq_nil_iff]
    intro x hx
    simpa using h x hx
  simp only [PrunesAtOnce, if_neg hstart, hnil, List.head?_nil, Option.getD_none]

variable (req) in
theorem BuildRequest.leftFree_iff (htype : req.type = .costModel) {i v : ℕ} :
    req.LeftFree i v ↔ ¬ req.PrunesAtOnce i v ∧ req.shouldPrune i = false := by
  simp only [LeftFree, htype]

theorem BuildRequest.Admissible.beyond (hadm : req.Admissible g reqs) (beyond : ℕ → ℕ) :
    ({ req with beyond } : BuildRequest).Admissible g reqs where
  sets := ⟨hadm.sets.vertex_sorted, hadm.sets.vertex_lt, hadm.sets.intersect_sorted,
    hadm.sets.intersect_lt, hadm.sets.iter_sorted, hadm.sets.consistent⟩
  covered p hp := by
    obtain ⟨parent, hlookup, hcov⟩ := hadm.covered p hp
    exact ⟨parent, hlookup, hcov.vertex_subset, hcov.intersect_subset, hcov.bounded,
      hcov.consistent⟩

/-- A build that reaches its entries answers the same whatever lies behind `iter`, exactly if it
makes no difference beyond `iter`. -/
theorem BuildRequest.ignoresBeyond_iff (hg : g.Valid) (hadm : req.Admissible g reqs)
    (hrep : Represent g reqs objects) (htype : req.type = .costModel)
    (hfit : ∀ beyond, ({ req with beyond } : BuildRequest).OffsetsFit g objects)
    (hreach : req.ReachesIter) :
    req.IgnoresBeyond g pool objects ↔ req.SettledBeyond g objects := by
  have hread := fun (beyond : ℕ → ℕ) {i v : ℕ} (hv : req.vertex.data[i]? = some v) =>
    readEntry_build { req with beyond } pool hg (hadm.beyond beyond) hrep htype
      (hfit beyond) hreach hv
  constructor
  · intro hignores hstart i v hv hlt
    by_contra hnot
    rw [not_or, Bool.not_eq_true] at hnot
    obtain ⟨hprune, hsource⟩ := hnot
    have hi : i < req.vertex.size := (List.getElem?_eq_some_iff.mp hv).1
    -- the word is the vertex itself, or another one
    obtain ⟨s₁, hrun₁, -, -, hexact⟩ := hread (fun _ => v) hv
    obtain ⟨s₂, hrun₂, -, hleft, -⟩ := hread (fun _ => v + 1) hv
    have honce : ¬ ({ req with beyond := fun _ => v } : BuildRequest).LeftFree i v := by
      rw [leftFree_iff { req with beyond := fun _ => v } htype,
        prunesAtOnce_beyond _ hstart hlt]
      simp
    have hnever : ({ req with beyond := fun _ => v + 1 } : BuildRequest).LeftFree i v := by
      rw [leftFree_iff { req with beyond := fun _ => v + 1 } htype,
        prunesAtOnce_beyond _ hstart hlt]
      exact ⟨by simp, hprune⟩
    apply hsource
    intro s hs
    have hsame : s₁ = s₂ := by
      have := (hignores (fun _ => v) i hi).trans (hignores (fun _ => v + 1) i hi).symm
      rw [hrun₁, hrun₂] at this
      exact Option.some.inj this
    have hs₂ : req.source g objects v = some s₂ := hleft hnever
    rw [hs] at hs₂
    rw [Option.some.inj hs₂, ← hsame, hexact honce]
    rfl
  · intro hsettled beyond i hi
    have hv : req.vertex.data[i]? = some (req.vertex.data[i]) := List.getElem?_eq_getElem hi
    set v := req.vertex.data[i]
    obtain ⟨s₁, hrun₁, hvid₁, hleft₁, hexact₁⟩ := hread beyond hv
    obtain ⟨s₂, hrun₂, hvid₂, hleft₂, hexact₂⟩ := hread req.beyond hv
    rw [hrun₁]
    refine Eq.trans ?_ hrun₂.symm
    rw [leftFree_iff { req with beyond } htype] at hleft₁ hexact₁
    rw [leftFree_iff req htype] at hleft₂ hexact₂
    by_cases hbefore : req.iter.start = req.vertex.start ∨ ∃ x ∈ req.iter.data, v ≤ x
    · rw [prunesAtOnce_congr beyond hbefore] at hleft₁ hexact₁
      by_cases hfree : ¬ req.PrunesAtOnce i v ∧ req.shouldPrune i = false
      · have h₁ : req.source g objects v = some s₁ := hleft₁ hfree
        rw [← h₁, hleft₂ hfree]
      · rw [hexact₁ hfree, hexact₂ hfree]
        rfl
    · rw [not_or] at hbefore
      obtain ⟨hstart, hlt⟩ := hbefore
      simp only [not_exists, not_and, not_le] at hlt
      -- either way the list is the exact one
      have hboth : ∀ (s : VertexSet) (once : Prop), s.vid = v →
          (¬ once ∧ req.shouldPrune i = false → req.source g objects v = some s) →
          (¬ (¬ once ∧ req.shouldPrune i = false) → s = { data := req.exact g v, vid := v }) →
          s = { data := req.exact g v, vid := v } := by
        intro s once hvid hleft hexact
        by_cases hfree : ¬ once ∧ req.shouldPrune i = false
        · rcases hsettled hstart i v hv hlt with hprune | hsource
          · simp [hprune] at hfree
          · obtain ⟨data, vid⟩ := s
            have hdata : data = req.exact g v := hsource _ (hleft hfree)
            have hvid' : vid = v := hvid
            rw [hdata, hvid']
        · exact hexact hfree
      rw [hboth s₁ _ hvid₁ hleft₁ hexact₁, hboth s₂ _ hvid₂ hleft₂ hexact₂]

/-- After any builds and reads, a build of `MiniGraphCostModel` answers as it should exactly if it
reaches the entries of `iter`; and, besides, it does not depend on the memory behind `iter` exactly
if no entry beyond `iter` is left unpruned with something to prune. -/
theorem costModel_answers_iff (hg : g.Valid) (hrun : MiniGraphRun g reqs objects returned)
    (pool : MiniGraphPool) (htype : req.type = .costModel) (hadm : req.Admissible g reqs)
    (hfit : ∀ beyond, ({ req with beyond } : BuildRequest).OffsetsFit g objects) :
    (req.AnswersCalls g pool reqs objects ↔ req.ReachesIter) ∧
      (req.AnswersCalls g pool reqs objects ∧ req.IgnoresBeyond g pool objects ↔
        req.ReachesIter ∧ req.SettledBeyond g objects) := by
  have hrep := (hrun.invariant hg).1
  have hanswers := BuildRequest.answersCalls_iff pool hg hrep htype hadm
    (hfit req.beyond)
  refine ⟨hanswers, ?_⟩
  rw [hanswers]
  exact and_congr_right fun hreach =>
    BuildRequest.ignoresBeyond_iff hg hadm hrep htype hfit hreach

end

/-! ### A skipped entry -/

/-- The vertices of a triangle, built in the loop over the same array. -/
def skippedTriangle : BuildRequest where
  type := .costModel
  bounded := false
  parent := none
  vertex := { data := [0, 1, 2], start := 0 }
  intersect := { data := [0, 1, 2] }
  iter := { data := [0, 1, 2], start := 0 }

/-- The same sets in two arrays. -/
def mergedTriangle : BuildRequest :=
  { skippedTriangle with iter := { data := [0, 1, 2], start := 3 } }

theorem costModel_answers_triangle :
    mergedTriangle.AnswersCalls triangle exactPool [] [] ∧
      mergedTriangle.IgnoresBeyond triangle exactPool [] := by
  have hadm : mergedTriangle.Admissible triangle [] := by
    refine ⟨by constructor <;> decide, fun p hp => ?_⟩
    simp [mergedTriangle, skippedTriangle] at hp
  refine (costModel_answers_iff valid_triangle .start exactPool rfl hadm fun _ =>
    BuildRequest.offsetsFit_of_mul_lt (show 3 * 3 < 2 ^ 32 by decide)).2.mpr ⟨by decide, ?_⟩
  -- no vertex lies beyond `iter`
  intro _ i v hv hlt
  have hv' : v ∈ [0, 1, 2] := List.mem_of_getElem? hv
  have h₂ : 2 < v := hlt 2 (by decide)
  simp only [List.mem_cons, List.not_mem_nil, or_false] at hv'
  omega

/-- Without a parent, and on one array, `N` reads what nobody has written. -/
theorem costModel_reads_stale :
    skippedTriangle.Admissible triangle [] ∧ skippedTriangle.OffsetsFit triangle [] ∧
      ¬ skippedTriangle.AnswersCalls triangle exactPool [] [] := by
  refine ⟨⟨by constructor <;> decide, fun p hp => ?_⟩,
    BuildRequest.offsetsFit_of_mul_lt (by decide),
    BuildRequest.not_answersCalls_of_skipped rfl rfl rfl (by decide) (by decide)⟩
  simp [skippedTriangle] at hp

end GraphMini
