import GraphMini.Backend.MiniGraphN
import GraphMini.Lib.Loop

/-!
# What the builds leave behind

Each build leaves an object that stands for its request. The room that a build gives its entries is
known beforehand, so the positions are the sums of the rooms and the invariant of the loops is that
the entries so far stand in their places.
-/

namespace GraphMini

open MiniGraph (Entry)
open Finset (range)

namespace BuildRequest

variable (g : Graph) (req : BuildRequest) (objects : List MiniGraph)

/-- What the build adds to the position of entry `i` for the position after it. -/
def room (i : ℕ) : ℕ :=
  let v := req.vertex.data.getD i 0
  match req.type with
  | .eager => (req.exact g v).length
  | .lazy => if v ∈ req.iter.data then (req.exact g v).length else 0
  | .online =>
      match req.parent with
      | none => min (if req.bounded then g.offset.getD v 0 else g.degree v) req.intersect.size
      | some p => min req.intersect.size
          (((lookup objects p).bind fun mg => mg.degree.get (mg.vertex.data.idxOf v)).getD 0)
  | .costModel =>
      if req.PrunesAtOnce i v then (req.exact g v).length
      else if req.shouldPrune i then min req.intersect.size (g.degree v)
      else 0

/-- No position wraps around. -/
def OffsetsFit : Prop := entryStart (req.room g objects) req.vertex.size < 2 ^ 32

/-- The build writes `m_pos[i]`: `MiniGraphLazy` leaves out the entries outside of `iter`. -/
def StoresPos (i : ℕ) : Prop :=
  req.type = .lazy → i = 0 ∨ i < req.vertex.size ∧ req.vertex.data.getD i 0 ∈ req.iter.data

/-- No position that is written wraps around. -/
def PositionsFit : Prop :=
  ∀ i ≤ req.vertex.size, req.StoresPos i → entryStart (req.room g objects) i < 2 ^ 32

/-- Every position that is written is the sum of the rooms before it. -/
def Positioned (m : MiniGraph) : Prop :=
  ∀ i ≤ req.vertex.size, req.StoresPos i →
    m.pos.get i = some (entryStart (req.room g objects) i)

end BuildRequest

section

variable {g : Graph} {reqs : List BuildRequest} {req : BuildRequest} {objects : List MiniGraph}
  {m : MiniGraph} {i v k : ℕ} {room : ℕ → ℕ} {pool : MiniGraphPool}

theorem BuildRequest.getD_vertex (hv : req.vertex.data[i]? = some v) :
    req.vertex.data.getD i 0 = v := by
  rw [List.getD_eq_getElem?_getD, hv, Option.getD_some]

theorem BuildRequest.room_le (i : ℕ) : req.room g objects i ≤ req.intersect.size := by
  rw [room]
  have hexact : ∀ v, (req.exact g v).length ≤ req.intersect.size := fun _ => length_exact_le
  cases req.type with
  | eager => exact hexact _
  | lazy =>
      simp only
      split_ifs
      · exact hexact _
      · exact Nat.zero_le _
  | online =>
      cases req.parent with
      | none => exact min_le_right _ _
      | some p => exact min_le_left _ _
  | costModel =>
      simp only
      split_ifs
      · exact hexact _
      · exact min_le_left _ _
      · exact Nat.zero_le _

/-- Small sets do not make the positions wrap around. -/
theorem BuildRequest.offsetsFit_of_mul_lt (h : req.vertex.size * req.intersect.size < 2 ^ 32) :
    req.OffsetsFit g objects := by
  refine lt_of_le_of_lt ?_ h
  calc entryStart (req.room g objects) req.vertex.size
      ≤ ∑ _j ∈ range req.vertex.size, req.intersect.size := Finset.sum_le_sum fun i _ => room_le i
    _ = req.vertex.size * req.intersect.size := by simp

/-- The object finds its vertices in the parent. -/
theorem MiniGraph.Same.link_some (h : m.Same req) (hadm : req.Admissible g reqs)
    (hrep : Represent g reqs objects) :
    ∃ mgIndices : List ℕ, m.link objects = some { m with mgIndices } ∧
      ({ m with mgIndices } : MiniGraph).Matches reqs req := by
  have hmatches : ∀ mgIndices : List ℕ, ({ m with mgIndices } : MiniGraph).Same req :=
    fun _ => ⟨h.type, h.bounded, h.parent, h.vertex, h.intersect⟩
  cases hparent : req.parent with
  | none =>
      refine ⟨m.mgIndices, ?_, hmatches _, ?_⟩
      · unfold MiniGraph.link
        split
        · rfl
        · next p hp => simp [h.parent, hparent] at hp
      · intro p parent hp
        simp [hparent] at hp
  | some p =>
      obtain ⟨parent, hlookup, hcov⟩ := hadm.covered p hparent
      obtain ⟨mg, hmg, _, ⟨_, hholds⟩, hsets⟩ := hrep.lookup hlookup
      have hmap := getIndices_of_covers hsets.vertex_sorted hadm.sets.vertex_sorted hcov.consistent
        hcov.vertex_subset
      have hlen : (getIndices parent.vertex req.vertex).length = req.vertex.size := by
        rw [VertexSet.size, ← congrArg List.length hmap, List.length_map]
      refine ⟨getIndices parent.vertex req.vertex, ?_, hmatches _, ?_⟩
      · simp [MiniGraph.link, MiniGraph.indices, h.parent, h.vertex, hparent, hmg, hholds.vertex, hlen]
      · intro p' parent' hp' hlookup' i v hv
        obtain rfl : p = p' := Option.some.inj (hparent.symm.trans hp')
        obtain rfl : parent = parent' := Option.some.inj (hlookup.symm.trans hlookup')
        have hat : ((getIndices parent.vertex req.vertex)[i]?).map
            (fun j => parent.vertex.data.getD j 0) = some v := by
          rw [← List.getElem?_map, hmap, hv]
        obtain ⟨j, hj, hvalue⟩ := Option.map_eq_some_iff.mp hat
        have hlt := lt_of_mem_getIndices hsets.vertex_sorted hadm.sets.vertex_sorted
          hcov.consistent (List.mem_of_getElem? hj)
        refine ⟨j, hj, ?_⟩
        rw [List.getElem?_eq_getElem hlt, ← hvalue, List.getD_eq_getElem _ _ hlt]

/-- A larger container with the same contents. -/
theorem MiniGraph.resize_eq (m : MiniGraph) (pool : MiniGraphPool) (i n : ℕ) :
    ∃ ctn : Buffer ℕ, m.resize pool i n = { m with ctn } ∧ n ≤ ctn.capacity ∧
      m.ctn.capacity ≤ ctn.capacity ∧
      ∀ pos len ys, m.ctn.read pos len = some ys → ctn.read pos len = some ys := by
  rw [MiniGraph.resize]
  split_ifs with hlt
  · have hle := pool.le_capacity i n
    exact ⟨_, rfl, hle, hlt.le.trans hle, fun _ _ _ => Buffer.read_grow (hlt.le.trans hle)⟩
  · exact ⟨m.ctn, rfl, not_lt.mp hlt, le_rfl, fun _ _ _ => id⟩

/-- One more entry, with everything before it as it was. -/
theorem MiniGraph.Holds.extend {m' : MiniGraph} (h : m.Holds g reqs req room k)
    (hm : m'.Matches reqs req) (hcap : m'.degree.capacity = m.degree.capacity)
    (hpos : ∀ j < k, m'.pos.get j = m.pos.get j)
    (hdegree : ∀ j < k, m'.degree.get j = m.degree.get j)
    (hread : ∀ pos len ys, pos + len ≤ entryStart room k → m.ctn.read pos len = some ys →
      m'.ctn.read pos len = some ys)
    (hfits : entryStart room (k + 1) ≤ m'.ctn.capacity)
    (hentry : ∀ v, req.vertex.data[k]? = some v → Entry g req m' (entryStart room k) (room k) k v) :
    m'.Holds g reqs req room (k + 1) where
  toMatches := hm
  degree_capacity := hcap ▸ h.degree_capacity
  fits := hfits
  entry := by
    intro j hj w hw
    rcases Nat.lt_succ_iff_lt_or_eq.mp hj with hlt | rfl
    · refine (h.entry j hlt w hw).congr (hm.type.trans h.type.symm) (hpos j hlt) (hdegree j hlt) fun n hn ys hys => ?_
      refine hread _ _ _ ?_ hys
      have := entryStart_add_le room hlt
      omega
    · exact hentry w hw

theorem BuildRequest.OffsetsFit.positionsFit (h : req.OffsetsFit g objects) :
    req.PositionsFit g objects :=
  fun _ hi _ => (entryStart_mono _ hi).trans_lt h

/-- One more position, with those before it as they were. -/
theorem positions_succ {pos pos' : Buffer ℕ} (h : ∀ i ≤ k, pos.get i = some (entryStart room i))
    (hother : ∀ j, j ≠ k + 1 → pos'.get j = pos.get j)
    (hself : pos'.get (k + 1) = some (entryStart room (k + 1))) :
    ∀ i ≤ k + 1, pos'.get i = some (entryStart room i) := by
  intro i hi
  by_cases hik : i = k + 1
  · rw [hik, hself]
  · rw [hother i hik, h i (by omega)]

/-- The first `k` entries, their positions, and the position where the next one begins. -/
structure MiniGraph.BuiltUpTo (g : Graph) (reqs : List BuildRequest) (req : BuildRequest)
    (room : ℕ → ℕ) (k : ℕ) (m : MiniGraph) : Prop extends m.Holds g reqs req room k where
  pos_capacity : req.vertex.size < m.pos.capacity
  positions : ∀ i ≤ k, m.pos.get i = some (entryStart room i)

theorem MiniGraph.BuiltUpTo.pos_next (h : m.BuiltUpTo g reqs req room k) :
    m.pos.get k = some (entryStart room k) :=
  h.positions k le_rfl

/-- At the end of a build. -/
theorem MiniGraph.BuiltUpTo.positioned
    (h : m.BuiltUpTo g reqs req (req.room g objects) req.vertex.size) :
    req.Positioned g objects m :=
  fun i hi _ => h.positions i hi

theorem MiniGraph.BuiltUpTo.pruneNow_spec (hg : g.Valid) (hadm : req.Admissible g reqs)
    (h : m.BuiltUpTo g reqs req room k) (hrep : Represent g reqs objects)
    (hv : req.vertex.data[k]? = some v) (hkept : ¬ req.LeftFree k v)
    (hroom : room k = (req.exact g v).length) (hwrap : entryStart room (k + 1) < 2 ^ 32) :
    ∃ m' objects', m.pruneNow g pool objects k = some (m', objects') ∧
      m'.BuiltUpTo g reqs req room (k + 1) ∧ Represent g reqs objects' ∧ Keeps objects objects' := by
  have hk : k < req.vertex.size := (List.getElem?_eq_some_iff.mp hv).1
  obtain ⟨ctn, hresize, hcap, -, hread⟩ :=
    m.resize_eq pool k (m.intersect.size + entryStart room k)
  rw [h.intersect] at hcap
  have hle : (req.exact g v).length ≤ req.intersect.size := BuildRequest.length_exact_le
  obtain ⟨objects', hpruned, hrep', hkeeps⟩ := (h.update ctn m.pos m.degree).pruned_eq hg hadm hrep
    (miniGraphN_spec hg hrep) hv
  have hlt := BuildRequest.length_exact_lt hg hadm.sets
    (hadm.sets.vertex_lt v (List.mem_of_getElem? hv))
  obtain ⟨ctn', degree', hfill, hctncap, hdegcap, hself, hapart, hdegree, hother⟩ :=
    MiniGraph.fill_some (m := { m with ctn }) h.pos_next (hk.trans_le h.degree_capacity)
      (show entryStart room k + (req.exact g v).length ≤ ctn.capacity by omega)
      (by simp only [notPrune] at hlt; omega)
  have hnext : entryStart room (k + 1) = entryStart room k + (req.exact g v).length := by
    rw [entryStart_succ, hroom]
  obtain ⟨pos', hset, hposcap, hposself, hposother⟩ :=
    ({ m with ctn := ctn', degree := degree' } : MiniGraph).setPos_some (i := k + 1)
      (by simp only; have := h.pos_capacity; omega) hwrap
  have hposk : pos'.get k = some (entryStart room k) :=
    (hposother k (by omega)).trans h.pos_next
  refine ⟨{ m with ctn := ctn', pos := pos', degree := degree' }, objects', ?_, ?_, hrep', hkeeps⟩
  · simp only [MiniGraph.pruneNow, h.pos_next, hresize, Option.bind_eq_bind, Option.bind_some]
    rw [hpruned]
    simp only [Option.bind_some, hfill]
    rw [← hnext, hset]
    rfl
  · refine ⟨h.toHolds.extend (h.update ctn' pos' degree') hdegcap ?_ ?_ ?_ ?_ ?_, ?_,
      positions_succ h.positions hposother hposself⟩
    · exact fun j hj => hposother j (by omega)
    · exact fun j hj => hother j (by omega)
    · intro pos len ys hbefore hys
      exact hapart _ _ _ (Or.inl hbefore) (hread _ _ _ hys)
    · have hcap' : ctn'.capacity = ctn.capacity := hctncap
      simp only
      omega
    · intro w hw
      obtain rfl : v = w := Option.some.inj (hv.symm.trans hw)
      exact .stored hposk hdegree hself hroom.ge hkept
    · have hcap' : pos'.capacity = m.pos.capacity := hposcap
      simp only [hcap']
      exact h.pos_capacity

/-- Where a build begins: no entry yet, and room for all positions and degrees. -/
theorem MiniGraph.start_spec (pool : MiniGraphPool) (req : BuildRequest) :
    ∃ m : MiniGraph, (MiniGraph.start pool req).setPos 0 0 = some m ∧ m.Same req ∧
      req.vertex.size < m.pos.capacity ∧ req.vertex.size ≤ m.degree.capacity ∧
      m.pos.get 0 = some 0 := by
  have hpos : req.vertex.size + 1024 ≤ (MiniGraph.start pool req).pos.capacity :=
    pool.le_capacity 0 _
  have hdegree : req.vertex.size + 1024 ≤ (MiniGraph.start pool req).degree.capacity :=
    pool.le_capacity 1 _
  obtain ⟨pos, hset, hcap, hget, -⟩ := MiniGraph.setPos_some (m := MiniGraph.start pool req)
    (show 0 < (MiniGraph.start pool req).pos.capacity by omega) (show 0 < 2 ^ 32 by norm_num)
  refine ⟨_, hset, ⟨rfl, rfl, rfl, rfl, rfl⟩, ?_, ?_, hget⟩
  · simp only [hcap]
    omega
  · simp only
    omega

theorem MiniGraph.Matches.holds_zero (h : m.Matches reqs req)
    (hdegree : req.vertex.size ≤ m.degree.capacity) : m.Holds g reqs req room 0 where
  toMatches := h
  degree_capacity := hdegree
  fits := Nat.zero_le _
  entry := fun i hi => absurd hi (Nat.not_lt_zero i)

theorem MiniGraph.Matches.builtUpTo_zero (h : m.Matches reqs req)
    (hdegree : req.vertex.size ≤ m.degree.capacity) (hpos : req.vertex.size < m.pos.capacity)
    (hzero : m.pos.get 0 = some 0) : m.BuiltUpTo g reqs req room 0 :=
  ⟨h.holds_zero hdegree, hpos, fun i hi => by rw [Nat.le_zero.mp hi, hzero]; rfl⟩

/-- What a build returns: an object for the request, and the others with their requests. -/
def BuildsObject (g : Graph) (reqs : List BuildRequest) (req : BuildRequest)
    (objects : List MiniGraph) (result : Option (MiniGraph × List MiniGraph)) : Prop :=
  ∃ m objects', result = some (m, objects') ∧ m.Represents g reqs req ∧
    Represent g reqs objects' ∧ Keeps objects objects' ∧ req.Positioned g objects m

theorem MiniGraphEager.build_spec (hg : g.Valid) (hadm : req.Admissible g reqs)
    (hrep : Represent g reqs objects) (htype : req.type = .eager)
    (hfit : req.OffsetsFit g objects) :
    BuildsObject g reqs req objects (MiniGraphEager.build g pool req objects) := by
  obtain ⟨m₀, hset, hsame, hposcap, hdegcap, hzero⟩ := MiniGraph.start_spec pool req
  obtain ⟨mgIndices, hlink, hmatches⟩ := hsame.link_some hadm hrep
  have hround : ∀ (s : MiniGraph × List MiniGraph), ∀ k < req.vertex.size,
      (s.1.BuiltUpTo g reqs req (req.room g objects) k ∧ Represent g reqs s.2 ∧ Keeps objects s.2) →
      ∃ s', s.1.pruneNow g pool s.2 k = some s' ∧
        (s'.1.BuiltUpTo g reqs req (req.room g objects) (k + 1) ∧ Represent g reqs s'.2 ∧
          Keeps objects s'.2) := by
    rintro ⟨m, objects₁⟩ k hk ⟨hbuilt, hrep₁, hkeeps₁⟩
    have hv : req.vertex.data[k]? = some (req.vertex.data[k]) := List.getElem?_eq_getElem hk
    have hroom : req.room g objects k = (req.exact g (req.vertex.data[k])).length := by
      simp only [BuildRequest.room, htype, BuildRequest.getD_vertex hv]
    have hkept : ¬ req.LeftFree k (req.vertex.data[k]) := by
      simp [BuildRequest.LeftFree, htype]
    obtain ⟨m', objects₂, hrun, hbuilt', hrep₂, hkeeps₂⟩ := hbuilt.pruneNow_spec hg hadm hrep₁ hv
      hkept hroom ((entryStart_mono _ hk).trans_lt hfit)
    exact ⟨(m', objects₂), hrun, hbuilt', hrep₂, hkeeps₁.trans hkeeps₂⟩
  obtain ⟨⟨m, objects'⟩, hrun, hbuilt, hrep', hkeeps⟩ := Loop.foldlM_range _ hround
    (s := ({ m₀ with mgIndices }, objects))
    ⟨hmatches.builtUpTo_zero hdegcap hposcap hzero, hrep, Keeps.refl objects⟩
  refine ⟨m, objects', ?_, ⟨_, hbuilt.toHolds⟩, hrep', hkeeps, hbuilt.positioned⟩
  simp only [MiniGraphEager.build, hset, hlink, Option.bind_eq_bind, Option.bind_some]
  exact hrun

/-! ### Builds that prune the entries of `iter` -/

theorem MiniGraph.clearDegrees_spec (m : MiniGraph) (hcap : m.vertex.size ≤ m.degree.capacity) :
    ∃ degree : Buffer ℕ, m.clearDegrees = some { m with degree } ∧
      degree.capacity = m.degree.capacity ∧
      ∀ i < m.vertex.size, degree.get i = some invalidId := by
  have hround : ∀ s : MiniGraph, ∀ k < m.vertex.size,
      (∃ degree : Buffer ℕ, s = { m with degree } ∧ degree.capacity = m.degree.capacity ∧
        ∀ i < k, degree.get i = some invalidId) →
      ∃ s', s.setDegree k invalidId = some s' ∧
        ∃ degree : Buffer ℕ, s' = { m with degree } ∧ degree.capacity = m.degree.capacity ∧
          ∀ i < k + 1, degree.get i = some invalidId := by
    rintro _ k hk ⟨degree, rfl, hdegcap, hbefore⟩
    obtain ⟨degree', hset, hcap', hself, hother⟩ :=
      MiniGraph.setDegree_some (m := { m with degree }) (i := k)
        (show k < degree.capacity by omega) (by decide : invalidId < 2 ^ 32)
    refine ⟨_, hset, degree', rfl, hcap'.trans hdegcap, fun i hi => ?_⟩
    by_cases hik : i = k
    · rw [hik, hself]
    · rw [hother i hik]
      exact hbefore i (by omega)
  obtain ⟨_, hrun, degree, rfl, hspec⟩ := Loop.foldlM_range _ hround (s := m)
    ⟨m.degree, rfl, rfl, fun i hi => absurd hi (Nat.not_lt_zero i)⟩
  exact ⟨degree, hrun, hspec⟩

/-- `MiniGraphLazy` while it prunes the entries of `iter`: those from `k` on are still cleared. -/
structure LazyUpTo (g : Graph) (reqs : List BuildRequest) (req : BuildRequest)
    (objects : List MiniGraph) (room : ℕ → ℕ) (k : ℕ) (s : MiniGraph × List MiniGraph × ℕ) :
    Prop where
  holds : s.1.Holds g reqs req room k
  pos_capacity : req.vertex.size < s.1.pos.capacity
  cleared : ∀ i, k ≤ i → i < req.vertex.size → s.1.degree.get i = some invalidId
  numEdges : s.2.2 = entryStart room k
  positions : ∀ i, i = 0 ∨ i < k ∧ req.vertex.data.getD i 0 ∈ req.iter.data →
    s.1.pos.get i = some (entryStart room i)
  represent : Represent g reqs s.2.1
  keeps : Keeps objects s.2.1

/-- An entry outside of `iter` is left to the parent. -/
theorem LazyUpTo.skip {s : MiniGraph × List MiniGraph × ℕ} (htype : req.type = .lazy)
    (hk : k < req.vertex.size) (h : LazyUpTo g reqs req objects (req.room g objects) k s)
    (hfree : req.vertex.data.getD k 0 ∉ req.iter.data) :
    LazyUpTo g reqs req objects (req.room g objects) (k + 1) s := by
  have hroom : req.room g objects k = 0 := by
    simp only [BuildRequest.room, htype, if_neg hfree]
  have hnext : entryStart (req.room g objects) (k + 1) = entryStart (req.room g objects) k := by
    rw [entryStart_succ, hroom, Nat.add_zero]
  have hpositions : ∀ i, i = 0 ∨ i < k + 1 ∧ req.vertex.data.getD i 0 ∈ req.iter.data →
      s.1.pos.get i = some (entryStart (req.room g objects) i) := by
    rintro i (hi | ⟨hi, hmem⟩)
    · exact h.positions i (Or.inl hi)
    · have hne : i ≠ k := fun heq => hfree (heq ▸ hmem)
      exact h.positions i (Or.inr ⟨by omega, hmem⟩)
  refine ⟨?_, h.pos_capacity, fun i hi => h.cleared i (by omega), hnext ▸ h.numEdges, hpositions,
    h.represent, h.keeps⟩
  refine h.holds.extend h.holds.toMatches rfl (fun _ _ => rfl) (fun _ _ => rfl)
    (fun _ _ _ _ => id) (hnext ▸ h.holds.fits) fun v hv => ?_
  rw [BuildRequest.getD_vertex hv] at hfree
  have hleft : req.LeftFree k v := by simpa [BuildRequest.LeftFree, htype] using hfree
  exact .unpruned (Or.inl ⟨h.holds.type.trans htype, h.cleared k le_rfl hk⟩) hfree hleft

variable (pool) in
/-- An entry of `iter` is pruned at once. -/
theorem LazyUpTo.step {s : MiniGraph × List MiniGraph × ℕ} (hg : g.Valid)
    (hadm : req.Admissible g reqs) (htype : req.type = .lazy)
    (hfit : req.PositionsFit g objects) (hk : k < req.vertex.size)
    (h : LazyUpTo g reqs req objects (req.room g objects) k s)
    (hiter : req.vertex.data.getD k 0 ∈ req.iter.data) :
    ∃ s', (do
        let m ← s.1.setPos k s.2.2
        let m := m.resize pool k (m.intersect.size + s.2.2)
        let (ids, objects) ← m.pruned g s.2.1 (miniGraphN g s.2.1) k
        let m ← m.fill k ids
        return (m, objects, s.2.2 + ids.length)) = some s' ∧
      LazyUpTo g reqs req objects (req.room g objects) (k + 1) s' := by
  obtain ⟨m, objects₁, numEdges⟩ := s
  obtain ⟨hholds, hposcap, hcleared, hedges, hpositions, hrep, hkeeps⟩ := h
  simp only at hholds hposcap hcleared hedges hpositions hrep hkeeps ⊢
  subst hedges
  have hv : req.vertex.data[k]? = some (req.vertex.data[k]) := List.getElem?_eq_getElem hk
  set v := req.vertex.data[k]
  set start := entryStart (req.room g objects) k with hstart
  rw [BuildRequest.getD_vertex hv] at hiter
  have hkept : ¬ req.LeftFree k v := by simpa [BuildRequest.LeftFree, htype] using hiter
  have hroom : req.room g objects k = (req.exact g v).length := by
    simp only [BuildRequest.room, htype, BuildRequest.getD_vertex hv, if_pos hiter]
  have hnext : entryStart (req.room g objects) (k + 1) = start + (req.exact g v).length := by
    rw [entryStart_succ, hroom]
  have hwrap : start < 2 ^ 32 :=
    hfit k hk.le fun _ => Or.inr ⟨hk, (BuildRequest.getD_vertex hv).symm ▸ hiter⟩
  have hlt := BuildRequest.length_exact_lt hg hadm.sets
    (hadm.sets.vertex_lt v (List.mem_of_getElem? hv))
  have hle : (req.exact g v).length ≤ req.intersect.size := BuildRequest.length_exact_le
  obtain ⟨pos, hset, hposcap', hpos, hposother⟩ :=
    MiniGraph.setPos_some (m := m) (i := k) (by omega) hwrap
  obtain ⟨ctn, hresize, hcap, -, hread⟩ :=
    MiniGraph.resize_eq { m with pos } pool k (m.intersect.size + start)
  obtain ⟨objects₂, hpruned, hrep', hkeeps'⟩ := (hholds.update ctn pos m.degree).pruned_eq hg hadm
    hrep (miniGraphN_spec hg hrep) hv
  rw [hholds.intersect] at hcap
  obtain ⟨ctn', degree, hfill, hctncap, hdegcap, hself, hapart, hdegree, hother⟩ :=
    MiniGraph.fill_some (m := { m with ctn, pos }) hpos (hk.trans_le hholds.degree_capacity)
      (show start + (req.exact g v).length ≤ ctn.capacity by omega)
      (by simp only [notPrune] at hlt; omega)
  refine ⟨({ m with ctn := ctn', pos, degree }, objects₂, start + (req.exact g v).length), ?_, ?_⟩
  · simp only [hset, hresize, Option.bind_eq_bind, Option.bind_some]
    rw [hpruned]
    simp only [Option.bind_some, hfill]
    rfl
  · refine ⟨?_, ?_, ?_, hnext.symm, ?_, hrep', hkeeps.trans hkeeps'⟩
    · refine hholds.extend (hholds.update ctn' pos degree) hdegcap
        (fun j hj => hposother j (by omega)) (fun j hj => hother j (by omega)) ?_ ?_ ?_
      · exact fun p n ys hbefore hys => hapart _ _ _ (Or.inl hbefore) (hread _ _ _ hys)
      · have hcap' : ctn'.capacity = ctn.capacity := hctncap
        simp only
        omega
      · intro w hw
        obtain rfl : v = w := Option.some.inj (hv.symm.trans hw)
        exact .stored hpos hdegree hself hroom.ge hkept
    · simp only [hposcap']
      exact hposcap
    · intro i hi hin
      simp only [hother i (by omega : i ≠ k)]
      exact hcleared i (by omega) hin
    · intro i hi
      by_cases hik : i = k
      · simp only [hik, hpos, hstart]
      · simp only [hposother i hik]
        refine hpositions i (hi.imp_right fun h => ⟨by omega, h.2⟩)

/-- The condition of the assertion in `MiniGraphLazy::build`. -/
def BuildRequest.IterFound (req : BuildRequest) : Prop :=
  req.parent.isSome = true → (getIndices req.vertex req.iter).length = req.iter.size

theorem MiniGraphLazy.build_spec (hg : g.Valid) (hadm : req.Admissible g reqs)
    (hrep : Represent g reqs objects) (htype : req.type = .lazy)
    (hfit : req.PositionsFit g objects) (hfound : req.IterFound) :
    BuildsObject g reqs req objects (MiniGraphLazy.build g pool req objects) := by
  obtain ⟨m₀, hset, hsame, hposcap, hdegcap, hzero⟩ := MiniGraph.start_spec pool req
  obtain ⟨degree, hclear, hdegcap', hcleared⟩ :=
    m₀.clearDegrees_spec (by rw [hsame.vertex]; exact hdegcap)
  have hsame' : ({ m₀ with degree } : MiniGraph).Same req :=
    ⟨hsame.type, hsame.bounded, hsame.parent, hsame.vertex, hsame.intersect⟩
  obtain ⟨mgIndices, hlink, hmatches⟩ := hsame'.link_some hadm hrep
  rw [hsame.vertex] at hcleared
  have hstart : LazyUpTo g reqs req objects (req.room g objects) 0
      ({ m₀ with degree, mgIndices }, objects, 0) := {
    holds := hmatches.holds_zero (hdegcap'.symm ▸ hdegcap)
    pos_capacity := hposcap
    cleared := fun i _ hi => hcleared i hi
    numEdges := rfl
    positions := by
      rintro i (rfl | ⟨hi, -⟩)
      · exact hzero
      · exact absurd hi (Nat.not_lt_zero i)
    represent := hrep
    keeps := Keeps.refl objects }
  obtain ⟨⟨m, objects', numEdges⟩, hrun, hend⟩ := Loop.foldlM_range_filter
    (LazyUpTo g reqs req objects (req.room g objects))
    (fun s k hk hp h => h.step pool hg hadm htype hfit hk (of_decide_eq_true hp))
    (fun s k hk hp h => h.skip htype hk (of_decide_eq_false hp)) hstart
  refine ⟨m, objects', ?_, ⟨_, hend.holds⟩, hend.represent, hend.keeps,
    fun i _ hi => hend.positions i (hi htype)⟩
  rw [← getIndices_eq hadm.sets.vertex_sorted hadm.sets.iter_sorted hadm.sets.consistent] at hrun
  have hassert : ¬ (req.parent.isSome = true ∧
      (getIndices req.vertex req.iter).length ≠ req.iter.size) := by
    rintro ⟨hsome, hne⟩
    exact hne (hfound hsome)
  simp only [MiniGraphLazy.build, hset, hclear, hlink, Option.bind_eq_bind, Option.bind_some,
    if_neg hassert]
  refine Eq.trans (congrArg (Option.bind · _) hrun) rfl

theorem BuildRequest.Sets.intersect_size_lt (h : req.Sets g) : req.intersect.size < 2 ^ 32 := by
  have hsub : req.intersect.data ⊆ List.range invalidId :=
    fun x hx => List.mem_range.mpr (h.intersect_lt x hx)
  have hle := (h.intersect_sorted.nodup.subperm hsub).length_le
  rw [List.length_range] at hle
  exact hle.trans_lt (by decide)

theorem MiniGraph.Represents.idxOf_vertex {j : ℕ} (h : m.Represents g reqs req) (hsets : req.Sets g)
    (hv : req.vertex.data[j]? = some v) : m.vertex.data.idxOf v = j := by
  obtain ⟨_, hholds⟩ := h
  obtain ⟨hj, rfl⟩ := List.getElem?_eq_some_iff.mp hv
  rw [hholds.vertex]
  exact hsets.vertex_sorted.nodup.idxOf_getElem j hj

/-- The degree of a parent's entry is the length of its list, or a large number. -/
theorem MiniGraph.Represents.degree_get {parent : BuildRequest} {mg : MiniGraph} {j : ℕ}
    (h : mg.Represents g reqs parent) (hcov : req.CoveredBy parent) (hsets : req.Sets g)
    (hg : g.Valid) (hv : v ∈ req.vertex.data) (hvj : parent.vertex.data[j]? = some v) :
    ∃ d, mg.degree.get j = some d ∧ (req.exact g v).length ≤ d := by
  obtain ⟨_, hholds⟩ := h
  have hlt := BuildRequest.length_exact_lt hg hsets (hsets.vertex_lt v hv)
  have hbig : (req.exact g v).length ≤ invalidId := (hlt.trans (by decide)).le
  cases hholds.entry j (List.getElem?_eq_some_iff.mp hvj).1 v hvj with
  | stored _ hdegree _ _ _ =>
      refine ⟨_, hdegree, List.Subperm.length_le ?_⟩
      exact (BuildRequest.exact_sorted hsets).nodup.subperm fun x => hcov.mem_exact
  | reserved _ _ hdegree _ _ => exact ⟨_, hdegree, hbig⟩
  | unpruned hstate _ _ =>
      rcases hstate with ⟨-, hdegree⟩ | ⟨-, hdegree⟩
      · exact ⟨_, hdegree, hbig⟩
      · exact ⟨_, hdegree, hlt.le⟩

/-- The room that `MiniGraphOnline` computes; it suffices for the exact list. -/
theorem MiniGraph.Matches.room_eq (hg : g.Valid) (hadm : req.Admissible g reqs)
    (hm : m.Matches reqs req) (hrep : Represent g reqs objects) (htype : req.type = .online)
    (hv : req.vertex.data[i]? = some v) :
    m.room g objects i = some (req.room g objects i) ∧
      (req.exact g v).length ≤ req.room g objects i := by
  have hmem := List.mem_of_getElem? hv
  have hvlt := hadm.sets.vertex_lt v hmem
  have hint : (req.exact g v).length ≤ req.intersect.size := BuildRequest.length_exact_le
  cases hparent : req.parent with
  | none =>
      have hroom : req.room g objects i
          = min (if req.bounded then g.offset.getD v 0 else g.degree v) req.intersect.size := by
        simp only [BuildRequest.room, htype, hparent, BuildRequest.getD_vertex hv]
      refine ⟨?_, ?_⟩
      · simp only [MiniGraph.room, hm.parent, hparent, hm.vertex, hv, hm.bounded, hm.intersect, hroom]
        rfl
      · rw [hroom]
        refine le_min ?_ hint
        cases hb : req.bounded with
        | false =>
            calc (req.exact g v).length
                ≤ (g.N v).data.length := (BuildRequest.exact_sublist_adj hg hadm.sets hvlt).length_le
              _ ≤ g.degree v := List.length_take_le _ _
        | true =>
            have hsub : req.exact g v ⊆ (g.NBound v).data := by
              intro x hx
              obtain ⟨-, hadj, hbound⟩ := BuildRequest.mem_exact.mp hx
              rw [hg.NBound_data hvlt, List.mem_filter, decide_eq_true_eq]
              exact ⟨hadj, hbound hb⟩
            calc (req.exact g v).length
                ≤ (g.NBound v).data.length :=
                  ((BuildRequest.exact_sorted hadm.sets).nodup.subperm hsub).length_le
              _ ≤ g.offset.getD v 0 := List.length_take_le _ _
  | some p =>
      obtain ⟨parent, hlookup, hcov⟩ := hadm.covered p hparent
      obtain ⟨j, hj, hvj⟩ := hm.linked p parent hparent hlookup i v hv
      obtain ⟨mg, hmg, _, hmgrep, hsets⟩ := hrep.lookup hlookup
      obtain ⟨d, hd, hle⟩ := hmgrep.degree_get hcov hadm.sets hg hmem hvj
      have hidx : mg.vertex.data.idxOf v = j := hmgrep.idxOf_vertex hsets hvj
      have hroom : req.room g objects i = min req.intersect.size d := by
        simp only [BuildRequest.room, htype, hparent, BuildRequest.getD_vertex hv, hmg,
          Option.bind_some, hidx, hd, Option.getD_some]
      refine ⟨?_, hroom ▸ le_min hint hle⟩
      simp only [MiniGraph.room, hm.parent, hparent, hmg, hj, hd, hm.intersect, hroom,
        Option.bind_eq_bind, Option.bind_some, Nat.mod_eq_of_lt hadm.sets.intersect_size_lt]
      rfl

/-- The loop of `MiniGraphOnline::build` over the positions. -/
theorem MiniGraph.Matches.positions_spec (hg : g.Valid) (hadm : req.Admissible g reqs)
    (hm : m.Matches reqs req) (hrep : Represent g reqs objects) (htype : req.type = .online)
    (hfit : req.OffsetsFit g objects) (hcap : req.vertex.size < m.pos.capacity)
    (hzero : m.pos.get 0 = some 0) :
    ∃ pos : Buffer ℕ,
      (List.range req.vertex.size).foldlM
        (fun m i => do m.setPos (i + 1) ((← m.pos.get i) + (← m.room g objects i))) m
        = some { m with pos } ∧
      ∀ i ≤ req.vertex.size, pos.get i = some (entryStart (req.room g objects) i) := by
  have hround : ∀ s : MiniGraph, ∀ k < req.vertex.size,
      (∃ pos : Buffer ℕ, s = { m with pos } ∧ pos.capacity = m.pos.capacity ∧
        ∀ i ≤ k, pos.get i = some (entryStart (req.room g objects) i)) →
      ∃ s', (do s.setPos (k + 1) ((← s.pos.get k) + (← s.room g objects k))) = some s' ∧
        ∃ pos : Buffer ℕ, s' = { m with pos } ∧ pos.capacity = m.pos.capacity ∧
          ∀ i ≤ k + 1, pos.get i = some (entryStart (req.room g objects) i) := by
    rintro _ k hk ⟨pos, rfl, hposcap, hbefore⟩
    have hv : req.vertex.data[k]? = some (req.vertex.data[k]) := List.getElem?_eq_getElem hk
    have hroom := ((hm.update m.ctn pos m.degree).room_eq hg hadm hrep htype hv).1
    obtain ⟨pos', hset, hcap', hself, hother⟩ :=
      MiniGraph.setPos_some (m := { m with pos }) (i := k + 1)
        (show k + 1 < pos.capacity by omega) ((entryStart_mono _ hk).trans_lt hfit)
    refine ⟨_, ?_, pos', rfl, hcap'.trans hposcap, fun i hi => ?_⟩
    · simp only [hbefore k le_rfl, hroom, Option.bind_eq_bind, Option.bind_some]
      rw [← entryStart_succ, hset]
    · by_cases hik : i = k + 1
      · rw [hik, hself]
      · rw [hother i hik]
        exact hbefore i (by omega)
  obtain ⟨_, hrun, pos, rfl, -, hspec⟩ := Loop.foldlM_range _ hround (s := m)
    ⟨m.pos, rfl, rfl, fun i hi => by rw [Nat.le_zero.mp hi, hzero]; rfl⟩
  exact ⟨pos, hrun, hspec⟩

/-- With all positions known and all entries cleared, every entry is reserved. -/
theorem MiniGraph.Matches.holds_reserved (hm : m.Matches reqs req) (htype : req.type = .online)
    (hdegree : req.vertex.size ≤ m.degree.capacity)
    (hfits : entryStart room req.vertex.size ≤ m.ctn.capacity)
    (hpos : ∀ i ≤ req.vertex.size, m.pos.get i = some (entryStart room i))
    (hcleared : ∀ i < req.vertex.size, m.degree.get i = some invalidId)
    (hroom : ∀ (i v : ℕ), req.vertex.data[i]? = some v → (req.exact g v).length ≤ room i) :
    m.Holds g reqs req room req.vertex.size where
  toMatches := hm
  degree_capacity := hdegree
  fits := hfits
  entry i hi v hv := .reserved (Or.inl htype) (hpos i hi.le) (hcleared i hi) (hroom i v hv)
    (by simp [BuildRequest.LeftFree, htype])

theorem MiniGraphOnline.build_spec (hg : g.Valid) (hadm : req.Admissible g reqs)
    (hrep : Represent g reqs objects) (htype : req.type = .online)
    (hfit : req.OffsetsFit g objects) :
    BuildsObject g reqs req objects (MiniGraphOnline.build g pool req objects) := by
  obtain ⟨m₀, hset, hsame, hposcap, hdegcap, hzero⟩ := MiniGraph.start_spec pool req
  obtain ⟨degree, hclear, hdegcap', hcleared⟩ :=
    m₀.clearDegrees_spec (by rw [hsame.vertex]; exact hdegcap)
  have hsame' : ({ m₀ with degree } : MiniGraph).Same req :=
    ⟨hsame.type, hsame.bounded, hsame.parent, hsame.vertex, hsame.intersect⟩
  obtain ⟨mgIndices, hlink, hmatches⟩ := hsame'.link_some hadm hrep
  rw [hsame.vertex] at hcleared
  obtain ⟨pos, hpositions, hpos⟩ := hmatches.positions_spec hg hadm hrep htype hfit hposcap hzero
  set room := req.room g objects
  obtain ⟨ctn, hreserve, hctncap⟩ : ∃ ctn : Buffer ℕ,
      ({ m₀ with degree, mgIndices, pos } : MiniGraph).reserve pool (entryStart room req.vertex.size)
        = { m₀ with degree, mgIndices, pos, ctn } ∧
      entryStart room req.vertex.size ≤ ctn.capacity := by
    rw [MiniGraph.reserve]
    split_ifs with hlt
    · exact ⟨_, rfl, pool.le_capacity _ _⟩
    · exact ⟨m₀.ctn, rfl, not_lt.mp hlt⟩
  have hholds : ({ m₀ with degree, mgIndices, pos, ctn } : MiniGraph).Holds g reqs req room
      req.vertex.size :=
    (hmatches.update ctn pos degree).holds_reserved htype (hdegcap'.symm ▸ hdegcap) hctncap hpos
      hcleared fun i v hv => (hmatches.room_eq hg hadm hrep htype hv).2
  -- each round fills one entry, whose room is there already
  have hround : ∀ (s : MiniGraph × List MiniGraph), ∀ k < req.vertex.size,
      (s.1.Holds g reqs req room req.vertex.size ∧ s.1.pos = pos ∧ Represent g reqs s.2 ∧
        Keeps objects s.2) →
      ∃ s', (do
          let (ids, objects) ← s.1.pruned g s.2 (miniGraphN g s.2) k
          return (← s.1.fill k ids, objects)) = some s' ∧
        (s'.1.Holds g reqs req room req.vertex.size ∧ s'.1.pos = pos ∧ Represent g reqs s'.2 ∧
          Keeps objects s'.2) := by
    rintro ⟨m, objects₁⟩ k hk ⟨hholds, hposeq, hrep₁, hkeeps₁⟩
    have hv : req.vertex.data[k]? = some (req.vertex.data[k]) := List.getElem?_eq_getElem hk
    have hfits : (req.exact g (req.vertex.data[k])).length ≤ room k :=
      (hmatches.room_eq hg hadm hrep htype hv).2
    have hroom := entryStart_add_le room hk
    obtain ⟨objects₂, hpruned, hrep₂, hkeeps₂⟩ :=
      hholds.pruned_eq hg hadm hrep₁ (miniGraphN_spec hg hrep₁) hv
    have hcap : entryStart room req.vertex.size ≤ m.ctn.capacity := hholds.fits
    obtain ⟨ctn', degree', hfill, -, -, -, -, hholds', -⟩ :=
      hholds.fill hg hadm.sets hv (hposeq ▸ hpos k hk.le) hfits
        (by simp [BuildRequest.LeftFree, htype])
        (show entryStart room k + _ ≤ m.ctn.capacity by omega)
    refine ⟨({ m with ctn := ctn', degree := degree' }, objects₂), ?_, hholds', hposeq, hrep₂,
      hkeeps₁.trans hkeeps₂⟩
    simp [hpruned, hfill]
  obtain ⟨⟨m, objects'⟩, hrun, hend, hposeq, hrep', hkeeps⟩ := Loop.foldlM_range_filter
    (p := fun i => decide (req.vertex.data.getD i 0 ∈ req.iter.data))
    (fun _ s => s.1.Holds g reqs req room req.vertex.size ∧ s.1.pos = pos ∧ Represent g reqs s.2 ∧
      Keeps objects s.2)
    (fun s k hk _ => hround s k hk) (fun _ _ _ _ => id)
    (s := ({ m₀ with degree, mgIndices, pos, ctn }, objects))
    ⟨hholds, rfl, hrep, Keeps.refl objects⟩
  have hpositioned : req.Positioned g objects m := by
    intro i hi _
    simp only at hposeq
    rw [hposeq]
    exact hpos i hi
  refine ⟨m, objects', ?_, ⟨_, hend⟩, hrep', hkeeps, hpositioned⟩
  have hindices := getIndices_eq hadm.sets.vertex_sorted hadm.sets.iter_sorted hadm.sets.consistent
  rw [← hindices] at hrun
  have hassert : ¬ (req.parent.isSome = true ∧
      req.iter.size < (getIndices req.vertex req.iter).length) := by
    rintro ⟨-, hlt⟩
    have hmap := map_getIndices hadm.sets.vertex_sorted hadm.sets.iter_sorted hadm.sets.consistent
    have hle : (getIndices req.vertex req.iter).length ≤ req.iter.size := by
      rw [← List.length_map (fun i => req.vertex.data.getD i 0), hmap]
      apply ((SortedList.filter hadm.sets.vertex_sorted _).nodup.subperm fun x hx => ?_).length_le
      exact of_decide_eq_true (List.mem_filter.mp hx).2
    omega
  simp only [MiniGraphOnline.build, hset, hclear, hlink, Option.bind_eq_bind, Option.bind_some,
    if_neg hassert]
  simp only [Option.bind_eq_bind] at hpositions
  rw [hpositions]
  simp only [Option.bind_some, hpos _ le_rfl, hreserve]
  exact hrun

end

end GraphMini
