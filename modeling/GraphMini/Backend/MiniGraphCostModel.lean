import GraphMini.Backend.MiniGraphBuildSpec

/-!
# The build of `MiniGraphCostModel`

An entry of `iter` is pruned at once; of the others `should_prune` decides which get room for a later
prune. The build skips the entries of `iter` when it has no parent and `iter` starts where the vertex
set does, and then leaves their positions and degrees unwritten.
-/

namespace GraphMini

open MiniGraph (Entry)

variable {g : Graph} {reqs : List BuildRequest} {req : BuildRequest} {objects : List MiniGraph}
  {m : MiniGraph} {i v k : ℕ} {room : ℕ → ℕ} {pool : MiniGraphPool}

theorem dropWhile_dropWhile_lt {a b : ℕ} (hab : a ≤ b) (l : List ℕ) :
    (l.dropWhile (· < a)).dropWhile (· < b) = l.dropWhile (· < b) := by
  induction l with
  | nil => rfl
  | cons x l ih =>
      by_cases hxa : x < a
      · have hxb : x < b := by omega
        simp [hxa, hxb, ih]
      · simp [hxa]

theorem head?_dropWhile_lt {l : List ℕ} (hl : l.SortedLT) (hv : v ∈ l) :
    (l.dropWhile (· < v)).head? = some v := by
  induction l with
  | nil => simp at hv
  | cons x l ih =>
      rcases List.mem_cons.mp hv with rfl | hv
      · simp
      · have hxv : x < v := SortedList.head_lt hl hv
        simp [hxv, ih (SortedList.tail hl) hv]

namespace MiniGraph.BuiltUpTo

/-- Room for the entry is left behind the entries before it. -/
theorem pruneLater_spec (hg : g.Valid) (hadm : req.Admissible g reqs)
    (h : m.BuiltUpTo g reqs req room k) (htype : req.type = .costModel)
    (hv : req.vertex.data[k]? = some v) (hkept : ¬ req.LeftFree k v)
    (hroom : room k = min req.intersect.size (g.degree v))
    (hwrap : entryStart room (k + 1) < 2 ^ 32) :
    ∃ m', m.pruneLater g pool k = some m' ∧ m'.BuiltUpTo g reqs req room (k + 1) := by
  have hk : k < req.vertex.size := (List.getElem?_eq_some_iff.mp hv).1
  have hvlt := hadm.sets.vertex_lt v (List.mem_of_getElem? hv)
  have hfits : (req.exact g v).length ≤ room k := by
    rw [hroom]
    apply le_min BuildRequest.length_exact_le
    calc (req.exact g v).length
        ≤ (g.N v).data.length := (BuildRequest.exact_sublist_adj hg hadm.sets hvlt).length_le
      _ ≤ g.degree v := List.length_take_le _ _
  have hnext : entryStart room (k + 1) = entryStart room k + room k := entryStart_succ room k
  have hvm : m.vertex.data[k]? = some v := by rw [h.vertex, hv]
  have hest : min m.intersect.size (g.degree v) = room k := by rw [h.intersect, hroom]
  obtain ⟨ctn, hresize, hcap, -, hread⟩ := m.resize_eq pool k (room k + entryStart room k)
  obtain ⟨pos, hset, hposcap, hself, hother⟩ :=
    MiniGraph.setPos_some (m := { m with ctn }) (i := k + 1)
      (show k + 1 < m.pos.capacity by have := h.pos_capacity; omega) hwrap
  obtain ⟨degree, hset', hdegcap, hdegree, hother'⟩ :=
    MiniGraph.setDegree_some (m := { m with ctn, pos }) (i := k)
      (hk.trans_le h.degree_capacity) (by decide : willPrune < 2 ^ 32)
  have hposk : pos.get k = some (entryStart room k) := (hother k (by omega)).trans h.pos_next
  refine ⟨{ m with ctn, pos, degree }, ?_, ?_, ?_, positions_succ h.positions hother hself⟩
  · simp only [MiniGraph.pruneLater, hvm, h.pos_next, hest, hresize, Option.bind_eq_bind,
      Option.bind_some]
    rw [← hnext, hset]
    exact hset'
  · refine h.toHolds.extend (h.update ctn pos degree) hdegcap (fun j hj => hother j (by omega))
      (fun j hj => hother' j (by omega)) (fun p n ys _ => hread p n ys) ?_ fun w hw => ?_
    · simp only [hnext]
      omega
    · obtain rfl : v = w := Option.some.inj (hv.symm.trans hw)
      exact .reserved (Or.inr htype) hposk hdegree hfits hkept
  · simp only [hposcap]
    exact h.pos_capacity

/-- The entry takes no room. -/
theorem pruneNever_spec (h : m.BuiltUpTo g reqs req room k) (htype : req.type = .costModel)
    (hv : req.vertex.data[k]? = some v) (hfree : v ∉ req.iter.data) (hleft : req.LeftFree k v)
    (hroom : room k = 0)
    (hwrap : entryStart room (k + 1) < 2 ^ 32) :
    ∃ m', m.pruneNever k = some m' ∧ m'.BuiltUpTo g reqs req room (k + 1) := by
  have hk : k < req.vertex.size := (List.getElem?_eq_some_iff.mp hv).1
  have hnext : entryStart room (k + 1) = entryStart room k := by
    rw [entryStart_succ, hroom, Nat.add_zero]
  obtain ⟨degree, hset', hdegcap, hdegree, hother'⟩ :=
    MiniGraph.setDegree_some (m := m) (i := k) (hk.trans_le h.degree_capacity)
      (by decide : notPrune < 2 ^ 32)
  obtain ⟨pos, hset, hposcap, hself, hother⟩ :=
    MiniGraph.setPos_some (m := { m with degree }) (i := k + 1)
      (show k + 1 < m.pos.capacity by have := h.pos_capacity; omega) hwrap
  refine ⟨{ m with pos, degree }, ?_, ?_, ?_, positions_succ h.positions hother hself⟩
  · simp only [MiniGraph.pruneNever, hset', h.pos_next, Option.bind_eq_bind, Option.bind_some]
    rw [← hnext, hset]
  · refine h.toHolds.extend (h.update m.ctn pos degree) hdegcap (fun j hj => hother j (by omega))
      (fun j hj => hother' j (by omega)) (fun _ _ _ _ => id) (hnext ▸ h.fits) fun w hw => ?_
    obtain rfl : v = w := Option.some.inj (hv.symm.trans hw)
    exact .unpruned (Or.inr ⟨h.type.trans htype, hdegree⟩) hfree hleft
  · simp only [hposcap]
    exact h.pos_capacity

variable (pool) in
/-- An entry outside of `iter` that the build does not prune. -/
theorem pruneByModel_spec (hg : g.Valid) (hadm : req.Admissible g reqs)
    (htype : req.type = .costModel)
    (h : m.BuiltUpTo g reqs req (req.room g objects) k) (hfit : req.OffsetsFit g objects)
    (hv : req.vertex.data[k]? = some v) (hfree : v ∉ req.iter.data)
    (hlater : ¬ req.PrunesAtOnce k v) :
    ∃ m', m.pruneByModel g pool k req = some m' ∧
      m'.BuiltUpTo g reqs req (req.room g objects) (k + 1) := by
  have hk : k < req.vertex.size := (List.getElem?_eq_some_iff.mp hv).1
  have hwrap := (entryStart_mono (req.room g objects) hk).trans_lt hfit
  have hroom : req.room g objects k
      = if req.shouldPrune k then min req.intersect.size (g.degree v) else 0 := by
    simp only [BuildRequest.room, htype, BuildRequest.getD_vertex hv, if_neg hlater]
  rw [MiniGraph.pruneByModel]
  split_ifs with hprune
  · have hkept : ¬ req.LeftFree k v := by simp [BuildRequest.LeftFree, htype, hprune]
    exact h.pruneLater_spec hg hadm htype hv hkept (by rw [hroom, if_pos hprune]) hwrap
  · have hleft : req.LeftFree k v := by simpa [BuildRequest.LeftFree, htype, hlater] using hprune
    exact h.pruneNever_spec htype hv hfree hleft (by rw [hroom, if_neg hprune]) hwrap

end MiniGraph.BuiltUpTo

variable (pool) in
/-- An entry of `iter`. -/
theorem MiniGraph.BuiltUpTo.pruneAtOnce_spec (hg : g.Valid) (hadm : req.Admissible g reqs)
    (htype : req.type = .costModel) {objects₁ : List MiniGraph}
    (h : m.BuiltUpTo g reqs req (req.room g objects) k) (hfit : req.OffsetsFit g objects)
    (hrep : Represent g reqs objects₁) (hv : req.vertex.data[k]? = some v)
    (honce : req.PrunesAtOnce k v) :
    ∃ m' objects₂, m.pruneNow g pool objects₁ k = some (m', objects₂) ∧
      m'.BuiltUpTo g reqs req (req.room g objects) (k + 1) ∧ Represent g reqs objects₂ ∧
      Keeps objects₁ objects₂ := by
  have hk : k < req.vertex.size := (List.getElem?_eq_some_iff.mp hv).1
  have hroom : req.room g objects k = (req.exact g v).length := by
    simp only [BuildRequest.room, htype, BuildRequest.getD_vertex hv, if_pos honce]
  have hkept : ¬ req.LeftFree k v := by simp [BuildRequest.LeftFree, htype, honce]
  exact h.pruneNow_spec hg hadm hrep hv hkept hroom ((entryStart_mono _ hk).trans_lt hfit)

/-- The loop over `vertex` and `iter` side by side. -/
theorem MiniGraphCostModel.buildMerge_spec (hg : g.Valid) (hadm : req.Admissible g reqs)
    (htype : req.type = .costModel) (hfit : req.OffsetsFit g objects)
    (happart : req.iter.start ≠ req.vertex.start) {count : ℕ} {iter : List ℕ}
    {objects₁ : List MiniGraph}
    (hcount : k + count = req.vertex.size)
    (hiter : ∀ (i v : ℕ), k ≤ i → req.vertex.data[i]? = some v →
      iter.dropWhile (· < v) = req.iter.data.dropWhile (· < v))
    (h : m.BuiltUpTo g reqs req (req.room g objects) k)
    (hrep : Represent g reqs objects₁) (hkeeps : Keeps objects objects₁) :
    BuildsObject g reqs req objects
      (MiniGraphCostModel.buildMerge g pool req iter (List.range' k count) m objects₁) := by
  induction count generalizing k iter m objects₁ with
  | zero =>
      obtain rfl : k = req.vertex.size := hcount
      exact ⟨m, objects₁, rfl, ⟨_, h.toHolds⟩, hrep, hkeeps, h.positioned⟩
  | succ count ih =>
      have hk : k < req.vertex.size := by omega
      have hv : req.vertex.data[k]? = some (req.vertex.data[k]) := List.getElem?_eq_getElem hk
      set v := req.vertex.data[k] with hvdef
      have hdrop := hiter k v le_rfl hv
      have hiter' : ∀ (i w : ℕ), k + 1 ≤ i → req.vertex.data[i]? = some w →
          (iter.dropWhile (· < v)).dropWhile (· < w) = req.iter.data.dropWhile (· < w) := by
        intro i w hi hw
        obtain ⟨hilt, hat⟩ := List.getElem?_eq_some_iff.mp hw
        have hvw : v ≤ w := by
          rw [← hat, hvdef]
          exact (hadm.sets.vertex_sorted.getElem_lt_getElem_iff.mpr hi).le
        rw [hdrop, dropWhile_dropWhile_lt hvw]
      have honce : req.PrunesAtOnce k v
          ↔ (iter.dropWhile (· < v)).head?.getD (req.beyond k) = v := by
        rw [BuildRequest.PrunesAtOnce, if_neg happart, hdrop]
      rw [List.range'_succ, MiniGraphCostModel.buildMerge]
      simp only [h.vertex, hv, Option.bind_eq_bind, Option.bind_some]
      split_ifs with hhead
      · obtain ⟨m', objects₂, hrun, hbuilt, hrep₂, hkeeps₂⟩ :=
          h.pruneAtOnce_spec pool hg hadm htype hfit hrep hv (honce.mpr hhead)
        rw [hrun]
        exact ih (by omega) hiter' hbuilt hrep₂ (hkeeps.trans hkeeps₂)
      · have hfree : v ∉ req.iter.data := by
          intro hmem
          rw [hdrop, head?_dropWhile_lt hadm.sets.iter_sorted hmem] at hhead
          exact hhead rfl
        obtain ⟨m', hrun, hbuilt⟩ := h.pruneByModel_spec pool hg hadm htype hfit hv hfree
          (mt honce.mp hhead)
        rw [hrun]
        exact ih (by omega) hiter' hbuilt hrep hkeeps

/-- Where `iter` starts with the vertex set, the build reaches the entries of `iter`: it has a parent
and `iter` is no longer than the vertex set, or there are none. -/
def BuildRequest.ReachesIter (req : BuildRequest) : Prop :=
  req.iter.start = req.vertex.start →
    if req.parent.isSome then req.iter.size ≤ req.vertex.size
    else req.vertex.size = 0 ∨ req.iter.size = 0

instance (req : BuildRequest) : Decidable req.ReachesIter := by
  unfold BuildRequest.ReachesIter
  infer_instance

/-- A prefix of the vertex set consists of the entries below its length. -/
theorem BuildRequest.mem_iter_iff (hadm : req.Admissible g reqs)
    (hstart : req.iter.start = req.vertex.start) (hsize : req.iter.size ≤ req.vertex.size)
    (hv : req.vertex.data[i]? = some v) : v ∈ req.iter.data ↔ i < req.iter.size := by
  obtain ⟨hi, rfl⟩ := List.getElem?_eq_some_iff.mp hv
  have hpre : req.iter.data <+: req.vertex.data := by
    rcases hadm.sets.consistent hstart.symm with hpre | hpre
    · exact (hpre.eq_of_length_le hsize) ▸ List.prefix_rfl
    · exact hpre
  exact SortedList.prefix_mem_iff hadm.sets.vertex_sorted hpre hi

/-- The two loops over an array that `iter` and the vertex set share. -/
theorem MiniGraph.BuiltUpTo.shared_spec (hg : g.Valid) (hadm : req.Admissible g reqs)
    (htype : req.type = .costModel) (hfit : req.OffsetsFit g objects)
    (hstart : req.iter.start = req.vertex.start) (hsize : req.iter.size ≤ req.vertex.size)
    (hrep : Represent g reqs objects)
    (h : m.BuiltUpTo g reqs req (req.room g objects) 0) :
    BuildsObject g reqs req objects (do
      let (m, objects) ← (List.range req.iter.size).foldlM
        (fun (s : MiniGraph × List MiniGraph) i => s.1.pruneNow g pool s.2 i) (m, objects)
      let m ← (List.range' req.iter.size (req.vertex.size - req.iter.size)).foldlM
        (fun m i => m.pruneByModel g pool i req) m
      return (m, objects)) := by
  have hmem := fun {i v : ℕ} => BuildRequest.mem_iter_iff hadm hstart hsize (i := i) (v := v)
  have honce : ∀ {i v : ℕ}, req.PrunesAtOnce i v ↔ v ∈ req.iter.data := by
    intro i v
    rw [BuildRequest.PrunesAtOnce, if_pos hstart]
  have hfirst : ∀ (s : MiniGraph × List MiniGraph), ∀ k < req.iter.size,
      (s.1.BuiltUpTo g reqs req (req.room g objects) k ∧ Represent g reqs s.2 ∧ Keeps objects s.2) →
      ∃ s', s.1.pruneNow g pool s.2 k = some s' ∧
        (s'.1.BuiltUpTo g reqs req (req.room g objects) (k + 1) ∧ Represent g reqs s'.2 ∧
          Keeps objects s'.2) := by
    rintro ⟨m, objects₁⟩ k hk ⟨hbuilt, hrep₁, hkeeps₁⟩
    have hv := List.getElem?_eq_getElem (hk.trans_le hsize : k < req.vertex.data.length)
    obtain ⟨m', objects₂, hrun, hbuilt', hrep₂, hkeeps₂⟩ := hbuilt.pruneAtOnce_spec pool hg hadm htype hfit
      hrep₁ hv (honce.mpr ((hmem hv).mpr hk))
    exact ⟨(m', objects₂), hrun, hbuilt', hrep₂, hkeeps₁.trans hkeeps₂⟩
  have hsecond : ∀ (m : MiniGraph) (k : ℕ), req.iter.size ≤ k →
      k < req.iter.size + (req.vertex.size - req.iter.size) →
      m.BuiltUpTo g reqs req (req.room g objects) k →
      ∃ m', m.pruneByModel g pool k req = some m' ∧
        m'.BuiltUpTo g reqs req (req.room g objects) (k + 1) := by
    intro m k hlow hhigh hbuilt
    rw [Nat.add_sub_of_le hsize] at hhigh
    have hv := List.getElem?_eq_getElem (show k < req.vertex.data.length from hhigh)
    have hfree : req.vertex.data[k] ∉ req.iter.data :=
      fun hin => absurd ((hmem hv).mp hin) (not_lt.mpr hlow)
    exact hbuilt.pruneByModel_spec pool hg hadm htype hfit hv hfree (mt honce.mp hfree)
  obtain ⟨⟨m₁, objects₁⟩, hrun₁, hbuilt₁, hrep₁, hkeeps₁⟩ := Loop.foldlM_range _ hfirst
    (s := (m, objects)) ⟨h, hrep, Keeps.refl objects⟩
  obtain ⟨m₂, hrun₂, hbuilt₂⟩ := Loop.foldlM_range' _ hsecond hbuilt₁
  rw [Nat.add_sub_of_le hsize] at hbuilt₂
  refine ⟨m₂, objects₁, ?_, ⟨_, hbuilt₂.toHolds⟩, hrep₁, hkeeps₁, hbuilt₂.positioned⟩
  rw [hrun₁]
  simp only [Option.bind_eq_bind, Option.bind_some, hrun₂]
  rfl

theorem MiniGraphCostModel.build_spec (hg : g.Valid) (hadm : req.Admissible g reqs)
    (hrep : Represent g reqs objects) (htype : req.type = .costModel)
    (hfit : req.OffsetsFit g objects) (hreach : req.ReachesIter) :
    BuildsObject g reqs req objects (MiniGraphCostModel.build g pool req objects) := by
  rw [MiniGraphCostModel.build]
  by_cases hempty : req.parent.isNone = true ∧ req.vertex.size = 0
  · -- nothing to build
    obtain ⟨hparent, hsize⟩ := hempty
    have hone : 1 ≤ pool.capacity 0 1 := pool.le_capacity 0 1
    obtain ⟨pos, hset, -, hzero, -⟩ := MiniGraph.setPos_some (i := 0)
      (m := { MiniGraph.start pool req with
        pos := Buffer.fresh (pool.capacity 0 1), degree := Buffer.fresh 0 })
      (show 0 < pool.capacity 0 1 by omega) (show 0 < 2 ^ 32 by norm_num)
    rw [if_pos ⟨hparent, hsize⟩]
    have hpositioned : req.Positioned g objects { MiniGraph.start pool req with
        pos := pos, degree := Buffer.fresh 0 } := by
      intro i hi _
      obtain rfl : i = 0 := by omega
      exact hzero
    refine ⟨_, objects, by simp only [hset]; rfl, ⟨fun _ => 0, ?_⟩, hrep, Keeps.refl objects,
      hpositioned⟩
    have hnone : ∀ p parent, req.parent = some p → lookup reqs p = some parent → False := by
      intro p parent hp
      simp [hp] at hparent
    refine ⟨⟨⟨rfl, rfl, rfl, rfl, rfl⟩, fun p parent hp hlookup => (hnone p parent hp hlookup).elim⟩,
      ?_, ?_, ?_⟩
    · rw [hsize]
      exact Nat.zero_le _
    · rw [hsize]
      exact Nat.zero_le _
    · intro i hi
      rw [hsize] at hi
      exact absurd hi (Nat.not_lt_zero i)
  · rw [if_neg hempty]
    obtain ⟨m₀, hset, hsame, hposcap, hdegcap, hzero⟩ := MiniGraph.start_spec pool req
    obtain ⟨mgIndices, hlink, hmatches⟩ := hsame.link_some hadm hrep
    have hbuilt : ({ m₀ with mgIndices } : MiniGraph).BuiltUpTo g reqs req (req.room g objects) 0 :=
      hmatches.builtUpTo_zero hdegcap hposcap hzero
    simp only [hset, hlink, Option.bind_eq_bind, Option.bind_some]
    by_cases hstart : req.iter.start = req.vertex.start
    · obtain ⟨hsize, hshared⟩ : req.iter.size ≤ req.vertex.size ∧
          (if req.parent.isNone = true ∧ req.vertex.size ≠ 0 then 0 else req.iter.size)
            = req.iter.size := by
        cases hparent : req.parent with
        | none =>
            have hne : req.vertex.size ≠ 0 := fun h => hempty ⟨by simp [hparent], h⟩
            have hnil : req.iter.size = 0 := by simpa [hparent, hne] using hreach hstart
            simp [hnil]
        | some p =>
            have hle : req.iter.size ≤ req.vertex.size := by simpa [hparent] using hreach hstart
            simp [hle]
      rw [if_pos hstart, hshared]
      exact hbuilt.shared_spec hg hadm htype hfit hstart hsize hrep
    · rw [if_neg hstart, List.range_eq_range']
      exact MiniGraphCostModel.buildMerge_spec hg hadm htype hfit hstart (Nat.zero_add _)
        (fun _ _ _ _ => rfl) hbuilt hrep (Keeps.refl objects)

end GraphMini
