import GraphMini.Backend.MiniGraphRead

/-!
# The answers of `N`

By induction on the objects, the oldest first: an entry that is not stored is computed from an answer
of the parent, which is an older object.
-/

namespace GraphMini

open MiniGraph (Entry)

/-- What a call of `N` for the vertex `v` of an object built for `req` returns and leaves behind: a
view of `s`. -/
structure Outcome (g : Graph) (reqs : List BuildRequest) (objects : List MiniGraph)
    (req : BuildRequest) (v : ℕ) (s : VertexSet) (view : View) (objects' : List MiniGraph) :
    Prop where
  represent : Represent g reqs objects'
  keeps : Keeps objects objects'
  settled : view.Settled objects'
  read : view.read g objects' = some s
  answers : Answers g req v s

/-- `parentN` answers for every entry of every object. -/
def AnswersAll (g : Graph) (reqs : List BuildRequest) (objects : List MiniGraph)
    (parentN : MgRead) : Prop :=
  ∀ id req i v, lookup reqs id = some req → req.vertex.data[i]? = some v →
    ∃ view objects', parentN id i = some (view, objects') ∧
      Outcome g reqs objects req v (shown g reqs objects id i) view objects'

section

variable {g : Graph} {reqs : List BuildRequest} {req : BuildRequest} {objects : List MiniGraph}
  {m : MiniGraph} {parentN : MgRead} {i v k : ℕ} {room : ℕ → ℕ}

theorem MiniGraph.Matches.update (h : m.Matches reqs req) (ctn pos degree : Buffer ℕ) :
    ({ m with ctn, pos, degree } : MiniGraph).Matches reqs req :=
  ⟨⟨h.type, h.bounded, h.parent, h.vertex, h.intersect⟩, h.linked⟩

/-- What is computed for an entry is its exact list. -/
theorem MiniGraph.Matches.pruned_eq (hg : g.Valid) (hadm : req.Admissible g reqs)
    (hm : m.Matches reqs req) (hrep : Represent g reqs objects)
    (hN : AnswersAll g reqs objects parentN) (hv : req.vertex.data[i]? = some v) :
    ∃ objects', m.pruned g objects parentN i = some (req.exact g v, objects') ∧
      Represent g reqs objects' ∧ Keeps objects objects' := by
  have hvlt : v < g.numVertex := hadm.sets.vertex_lt v (List.mem_of_getElem? hv)
  have hvm : m.vertex.data[i]? = some v := by rw [hm.vertex, hv]
  cases hparent : req.parent with
  | none =>
      refine ⟨objects, ?_, hrep, Keeps.refl objects⟩
      have hsource : ∀ x, x ∈ (if m.bounded then g.NBound v else g.N v).data
          ↔ g.Adj v x ∧ (req.bounded = true → x < v) := by
        intro x
        rw [hm.bounded]
        cases req.bounded <;> simp [hg.NBound_data hvlt, Graph.mem_N]
      have hsorted : (if m.bounded then g.NBound v else g.N v).data.SortedLT := by
        cases m.bounded
        · exact hg.sorted v hvlt
        · simp only [if_true, hg.NBound_data hvlt]
          exact SortedList.filter (hg.sorted v hvlt) _
      have hdata : (m.intersect.intersect (if m.bounded then g.NBound v else g.N v) none).data
          = req.exact g v := by
        rw [hm.intersect, VertexSet.intersect_data hadm.sets.intersect_sorted hsorted]
        refine SortedList.eq_of_mem_iff (SortedList.filter hadm.sets.intersect_sorted _)
          (BuildRequest.exact_sorted hadm.sets) fun x => ?_
        rw [List.mem_filter, BuildRequest.mem_exact, ← hsource x]
        simp [reaches]
      simp [MiniGraph.pruned, hvm, hm.parent, hparent, hdata]
  | some p =>
      obtain ⟨parent, hlookup, hcov⟩ := hadm.covered p hparent
      obtain ⟨j, hj, hvj⟩ := hm.linked p parent hparent hlookup i v hv
      obtain ⟨view, objects', hrun, hout⟩ := hN p parent j v hlookup hvj
      set s := shown g reqs objects p j
      have hs := hout.answers
      refine ⟨objects', ?_, hout.represent, hout.keeps⟩
      have hsorted := SortedList.sublist (hg.sorted v hvlt) hs.sublist_adj
      have hdata : (m.intersect.intersect s (if m.bounded then some v else none)).data
          = req.exact g v := by
        rw [hm.intersect, VertexSet.intersect_data hadm.sets.intersect_sorted hsorted]
        refine SortedList.eq_of_mem_iff (SortedList.filter hadm.sets.intersect_sorted _)
          (BuildRequest.exact_sorted hadm.sets) fun x => ?_
        rw [List.mem_filter, BuildRequest.mem_exact, hm.bounded]
        have hbound : reaches (if req.bounded then some v else none) x = false
            ↔ (req.bounded = true → x < v) := by
          cases req.bounded <;> simp [reaches]
        simp only [Bool.and_eq_true, decide_eq_true_eq, Bool.not_eq_true', hbound]
        refine and_congr_right fun hint => and_congr_left fun hlt => ?_
        constructor
        · exact fun hx => hs.sublist_adj.subset hx
        · intro hadj
          apply hs.exact_sublist.subset
          exact hcov.mem_exact (BuildRequest.mem_exact.mpr ⟨hint, hadj, hlt⟩)
      simp [MiniGraph.pruned, hvm, hm.parent, hparent, hj, hrun, hout.read, hdata]

/-- An entry that need not be pruned is read from the parent or from the data graph. -/
theorem MiniGraph.Matches.unpruned_spec (hg : g.Valid) (hadm : req.Admissible g reqs)
    (hm : m.Matches reqs req) (hrep : Represent g reqs objects)
    (hN : AnswersAll g reqs objects parentN) (hv : req.vertex.data[i]? = some v)
    (hprecise : ¬ req.Precise v) (hstate : m.Unpruned i) :
    ∃ view objects', m.unpruned g objects parentN i = some (view, objects') ∧
      Outcome g reqs objects req v (shown g (req :: reqs) (m :: objects) objects.length i) view
        objects' := by
  have hvlt : v < g.numVertex := hadm.sets.vertex_lt v (List.mem_of_getElem? hv)
  have hvm : m.vertex.data[i]? = some v := by rw [hm.vertex, hv]
  have hvreq : req.vertex.data.getD i 0 = v := by
    rw [List.getD_eq_getElem?_getD, hv, Option.getD_some]
  cases hparent : req.parent with
  | none =>
      have hshown : shown g (req :: reqs) (m :: objects) objects.length i = g.N v := by
        simp only [shown, if_true, if_pos hstate, hm.parent, hparent, hvreq]
      rw [hshown]
      refine ⟨g.view v, objects, ?_, hrep, Keeps.refl objects, trivial, rfl, ?_⟩
      · simp [MiniGraph.unpruned, hvm, hm.parent, hparent]
      · exact {
          vid := rfl
          exact_sublist := BuildRequest.exact_sublist_adj hg hadm.sets hvlt
          sublist_adj := List.Sublist.refl _
          eq_exact := fun h => absurd h hprecise }
  | some p =>
      obtain ⟨parent, hlookup, hcov⟩ := hadm.covered p hparent
      obtain ⟨j, hj, hvj⟩ := hm.linked p parent hparent hlookup i v hv
      obtain ⟨view, objects', hrun, hout⟩ := hN p parent j v hlookup hvj
      have hjD : m.mgIndices.getD i 0 = j := by
        rw [List.getD_eq_getElem?_getD, hj, Option.getD_some]
      have hshown : shown g (req :: reqs) (m :: objects) objects.length i
          = shown g reqs objects p j := by
        simp only [shown, if_true, if_pos hstate, hm.parent, hparent, hjD]
      rw [hshown]
      refine ⟨view, objects', ?_, hout.represent, hout.keeps, hout.settled, hout.read, ?_⟩
      · simp [MiniGraph.unpruned, hm.parent, hparent, hj, hrun]
      · exact hout.answers.of_parent hcov (fun h => absurd h hprecise) hg hadm.sets hvlt

/-! ### Filling an entry -/

theorem MiniGraph.setDegree_some {value : ℕ} (hi : i < m.degree.capacity) (hvalue : value < 2 ^ 32) :
    ∃ degree : Buffer ℕ, m.setDegree i value = some { m with degree } ∧
      degree.capacity = m.degree.capacity ∧ degree.get i = some value ∧
      ∀ j, j ≠ i → degree.get j = m.degree.get j := by
  obtain ⟨degree, hset, hspec⟩ := Buffer.exists_set value hi
  refine ⟨degree, ?_, hspec⟩
  rw [MiniGraph.setDegree, Nat.mod_eq_of_lt hvalue, hset]
  rfl

theorem MiniGraph.setPos_some {value : ℕ} (hi : i < m.pos.capacity) (hvalue : value < 2 ^ 32) :
    ∃ pos : Buffer ℕ, m.setPos i value = some { m with pos } ∧
      pos.capacity = m.pos.capacity ∧ pos.get i = some value ∧
      ∀ j, j ≠ i → pos.get j = m.pos.get j := by
  obtain ⟨pos, hset, hspec⟩ := Buffer.exists_set value hi
  refine ⟨pos, ?_, hspec⟩
  rw [MiniGraph.setPos, Nat.mod_eq_of_lt hvalue, hset]
  rfl

theorem MiniGraph.fill_some {ids : List ℕ} {start : ℕ} (hpos : m.pos.get i = some start)
    (hdegree : i < m.degree.capacity) (hroom : start + ids.length ≤ m.ctn.capacity)
    (hlen : ids.length < 2 ^ 32) :
    ∃ ctn degree : Buffer ℕ, m.fill i ids = some { m with ctn, degree } ∧
      ctn.capacity = m.ctn.capacity ∧ degree.capacity = m.degree.capacity ∧
      ctn.read start ids.length = some ids ∧
      (∀ pos len ys, pos + len ≤ start ∨ start + ids.length ≤ pos →
        m.ctn.read pos len = some ys → ctn.read pos len = some ys) ∧
      degree.get i = some ids.length ∧ ∀ j, j ≠ i → degree.get j = m.degree.get j := by
  obtain ⟨ctn, hctn, hctncap, hread, hapart⟩ := Buffer.exists_write ids hroom
  obtain ⟨degree, hset, hdegcap, hself, hother⟩ :=
    ({ m with ctn } : MiniGraph).setDegree_some (i := i) hdegree hlen
  refine ⟨ctn, degree, ?_, hctncap, hdegcap, hread, hapart, hself, hother⟩
  simpa [MiniGraph.fill, hpos, hctn] using hset

/-- An entry does not depend on what lies outside of its part of the buffer. -/
theorem MiniGraph.Entry.congr {m m' : MiniGraph} {start len : ℕ} (h : Entry g req m start len i v)
    (htype : m'.type = m.type) (hpos : m'.pos.get i = m.pos.get i)
    (hdegree : m'.degree.get i = m.degree.get i)
    (hread : ∀ n ≤ len, ∀ ys, m.ctn.read start n = some ys → m'.ctn.read start n = some ys) :
    Entry g req m' start len i v := by
  cases h with
  | stored pos degree read fits kept =>
      exact .stored (hpos ▸ pos) (hdegree ▸ degree) (hread _ fits _ read) fits kept
  | reserved type pos degree fits kept =>
      exact .reserved type (hpos ▸ pos) (hdegree ▸ degree) fits kept
  | unpruned state free left =>
      refine .unpruned ?_ free left
      rw [MiniGraph.Unpruned, htype, hdegree]
      exact state

/-- Filling an entry with its exact list keeps all the others. -/
theorem MiniGraph.Holds.fill (hg : g.Valid) (hsets : req.Sets g)
    (h : m.Holds g reqs req room k) (hv : req.vertex.data[i]? = some v)
    (hpos : m.pos.get i = some (entryStart room i))
    (hfits : (req.exact g v).length ≤ room i) (hkept : ¬ req.LeftFree i v)
    (hroom : entryStart room i + (req.exact g v).length ≤ m.ctn.capacity) :
    ∃ ctn degree : Buffer ℕ, m.fill i (req.exact g v) = some { m with ctn, degree } ∧
      ctn.capacity = m.ctn.capacity ∧ degree.capacity = m.degree.capacity ∧
      (∀ j, j ≠ i → degree.get j = m.degree.get j) ∧
      degree.get i = some (req.exact g v).length ∧
      ({ m with ctn, degree } : MiniGraph).Holds g reqs req room k ∧
      Entry g req { m with ctn, degree } (entryStart room i) (room i) i v := by
  have hvlt : v < g.numVertex := hsets.vertex_lt v (List.mem_of_getElem? hv)
  have hlen : (req.exact g v).length < 2 ^ 32 := by
    have := BuildRequest.length_exact_lt hg hsets hvlt
    simp only [notPrune] at this
    omega
  have hi : i < req.vertex.size := (List.getElem?_eq_some_iff.mp hv).1
  obtain ⟨ctn, degree, hrun, hctncap, hdegcap, hread, hapart, hself, hother⟩ :=
    m.fill_some hpos (hi.trans_le h.degree_capacity) hroom hlen
  have hentry : Entry g req { m with ctn, degree } (entryStart room i) (room i) i v :=
    .stored hpos hself hread hfits hkept
  refine ⟨ctn, degree, hrun, hctncap, hdegcap, hother, hself, ?_, hentry⟩
  exact {
    toMatches := h.update ctn m.pos degree
    degree_capacity := hdegcap ▸ h.degree_capacity
    fits := hctncap ▸ h.fits
    entry := by
      intro j hj w hw
      by_cases hij : j = i
      · subst hij
        obtain rfl : v = w := Option.some.inj (hv.symm.trans hw)
        exact hentry
      · refine (h.entry j hj w hw).congr rfl rfl (hother j hij) ?_
        intro n hn ys hys
        apply hapart _ _ _ _ hys
        rcases Nat.lt_or_gt_of_ne hij with hlt | hgt
        · have := entryStart_add_le room hlt
          omega
        · have := entryStart_add_le room hgt
          omega }

theorem BuildRequest.not_sentinel_exact (hg : g.Valid) (hsets : req.Sets g)
    (hv : req.vertex.data[i]? = some v) (type : MgType) :
    ¬ type.Sentinel (req.exact g v).length := by
  have := length_exact_lt hg hsets (hsets.vertex_lt v (List.mem_of_getElem? hv))
  simp only [MgType.Sentinel, notPrune, invalidId] at this ⊢
  omega

/-- What an entry that is not left to the parent is read as. -/
theorem shown_eq_exact (hv : req.vertex.data[i]? = some v)
    (hstate : ¬ m.Unpruned i) :
    shown g (req :: reqs) (m :: objects) objects.length i
      = { data := req.exact g v, vid := v } := by
  have hvreq : req.vertex.data.getD i 0 = v := by
    rw [List.getD_eq_getElem?_getD, hv, Option.getD_some]
  simp only [shown, if_true, if_neg hstate, hvreq]

theorem BuildRequest.not_unpruned_of_exact (hg : g.Valid) (hsets : req.Sets g)
    (hv : req.vertex.data[i]? = some v) (hdegree : m.degree.get i = some (req.exact g v).length) :
    ¬ m.Unpruned i := by
  have hlt := length_exact_lt hg hsets (hsets.vertex_lt v (List.mem_of_getElem? hv))
  rintro (⟨-, hstate⟩ | ⟨-, hstate⟩)
  · have := Option.some.inj (hdegree.symm.trans hstate)
    exact absurd this (hlt.trans (by decide : notPrune < invalidId)).ne
  · exact absurd (Option.some.inj (hdegree.symm.trans hstate)) hlt.ne

/-- A stored entry is returned as a view of the object's buffer. -/
theorem MiniGraph.Holds.stored_spec {n start : ℕ} {o : List MiniGraph} (hg : g.Valid)
    (hadm : req.Admissible g reqs) (h : m.Holds g reqs req room req.vertex.size)
    (hrep : Represent g reqs objects) (hv : req.vertex.data[i]? = some v)
    (hkeeps : Keeps o (m :: objects)) (hn : n = objects.length)
    (hpos : m.pos.get i = some start)
    (hdegree : m.degree.get i = some (req.exact g v).length) :
    ∃ view, m.stored n i = some view ∧
      Outcome g (req :: reqs) o req v { data := req.exact g v, vid := v } view (m :: objects) := by
  have hvm : m.vertex.data[i]? = some v := by rw [h.vertex, hv]
  have hlookup : lookup (m :: objects) n = some m := hn ▸ lookup_self m objects
  have hi : i < m.vertex.size := (List.getElem?_eq_some_iff.mp hvm).1
  have hhas : m.HasStored i start (req.exact g v).length :=
    ⟨hpos, hdegree, BuildRequest.not_sentinel_exact hg hadm.sets hv m.type⟩
  have hread : m.ctn.read start (req.exact g v).length = some (req.exact g v) := by
    obtain ⟨v', hv', hread⟩ := MiniGraph.Represents.read_stored ⟨room, h⟩ hi hhas
    obtain rfl : v = v' := Option.some.inj (hv.symm.trans hv')
    exact hread
  refine ⟨⟨.miniGraph n, start, (req.exact g v).length, v⟩, ?_, ?_⟩
  · simp [MiniGraph.stored, hpos, hdegree, hvm]
  · refine ⟨.cons hadm ⟨room, h⟩ hrep, hkeeps, ⟨m, hlookup, i, hi, hhas⟩, ?_, ?_⟩
    · simp [View.read, hlookup, hread]
    · exact answers_exact hg hadm.sets (hadm.sets.vertex_lt v (List.mem_of_getElem? hv))

/-- A reserved entry is filled with its exact list and then returned. -/
theorem MiniGraph.Holds.fillAndRead_spec {n : ℕ} (hg : g.Valid) (hadm : req.Admissible g reqs)
    (h : m.Holds g reqs req room req.vertex.size) (hrep : Represent g reqs objects)
    (hN : AnswersAll g reqs objects parentN) (hv : req.vertex.data[i]? = some v)
    (hn : n = objects.length) (hpos : m.pos.get i = some (entryStart room i))
    (hdegree : m.degree.get i = some invalidId) (hstate : ¬ m.Unpruned i)
    (hfits : (req.exact g v).length ≤ room i) (hkept : ¬ req.LeftFree i v) :
    ∃ view objects', m.fillAndRead g objects parentN n i = some (view, objects') ∧
      Outcome g (req :: reqs) (m :: objects) req v { data := req.exact g v, vid := v } view
        objects' := by
  obtain ⟨rest, hpruned, hrep', hkeeps⟩ := h.toMatches.pruned_eq hg hadm hrep hN hv
  have hi : i < req.vertex.size := (List.getElem?_eq_some_iff.mp hv).1
  have hroom : entryStart room i + (req.exact g v).length ≤ m.ctn.capacity := by
    have h₁ := entryStart_add_le room hi
    have h₂ := h.fits
    omega
  obtain ⟨ctn, degree, hfill, -, -, hother, hself, hholds, -⟩ :=
    h.fill hg hadm.sets hv hpos hfits hkept hroom
  have hkept : m.Kept { m with ctn, degree } := by
    refine ⟨rfl, rfl, rfl, fun j pos len hj => ?_, fun j => ?_⟩
    · have hji : j ≠ i := by
        rintro rfl
        have := hj.degree_get.symm.trans hdegree
        exact hj.stored (Or.inl (Option.some.inj this))
      exact ⟨hj.pos_get, (hother j hji).trans hj.degree_get, hj.stored⟩
    · by_cases hji : j = i
      · subst hji
        exact iff_of_false (BuildRequest.not_unpruned_of_exact hg hadm.sets hv hself) hstate
      · simp only [MiniGraph.Unpruned, hother j hji]
  obtain ⟨view, hstored, hout⟩ := hholds.stored_spec hg hadm hrep' hv
    (List.Forall₂.cons hkept hkeeps) (hn.trans hkeeps.length_eq) hpos hself
  refine ⟨view, _, ?_, hout⟩
  simp [MiniGraph.fillAndRead, hpruned, hfill, hstored]

/-- Every entry of every object is answered. -/
theorem miniGraphN_spec (hg : g.Valid) (hrep : Represent g reqs objects) :
    AnswersAll g reqs objects (miniGraphN g objects) := by
  induction hrep with
  | nil =>
      intro id req i v hreq
      simp [lookup] at hreq
  | @cons reqs req objects m hadm hm hrep ih =>
      intro id req' i v hreq hv
      rw [lookup] at hreq
      split_ifs at hreq with heq
      · cases hreq
        obtain rfl : id = objects.length := heq.trans hrep.length_eq
        have hi : i < req.vertex.size := (List.getElem?_eq_some_iff.mp hv).1
        have hkeeps := Keeps.refl (m :: objects)
        obtain ⟨room, hholds⟩ := hm
        simp only [miniGraphN, if_true, hholds.type]
        cases hholds.entry i hi v hv with
        | stored hpos hdegree _ _ _ =>
            obtain ⟨view, hstored, hout⟩ :=
              hholds.stored_spec hg hadm hrep hv hkeeps rfl hpos hdegree
            rw [shown_eq_exact hv
              (BuildRequest.not_unpruned_of_exact hg hadm.sets hv hdegree)]
            have hlt := BuildRequest.length_exact_lt hg hadm.sets
              (hadm.sets.vertex_lt v (List.mem_of_getElem? hv))
            have hinvalid : (req.exact g v).length ≠ invalidId :=
              (hlt.trans (by decide : notPrune < invalidId)).ne
            refine ⟨view, m :: objects, ?_, hout⟩
            cases htype : req.type with
            | eager => simp [MiniGraphEager.N, hstored]
            | lazy => simp [MiniGraphLazy.N, hdegree, hinvalid, hstored]
            | online => simp [MiniGraphOnline.N, hdegree, hinvalid, hstored]
            | costModel =>
                have hwill : (req.exact g v).length ≠ willPrune := hinvalid
                simp [MiniGraphCostModel.N, hdegree, hlt.ne, hwill, hstored]
        | reserved htype hpos hdegree hfits hkept =>
            have hnot : invalidId ≠ notPrune := by decide
            have hstate : ¬ m.Unpruned i := by
              rintro (⟨hlazy, -⟩ | ⟨-, hnever⟩)
              · rw [hholds.type] at hlazy
                simp [hlazy] at htype
              · exact hnot (Option.some.inj (hdegree.symm.trans hnever))
            obtain ⟨view, rest, hrun, hout⟩ :=
              hholds.fillAndRead_spec hg hadm hrep ih hv rfl hpos hdegree hstate hfits hkept
            rw [shown_eq_exact hv hstate]
            refine ⟨view, rest, ?_, hout⟩
            rcases htype with htype | htype
            · simp [htype, MiniGraphOnline.N, hdegree, hrun]
            · have hwill : invalidId = willPrune := rfl
              rw [hwill] at hdegree hnot
              simp [htype, MiniGraphCostModel.N, hdegree, hnot, hrun]
        | unpruned hstate hfree _ =>
            have hprecise : ¬ req.Precise v := by
              rw [BuildRequest.Precise, ← hholds.type]
              rcases hstate with ⟨htype, -⟩ | ⟨htype, -⟩ <;> simp [htype, hfree]
            obtain ⟨view, rest, hrun, hout⟩ :=
              hholds.unpruned_spec hg hadm hrep ih hv hprecise hstate
            refine ⟨view, m :: rest, ?_, .cons hadm ⟨room, hholds⟩ hout.represent,
              List.Forall₂.cons (MiniGraph.Kept.refl m) hout.keeps, hout.settled.cons m,
              (View.read_cons m hout.settled).trans hout.read, hout.answers⟩
            rcases hstate with ⟨htype, hdegree⟩ | ⟨htype, hdegree⟩
            · rw [hholds.type] at htype
              simp [htype, MiniGraphLazy.N, hdegree, hrun]
            · rw [hholds.type] at htype
              simp [htype, MiniGraphCostModel.N, hdegree, hrun]
      · obtain ⟨view, rest, hrun, hout⟩ := ih id req' i v hreq hv
        have hne : id ≠ objects.length := hrep.length_eq ▸ heq
        have hshown : shown g (req :: reqs) (m :: objects) id i = shown g reqs objects id i := by
          simp only [shown, if_neg hne]
        rw [hshown]
        refine ⟨view, m :: rest, ?_, .cons hadm hm hout.represent,
          List.Forall₂.cons (MiniGraph.Kept.refl m) hout.keeps, hout.settled.cons m,
          (View.read_cons m hout.settled).trans hout.read, hout.answers⟩
        simp [miniGraphN, hne, hrun]

end

end GraphMini
