import GraphMini.Backend.MiniGraphStale

/-!
# The places a build looks at

Which positions of `iter` and which places of its own arrays `MiniGraphCostModel::build` reads and
writes. A build goes through rounds, one for each entry it comes to: it looks for the vertex in `iter`,
prunes the entry or leaves it, and all it touches follows from that. `advance` compares before it asks
whether the end is reached, so the word after the last id is looked at as soon as a vertex is larger
than all ids of `iter`, and once more when the result is read.
-/

namespace GraphMini

namespace MiniGraphCostModel

/-- A place in `iter`, `m_vertex`, `m_mg_indices`, `m_degree` or `m_pos`. -/
inductive Access where
  | iter (position : ℕ)
  | vertex (i : ℕ)
  | mgIndices (i : ℕ)
  | degree (i : ℕ)
  | pos (i : ℕ)
deriving DecidableEq, Repr

/-- The place is below the size that the build sets for the array. -/
def Access.InBounds (req : BuildRequest) : Access → Prop
  | .iter position => position < req.iter.size
  | .vertex i => i < req.vertex.size
  | .mgIndices i => i < req.vertex.size
  | .degree i => i < req.vertex.size
  | .pos i => i < req.vertex.size + 1

instance (req : BuildRequest) : DecidablePred (Access.InBounds req) := fun access => by
  cases access <;> (unfold Access.InBounds; infer_instance)

inductive Decision where
  | now
  | later
  | never
deriving DecidableEq, Repr

/-- An entry, the positions of `iter` that are looked at for it, and what becomes of it. -/
structure Round where
  entry : ℕ
  looked : List ℕ
  decision : Decision
deriving DecidableEq, Repr

def byModel (req : BuildRequest) (i : ℕ) : Decision :=
  if req.shouldPrune i then .later else .never

/-- `advance` from position `ptr` on: the position it returns and those it looks at. -/
def advance (iter : List ℕ) (beyond val ptr : ℕ) : ℕ × List ℕ :=
  if iter.getD ptr beyond < val ∧ ptr < iter.length then
    let (out, looked) := advance iter beyond val (ptr + 1)
    (out, ptr :: looked)
  else (ptr, [ptr])
termination_by iter.length - ptr

section

variable (req : BuildRequest)

/-- The rounds of the loop over `vertex` and `iter` side by side, from position `ptr` of `iter` on. -/
def mergeRounds : ℕ → List ℕ → List Round
  | _, [] => []
  | ptr, i :: is =>
      let v := req.vertex.data.getD i 0
      let (ptr, looked) := advance req.iter.data (req.beyond i) v ptr
      let decision := if req.iter.data.getD ptr (req.beyond i) = v then .now else byModel req i
      { entry := i, looked := looked ++ [ptr], decision } :: mergeRounds ptr is

/-- The rounds of a build that does not leave at once. -/
def rounds : List Round :=
  if req.iter.start = req.vertex.start then
    let shared := if req.parent.isNone ∧ req.vertex.size ≠ 0 then 0 else req.iter.size
    (List.range shared).map (fun i => { entry := i, looked := [], decision := .now }) ++
      (List.range' req.iter.size (req.vertex.size - req.iter.size)).map fun i =>
        { entry := i, looked := [], decision := byModel req i }
  else mergeRounds req 0 (List.range req.vertex.size)

/-- What a round touches. A place it comes back to is listed once. -/
def Round.accesses (r : Round) : List Access :=
  r.looked.map .iter ++
    match r.decision with
    | .now => [.vertex r.entry, .pos r.entry] ++
        (if req.parent.isSome then [.mgIndices r.entry] else []) ++
        [.degree r.entry, .pos (r.entry + 1)]
    | .later => [.vertex r.entry, .pos r.entry, .pos (r.entry + 1), .degree r.entry]
    | .never => [.vertex r.entry, .degree r.entry, .pos r.entry, .pos (r.entry + 1)]

/-- All that a build touches. -/
def accesses : List Access :=
  .pos 0 :: if req.parent.isNone ∧ req.vertex.size = 0 then []
    else (rounds req).flatMap (·.accesses req)

/-- The round on the object. -/
def Round.perform (g : Graph) (pool : MiniGraphPool) (s : MiniGraph × List MiniGraph) (r : Round) :
    Option (MiniGraph × List MiniGraph) :=
  match r.decision with
  | .now => s.1.pruneNow g pool s.2 r.entry
  | .later => (·, s.2) <$> s.1.pruneLater g pool r.entry
  | .never => (·, s.2) <$> s.1.pruneNever r.entry

end

/-! ### `advance` -/

/-- The scan leaves off where `dropWhile` does, and looks at all positions from the first to the last. -/
theorem advance_spec {iter : List ℕ} (beyond val : ℕ) {ptr : ℕ} (hptr : ptr ≤ iter.length) :
    (advance iter beyond val ptr).1 ≤ iter.length ∧ ptr ≤ (advance iter beyond val ptr).1 ∧
    iter.drop (advance iter beyond val ptr).1 = (iter.drop ptr).dropWhile (· < val) ∧
    (advance iter beyond val ptr).2
      = List.range' ptr ((advance iter beyond val ptr).1 + 1 - ptr) := by
  fun_induction advance iter beyond val ptr with
  | case1 ptr hless out looked hout ih =>
      obtain ⟨hval, hlt⟩ := hless
      rw [hout] at ih
      obtain ⟨hle, hmono, hdrop, hlooked⟩ := ih hlt
      refine ⟨hle, by omega, ?_, ?_⟩
      · rw [hdrop, List.drop_eq_getElem_cons hlt]
        rw [List.getD_eq_getElem _ _ hlt] at hval
        rw [List.dropWhile_cons_of_pos (by simpa using hval)]
      · have hcount : out + 1 - ptr = (out + 1 - (ptr + 1)) + 1 := by omega
        rw [hcount, List.range'_succ, ← hlooked]
  | case2 ptr hnot =>
      refine ⟨hptr, le_rfl, ?_, by simp⟩
      rcases hptr.lt_or_eq with hlt | rfl
      · rw [not_and, List.getD_eq_getElem _ _ hlt] at hnot
        rw [List.drop_eq_getElem_cons hlt, List.dropWhile_cons_of_neg]
        simpa using fun hval => hnot hval hlt
      · simp

theorem advance_lt_iff {iter : List ℕ} (beyond val : ℕ) {ptr : ℕ} (hptr : ptr ≤ iter.length) :
    (advance iter beyond val ptr).1 < iter.length ↔ (iter.drop ptr).dropWhile (· < val) ≠ [] := by
  obtain ⟨-, -, hdrop, -⟩ := advance_spec beyond val hptr
  rw [← hdrop, Ne, List.drop_eq_nil_iff, not_le]

theorem dropWhile_lt_ne_nil_iff {iter : List ℕ} {val : ℕ} :
    iter.dropWhile (· < val) ≠ [] ↔ ∃ id ∈ iter, val ≤ id := by
  rw [Ne, List.dropWhile_eq_nil_iff]
  push Not
  simp

theorem mem_looked_le {iter : List ℕ} {beyond val ptr p : ℕ} (hptr : ptr ≤ iter.length)
    (hp : p ∈ (advance iter beyond val ptr).2) : p ≤ (advance iter beyond val ptr).1 := by
  obtain ⟨-, -, -, hlooked⟩ := advance_spec beyond val hptr
  rw [hlooked, List.mem_range'_1] at hp
  omega

/-! ### The rounds are those of the build -/

section

variable {g : Graph} {pool : MiniGraphPool} {req : BuildRequest} {m m' : MiniGraph}
  {objects : List MiniGraph} {i : ℕ}

theorem resize_vertex (m : MiniGraph) (pool : MiniGraphPool) (i n : ℕ) :
    (m.resize pool i n).vertex = m.vertex := by
  rw [MiniGraph.resize]
  split_ifs <;> rfl

theorem start_vertex (h : (MiniGraph.start pool req).setPos 0 0 = some m) :
    m.vertex = req.vertex := by
  simp only [MiniGraph.setPos, Option.bind_eq_bind, Option.bind_eq_some_iff, Option.pure_def,
    Option.some.injEq] at h
  obtain ⟨-, -, rfl⟩ := h
  rfl

theorem link_vertex (h : m.link objects = some m') : m'.vertex = m.vertex := by
  unfold MiniGraph.link at h
  split at h
  · rw [← Option.some.inj h]
  · simp only [Option.bind_eq_bind, Option.bind_eq_some_iff, Option.pure_def,
      Option.some.injEq] at h
    obtain ⟨-, -, -, -, rfl⟩ := h
    rfl

/-- `m_mg_indices` has the size it is given in `Access.InBounds`. -/
theorem link_mgIndices (h : m.link objects = some m') (hparent : m.parent.isSome) :
    m'.mgIndices.length = m.vertex.size := by
  unfold MiniGraph.link at h
  split at h
  · next hnone => simp [hnone] at hparent
  · simp only [Option.bind_eq_bind, Option.bind_eq_some_iff, Option.pure_def,
      Option.some.injEq] at h
    obtain ⟨mg, -, mgIndices, hindices, rfl⟩ := h
    rw [MiniGraph.indices] at hindices
    split_ifs at hindices with hlen
    obtain rfl := Option.some.inj hindices
    exact hlen

theorem pruneLater_vertex (h : m.pruneLater g pool i = some m') : m'.vertex = m.vertex := by
  simp only [MiniGraph.pruneLater, MiniGraph.setPos, MiniGraph.setDegree, Option.bind_eq_bind,
    Option.bind_eq_some_iff, Option.pure_def, Option.some.injEq] at h
  obtain ⟨-, -, -, -, -, ⟨-, -, rfl⟩, -, -, rfl⟩ := h
  exact resize_vertex m pool i _

theorem pruneNever_vertex (h : m.pruneNever i = some m') : m'.vertex = m.vertex := by
  simp only [MiniGraph.pruneNever, MiniGraph.setPos, MiniGraph.setDegree, Option.bind_eq_bind,
    Option.bind_eq_some_iff, Option.pure_def, Option.some.injEq] at h
  obtain ⟨-, ⟨-, -, rfl⟩, -, -, -, -, rfl⟩ := h
  rfl

theorem pruneByModel_eq (m : MiniGraph) (objects : List MiniGraph) (i : ℕ) (looked : List ℕ) :
    (·, objects) <$> m.pruneByModel g pool i req
      = Round.perform g pool (m, objects) { entry := i, looked, decision := byModel req i } := by
  rw [MiniGraph.pruneByModel, byModel]
  split_ifs <;> rfl

theorem perform_vertex {s s' : MiniGraph × List MiniGraph} {r : Round}
    (h : r.perform g pool s = some s') : s'.1.vertex = s.1.vertex := by
  rw [Round.perform] at h
  split at h
  · exact MiniGraph.pruneNow_vertex h
  · obtain ⟨m, hm, rfl⟩ := Option.map_eq_some_iff.mp h
    exact pruneLater_vertex hm
  · obtain ⟨m, hm, rfl⟩ := Option.map_eq_some_iff.mp h
    exact pruneNever_vertex hm

theorem buildMerge_eq (hm : m.vertex = req.vertex) {ptr : ℕ} (hptr : ptr ≤ req.iter.size)
    {is : List ℕ} (his : ∀ i ∈ is, i < req.vertex.size) :
    buildMerge g pool req (req.iter.data.drop ptr) is m objects
      = (mergeRounds req ptr is).foldlM (fun s r => r.perform g pool s) (m, objects) := by
  induction is generalizing m ptr objects with
  | nil => rfl
  | cons i is ih =>
      have hi : i < req.vertex.data.length := his i (by simp)
      have his' : ∀ j ∈ is, j < req.vertex.size := fun j hj => his j (by simp [hj])
      obtain ⟨hout, -, hdrop, -⟩ := advance_spec (req.beyond i) (req.vertex.data.getD i 0) hptr
      rw [buildMerge, mergeRounds, List.foldlM_cons, hm, List.getElem?_eq_getElem hi]
      simp only [Option.bind_eq_bind, Option.bind_some, ← List.getD_eq_getElem _ 0 hi]
      rw [← hdrop, List.head?_drop, ← List.getD_eq_getElem?_getD]
      have hstep : ∀ (r : Round) (s' : MiniGraph × List MiniGraph),
          r.perform g pool (m, objects) = some s' → s'.1.vertex = req.vertex :=
        fun r s' hs' => (perform_vertex hs').trans hm
      split_ifs with hhead
      · refine Option.bind_congr fun s' hs' => ?_
        exact ih (hstep { entry := i, looked := [], decision := .now } s' hs') hout his'
      · rw [← pruneByModel_eq]
        cases hrun : m.pruneByModel g pool i req with
        | none => rfl
        | some m' =>
            refine ih (hstep { entry := i, looked := [], decision := byModel req i } (m', objects) ?_)
              hout his'
            rw [← pruneByModel_eq, hrun]
            rfl

theorem foldlM_pruneByModel_eq (m : MiniGraph) (objects : List MiniGraph) (is : List ℕ) :
    (·, objects) <$> is.foldlM (fun m i => m.pruneByModel g pool i req) m
      = (is.map fun i => { entry := i, looked := [], decision := byModel req i : Round }).foldlM
        (fun s r => r.perform g pool s) (m, objects) := by
  induction is generalizing m with
  | nil => rfl
  | cons i is ih =>
      rw [List.map_cons, List.foldlM_cons, List.foldlM_cons, ← pruneByModel_eq]
      cases hrun : m.pruneByModel g pool i req with
      | none => rfl
      | some m' => exact ih m'

/-- A build that does not leave at once goes through its rounds. -/
theorem build_eq_rounds (hleave : ¬ (req.parent.isNone ∧ req.vertex.size = 0)) :
    build g pool req objects = (do
      let m ← (MiniGraph.start pool req).setPos 0 0
      let m ← m.link objects
      (rounds req).foldlM (fun s r => r.perform g pool s) (m, objects)) := by
  rw [build, if_neg hleave]
  refine Option.bind_congr fun m hset => Option.bind_congr fun m' hlink => ?_
  have hvertex : m'.vertex = req.vertex := (link_vertex hlink).trans (start_vertex hset)
  rw [rounds]
  by_cases hstart : req.iter.start = req.vertex.start
  · simp only [if_pos hstart, List.foldlM_append]
    rw [List.foldlM_map]
    refine Option.bind_congr fun s _ => ?_
    rw [← foldlM_pruneByModel_eq]
    exact (Option.map_eq_bind).symm
  · simp only [if_neg hstart]
    exact buildMerge_eq hvertex (Nat.zero_le _) fun i hi => List.mem_range.mp hi

end

/-! ### The places of a build -/

section

variable {req : BuildRequest}

theorem Round.inBounds_iff (r : Round) :
    (∀ access ∈ r.accesses req, access.InBounds req) ↔
      r.entry < req.vertex.size ∧ ∀ p ∈ r.looked, p < req.iter.size := by
  constructor
  · intro hall
    refine ⟨hall (.vertex r.entry) ?_, fun p hp => hall (.iter p) ?_⟩
    · cases hd : r.decision <;> simp [Round.accesses, hd]
    · exact List.mem_append_left _ (List.mem_map_of_mem hp)
  · rintro ⟨hentry, hlooked⟩ access haccess
    rcases List.mem_append.mp haccess with hiter | harray
    · obtain ⟨p, hp, rfl⟩ := List.mem_map.mp hiter
      exact hlooked p hp
    · have hplace : access = .vertex r.entry ∨ access = .pos r.entry ∨ access = .mgIndices r.entry ∨
          access = .degree r.entry ∨ access = .pos (r.entry + 1) := by
        cases hd : r.decision <;> by_cases hparent : req.parent.isSome <;>
          simp [hd, hparent] at harray <;> tauto
      rcases hplace with rfl | rfl | rfl | rfl | rfl <;>
        simp only [Access.InBounds] <;> omega

theorem inBounds_iff :
    (∀ access ∈ accesses req, access.InBounds req) ↔
      ¬ (req.parent.isNone ∧ req.vertex.size = 0) →
        ∀ r ∈ rounds req, r.entry < req.vertex.size ∧ ∀ p ∈ r.looked, p < req.iter.size := by
  have hfirst : (Access.pos 0).InBounds req := Nat.succ_pos _
  rw [accesses, List.forall_mem_cons, and_iff_right hfirst]
  split_ifs with hempty
  · simp [hempty]
  · simp only [List.mem_flatMap, ← Round.inBounds_iff]
    exact ⟨fun h _ r hr access ha => h access ⟨r, hr, ha⟩,
      fun h access ⟨r, hr, ha⟩ => h hempty r hr access ha⟩

theorem map_entry_mergeRounds (ptr : ℕ) (is : List ℕ) :
    (mergeRounds req ptr is).map Round.entry = is := by
  induction is generalizing ptr with
  | nil => rfl
  | cons i is ih => rw [mergeRounds, List.map_cons, ih]

/-- The scan stays inside as long as no vertex is larger than all ids of `iter`. The ids before `ptr` do
not matter to the vertices to come. -/
theorem mergeRounds_looked_iff (hvertex : req.vertex.data.SortedLT) {count k ptr : ℕ}
    (hcount : k + count = req.vertex.size) (hptr : ptr ≤ req.iter.size)
    (hiter : ∀ (i v : ℕ), k ≤ i → req.vertex.data[i]? = some v →
      (req.iter.data.drop ptr).dropWhile (· < v) = req.iter.data.dropWhile (· < v)) :
    (∀ r ∈ mergeRounds req ptr (List.range' k count), ∀ p ∈ r.looked, p < req.iter.size) ↔
      ∀ (i v : ℕ), k ≤ i → req.vertex.data[i]? = some v → ∃ id ∈ req.iter.data, v ≤ id := by
  induction count generalizing k ptr with
  | zero =>
      obtain rfl : k = req.vertex.size := hcount
      refine iff_of_true (by simp [mergeRounds]) fun i v hi hv => ?_
      exact absurd (List.getElem?_eq_some_iff.mp hv).1 (not_lt.mpr hi)
  | succ count ih =>
      have hk : k < req.vertex.data.length := by
        have hsize : req.vertex.data.length = req.vertex.size := rfl
        omega
      set v := req.vertex.data[k] with hvdef
      have hv : req.vertex.data[k]? = some v := List.getElem?_eq_getElem hk
      have hget : req.vertex.data.getD k 0 = v := List.getD_eq_getElem _ _ hk
      obtain ⟨hout, -, hdrop, -⟩ := advance_spec (req.beyond k) v hptr
      have hinside := advance_lt_iff (req.beyond k) v hptr
      rw [hiter k v le_rfl hv, dropWhile_lt_ne_nil_iff] at hinside
      have hiter' : ∀ (i w : ℕ), k + 1 ≤ i → req.vertex.data[i]? = some w →
          (req.iter.data.drop (advance req.iter.data (req.beyond k) v ptr).1).dropWhile (· < w)
            = req.iter.data.dropWhile (· < w) := by
        intro i w hi hw
        obtain ⟨hilt, hat⟩ := List.getElem?_eq_some_iff.mp hw
        have hvw : v ≤ w := by
          rw [← hat, hvdef]
          exact (hvertex.getElem_lt_getElem_iff.mpr hi).le
        rw [hdrop, dropWhile_dropWhile_lt hvw]
        exact hiter i w (by omega) hw
      rw [List.range'_succ, mergeRounds, List.forall_mem_cons, hget, ih (by omega) hout hiter']
      constructor
      · rintro ⟨hhere, hrest⟩ i w hi hw
        rcases hi.eq_or_lt with rfl | hlt
        · obtain rfl : v = w := Option.some.inj (hv.symm.trans hw)
          exact hinside.mp (hhere _ (by simp))
        · exact hrest i w hlt hw
      · intro hall
        have hlt := hinside.mpr (hall k v le_rfl hv)
        refine ⟨fun p hp => ?_, fun i w hi hw => hall i w (by omega) hw⟩
        rcases List.mem_append.mp hp with hp | hp
        · exact (mem_looked_le hptr hp).trans_lt hlt
        · rw [List.mem_singleton.mp hp]
          exact hlt

/-- On one array with `iter` a build with a parent takes the vertex set to be the longer one. Elsewhere
no vertex may be larger than all ids of `iter`. -/
def StaysInside (req : BuildRequest) : Prop :=
  if req.iter.start = req.vertex.start then req.parent.isSome → req.iter.size ≤ req.vertex.size
  else ∀ v ∈ req.vertex.data, ∃ id ∈ req.iter.data, v ≤ id

instance : Decidable (StaysInside req) := by
  unfold StaysInside
  infer_instance

theorem rounds_shared_iff (hstart : req.iter.start = req.vertex.start)
    (hleave : ¬ (req.parent.isNone ∧ req.vertex.size = 0)) :
    (∀ r ∈ rounds req, r.entry < req.vertex.size ∧ ∀ p ∈ r.looked, p < req.iter.size) ↔
      (req.parent.isSome → req.iter.size ≤ req.vertex.size) := by
  rw [rounds, if_pos hstart]
  simp only [List.forall_mem_append, List.forall_mem_map, List.not_mem_nil, false_imp_iff,
    implies_true, and_true, List.mem_range, List.mem_range'_1]
  have hsecond : ∀ i, req.iter.size ≤ i ∧ i < req.iter.size + (req.vertex.size - req.iter.size) →
      i < req.vertex.size := fun i hi => by omega
  rw [and_iff_left hsecond]
  cases hparent : req.parent with
  | none =>
      have hsize : req.vertex.size ≠ 0 := fun h => hleave ⟨by simp [hparent], h⟩
      simp [hsize]
  | some parent =>
      simp only [Option.isNone_some, Bool.false_eq_true, false_and, if_false, Option.isSome_some,
        true_imp_iff]
      refine ⟨fun h => ?_, fun h i hi => hi.trans_le h⟩
      by_contra hlt
      exact absurd (h _ (not_le.mp hlt)) (lt_irrefl _)

theorem rounds_merge_iff (hvertex : req.vertex.data.SortedLT)
    (happart : req.iter.start ≠ req.vertex.start) :
    (∀ r ∈ rounds req, r.entry < req.vertex.size ∧ ∀ p ∈ r.looked, p < req.iter.size) ↔
      ∀ v ∈ req.vertex.data, ∃ id ∈ req.iter.data, v ≤ id := by
  have hentry : ∀ r ∈ rounds req, r.entry < req.vertex.size := by
    intro r hr
    rw [rounds, if_neg happart] at hr
    have hmem : r.entry ∈ (mergeRounds req 0 (List.range req.vertex.size)).map Round.entry :=
      List.mem_map_of_mem hr
    rw [map_entry_mergeRounds] at hmem
    exact List.mem_range.mp hmem
  have hlooked := mergeRounds_looked_iff hvertex (Nat.zero_add req.vertex.size)
    (Nat.zero_le req.iter.size) fun _ _ _ _ => rfl
  rw [← List.range_eq_range'] at hlooked
  calc (∀ r ∈ rounds req, r.entry < req.vertex.size ∧ ∀ p ∈ r.looked, p < req.iter.size)
      ↔ ∀ r ∈ rounds req, ∀ p ∈ r.looked, p < req.iter.size :=
        forall₂_congr fun r hr => and_iff_right (hentry r hr)
    _ ↔ ∀ (i v : ℕ), 0 ≤ i → req.vertex.data[i]? = some v → ∃ id ∈ req.iter.data, v ≤ id := by
        rw [rounds, if_neg happart]
        exact hlooked
    _ ↔ ∀ v ∈ req.vertex.data, ∃ id ∈ req.iter.data, v ≤ id := by
        simp only [List.mem_iff_getElem?, zero_le, true_imp_iff, forall_exists_index]
        exact forall_comm

/-- A build touches only what is inside of its arrays exactly if it stays inside in this sense. -/
theorem accesses_inBounds_iff (hvertex : req.vertex.data.SortedLT) :
    (∀ access ∈ accesses req, access.InBounds req) ↔ StaysInside req := by
  rw [inBounds_iff, StaysInside]
  by_cases hleave : req.parent.isNone ∧ req.vertex.size = 0
  · have hnil : req.vertex.data = [] := List.length_eq_zero_iff.mp hleave.2
    have hparent : req.parent = none := Option.isNone_iff_eq_none.mp hleave.1
    simp [hleave, hnil, hparent]
  · rw [imp_iff_right hleave]
    split_ifs with hstart
    · exact rounds_shared_iff hstart hleave
    · exact rounds_merge_iff hvertex hstart

end

/-! ### A scan that leaves `iter` -/

/-- The vertices 1 and 2, of which the second is larger than all ids of `iter`. -/
def shortIter : BuildRequest where
  type := .costModel
  bounded := false
  parent := none
  vertex := { data := [1, 2], start := 0 }
  intersect := { data := [1, 2] }
  iter := { data := [1], start := 2 }

/-- The same with an `iter` that ends where the vertices do. -/
def coveringIter : BuildRequest :=
  { shortIter with iter := { data := [2], start := 2 } }

theorem accesses_inBounds_covering :
    StaysInside coveringIter ∧ ∀ access ∈ accesses coveringIter, access.InBounds coveringIter := by
  have hstays : StaysInside coveringIter := by decide
  exact ⟨hstays, (accesses_inBounds_iff (List.sortedLT_range' 1 2 one_ne_zero)).mpr hstays⟩

theorem accesses_leave_iter : ¬ ∀ req : BuildRequest,
    req.vertex.data.SortedLT → req.intersect.data.SortedLT → req.iter.data.SortedLT →
    ∀ access ∈ accesses req, access.InBounds req := by
  intro hall
  have hvertex : [1, 2].SortedLT := List.sortedLT_range' 1 2 one_ne_zero
  have hread : Access.iter 1 ∈ accesses shortIter := by decide +kernel
  exact absurd (hall shortIter hvertex hvertex (by decide) _ hread) (by decide)

end MiniGraphCostModel

end GraphMini
