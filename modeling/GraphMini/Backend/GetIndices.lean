import GraphMini.Backend.Indices

/-!
# The reads of `get_indices`

The three ways of `get_indices` and its binary search, statement by statement: a read outside of the two
sets has no result, and the numbers that are kept in an `IdType` are taken modulo `2 ^ 32`. The binary
search returns its last probe, not its lower bound; at the end of the search they are the same place.
-/

namespace GraphMini

namespace GetIndices

/-- `binary_search`: `count` ids from `start` on are left, and `itr` is the last probe. -/
def binarySearchRead (data : List ℕ) (val start count itr : ℕ) : Option ℕ :=
  if 0 < count then do
    let step := count / 2
    let x ← data[start + step]?
    if x < val then
      binarySearchRead data val (start + step + 1) (count - (step + 1)) (start + step + 1)
    else binarySearchRead data val start step (start + step)
  else some itr
termination_by count

/-- The vertex set is much larger: each id is searched for behind the ids that have been found. -/
def search (vertices : List ℕ) : ℕ → List ℕ → Option (List ℕ)
  | _, [] => some []
  | itr, id :: ids =>
      if itr < vertices.length then do
        let itr ← binarySearchRead vertices id itr ((vertices.length - itr) % 2 ^ 32) itr
        if itr = vertices.length then search vertices itr ids
        else do
          let x ← vertices[itr]?
          if id = x then return itr :: (← search vertices (itr + 1) ids)
          else search vertices itr ids
      else some []

/-- The two-pointer scan. -/
def scan (vertices toIter : List ℕ) (idxL idxR : ℕ) : Option (List ℕ) :=
  if idxL < vertices.length ∧ idxR < toIter.length then do
    let left ← vertices[idxL]?
    let right ← toIter[idxR]?
    if left < right then scan vertices toIter (idxL + 1) idxR
    else if right < left then scan vertices toIter idxL (idxR + 1)
    else return idxL :: (← scan vertices toIter (idxL + 1) (idxR + 1))
  else some []
termination_by (vertices.length - idxL) + (toIter.length - idxR)

/-- The sets begin at one place. -/
def shared (vertices toIter : VertexSet) : List ℕ :=
  List.range (min vertices.size toIter.size % 2 ^ 32)

/-- `get_indices`. -/
def read (vertices toIter : VertexArray) : Option (List ℕ) :=
  if vertices.start = toIter.start then some (shared vertices.toVertexSet toIter.toVertexSet)
  else if toIter.size * 50 < vertices.size then search vertices.data 0 toIter.data
  else scan vertices.data toIter.data 0 0

/-! ### Nothing else is read -/

section

variable {data vertices toIter ids : List ℕ} {val start count itr idxL idxR : ℕ}

/-- A search that is over has its probe at its lower bound. -/
theorem binarySearchRead_eq (data : List ℕ) (val start count itr : ℕ)
    (hlen : start + count ≤ data.length) (hitr : count = 0 → itr = start) :
    binarySearchRead data val start count itr = some (binarySearch data val start count) := by
  rw [binarySearchRead, binarySearch]
  by_cases hpos : 0 < count
  · have hi : start + count / 2 < data.length := by omega
    rw [if_pos hpos, if_pos hpos]
    simp only [List.getElem?_eq_getElem hi, List.getD_eq_getElem _ _ hi, Option.bind_eq_bind,
      Option.bind_some]
    by_cases hlt : data[start + count / 2] < val
    · rw [if_pos hlt, if_pos hlt]
      apply binarySearchRead_eq
      · omega
      · exact fun _ => rfl
    · rw [if_neg hlt, if_neg hlt]
      apply binarySearchRead_eq
      · omega
      · intro hstep
        rw [hstep, Nat.add_zero]
  · rw [if_neg hpos, if_neg hpos, hitr (by omega)]
termination_by count

theorem search_eq (hlen : vertices.length < 2 ^ 32) :
    search vertices itr ids = some (indicesSearch vertices itr ids) := by
  induction ids generalizing itr with
  | nil => rfl
  | cons id ids ih =>
      rw [search, indicesSearch]
      by_cases hitr : itr < vertices.length
      · have hcount : (vertices.length - itr) % 2 ^ 32 = vertices.length - itr :=
          Nat.mod_eq_of_lt (by omega)
        rw [if_pos hitr, if_pos hitr, hcount, binarySearchRead_eq _ _ _ _ _ (by omega) (by omega)]
        simp only [Option.bind_eq_bind, Option.bind_some]
        have hle := binarySearch_le vertices id itr (vertices.length - itr)
        generalize binarySearch vertices id itr (vertices.length - itr) = pos at hle ⊢
        by_cases hend : pos = vertices.length
        · rw [if_pos hend, if_neg (by simp [hend]), ih]
        · have hpos : pos < vertices.length := by omega
          rw [if_neg hend, List.getElem?_eq_getElem hpos, Option.bind_some]
          by_cases hfound : id = vertices[pos]
          · rw [if_pos hfound, if_pos (by rw [← hfound]), ih]
            rfl
          · rw [if_neg hfound, if_neg fun heq => hfound (Option.some.inj heq).symm, ih]
      · rw [if_neg hitr, if_neg hitr]

theorem scan_eq (vertices toIter : List ℕ) (idxL idxR : ℕ) :
    scan vertices toIter idxL idxR
      = some (indicesScan idxL (vertices.drop idxL) (toIter.drop idxR)) := by
  by_cases hin : idxL < vertices.length ∧ idxR < toIter.length
  · obtain ⟨hl, hr⟩ := hin
    rw [scan, if_pos ⟨hl, hr⟩, List.getElem?_eq_getElem hl, List.getElem?_eq_getElem hr,
      List.drop_eq_getElem_cons hl, List.drop_eq_getElem_cons hr, indicesScan]
    simp only [Option.bind_eq_bind, Option.bind_some]
    split_ifs with hlt hgt
    · rw [scan_eq vertices toIter (idxL + 1) idxR, List.drop_eq_getElem_cons hr]
    · rw [scan_eq vertices toIter idxL (idxR + 1), List.drop_eq_getElem_cons hl]
    · rw [scan_eq vertices toIter (idxL + 1) (idxR + 1)]
      rfl
  · rw [scan, if_neg hin]
    rcases Nat.lt_or_ge idxL vertices.length with hl | hl
    · rw [List.drop_eq_nil_of_le (not_lt.mp fun hr => hin ⟨hl, hr⟩)]
      simp [indicesScan]
    · rw [List.drop_eq_nil_of_le hl]
      simp [indicesScan]
termination_by (vertices.length - idxL) + (toIter.length - idxR)

end

/-- The places of `vertices` at which an id of `toIter` stands. -/
def common (vertices toIter : List ℕ) : List ℕ :=
  (List.range vertices.length).filter fun i => decide (vertices.getD i 0 ∈ toIter)

section

variable {vertices toIter : List ℕ}

theorem common_eq_map (vertices toIter : List ℕ) :
    (common vertices toIter).map (fun i => vertices.getD i 0)
      = vertices.filter fun x => decide (x ∈ toIter) := by
  calc (common vertices toIter).map (fun i => vertices.getD i 0)
      = ((List.range vertices.length).map fun i => vertices.getD i 0).filter
          fun x => decide (x ∈ toIter) := by rw [common, List.filter_map]; rfl
    _ = vertices.filter fun x => decide (x ∈ toIter) := by rw [map_getD_range]

/-- Each id of `toIter` stands at one place at most. -/
theorem length_common_le (hv : vertices.SortedLT) : (common vertices toIter).length ≤ toIter.length := by
  have hsub : vertices.filter (fun x => decide (x ∈ toIter)) ⊆ toIter :=
    fun x hx => of_decide_eq_true (List.mem_filter.mp hx).2
  calc (common vertices toIter).length
      = (vertices.filter fun x => decide (x ∈ toIter)).length := by
        rw [← common_eq_map, List.length_map]
    _ ≤ toIter.length :=
        ((SortedList.filter hv _).nodup.subperm hsub).length_le

theorem length_lt_of_ids (hv : vertices.SortedLT) (hid : ∀ x ∈ vertices, x < invalidId) :
    vertices.length < 2 ^ 32 := by
  have hsub : vertices ⊆ List.range invalidId := fun x hx => List.mem_range.mpr (hid x hx)
  have hle : vertices.length ≤ invalidId := by
    simpa using (hv.nodup.subperm hsub).length_le
  exact hle.trans_lt (by decide)

theorem search_eq_common (hv : vertices.SortedLT) (hi : toIter.SortedLT)
    (hlen : vertices.length < 2 ^ 32) : search vertices 0 toIter = some (common vertices toIter) := by
  rw [search_eq hlen, indicesSearch_eq hv hi fun _ _ => Nat.zero_le _, List.drop_zero,
    positions_eq_filter]
  rfl

theorem scan_eq_common (hv : vertices.SortedLT) (hi : toIter.SortedLT) :
    scan vertices toIter 0 0 = some (common vertices toIter) := by
  rw [scan_eq, List.drop_zero, List.drop_zero, indicesScan_eq hv hi, positions_eq_filter]
  rfl

end

theorem shared_eq_common {vertices toIter : VertexSet} (hv : vertices.data.SortedLT)
    (hlen : vertices.size < 2 ^ 32)
    (hpre : vertices.data <+: toIter.data ∨ toIter.data <+: vertices.data) :
    shared vertices toIter = common vertices.data toIter.data := by
  rw [shared, Nat.mod_eq_of_lt ((min_le_left _ _).trans_lt hlen)]
  exact range_min_eq_filter hv hpre

/-- The three ways agree, wherever they are taken; no read leaves the two sets, and `out` has room. -/
theorem read_eq_common (vertices toIter : VertexArray) (hv : vertices.data.SortedLT)
    (hi : toIter.data.SortedLT) (hid : ∀ x ∈ vertices.data, x < invalidId) :
    (vertices.Consistent toIter → read vertices toIter = some (common vertices.data toIter.data)) ∧
      (vertices.data <+: toIter.data ∨ toIter.data <+: vertices.data →
        shared vertices.toVertexSet toIter.toVertexSet = common vertices.data toIter.data) ∧
      search vertices.data 0 toIter.data = some (common vertices.data toIter.data) ∧
      scan vertices.data toIter.data 0 0 = some (common vertices.data toIter.data) ∧
      (common vertices.data toIter.data).length ≤ toIter.size := by
  have hlen := length_lt_of_ids hv hid
  refine ⟨fun hsame => ?_, shared_eq_common hv hlen, search_eq_common hv hi hlen,
    scan_eq_common hv hi, length_common_le hv⟩
  rw [read]
  by_cases hstart : vertices.start = toIter.start
  · rw [if_pos hstart, shared_eq_common hv hlen (hsame hstart)]
  · rw [if_neg hstart]
    by_cases hsmall : toIter.size * 50 < vertices.size
    · rw [if_pos hsmall, search_eq_common hv hi hlen]
    · rw [if_neg hsmall, scan_eq_common hv hi]

/-- The set `{1, 4, 6, 9}` against `{0, 4, 9}`, which stands elsewhere. -/
theorem read_eq_common_scan :
    read ⟨{ data := [1, 4, 6, 9] }, 0⟩ ⟨{ data := [0, 4, 9] }, 100⟩ = some [1, 3] ∧
      search [1, 4, 6, 9] 0 [0, 4, 9] = some [1, 3] := by
  obtain ⟨hread, -, hsearch, -⟩ := read_eq_common ⟨{ data := [1, 4, 6, 9] }, 0⟩
    ⟨{ data := [0, 4, 9] }, 100⟩ (by decide) (by decide) (by decide)
  exact ⟨hread (by decide), hsearch⟩

/-- `get_indices` of the mini-graph classes is this function. -/
theorem read_eq_getIndices {vertices toIter : VertexArray} (hlen : vertices.size < 2 ^ 32) :
    read vertices toIter = some (getIndices vertices toIter) := by
  have hmin : min vertices.size toIter.size % 2 ^ 32 = min vertices.size toIter.size :=
    Nat.mod_eq_of_lt ((min_le_left _ _).trans_lt hlen)
  rw [read, getIndices]
  split_ifs
  · rw [shared, hmin]
  · exact search_eq hlen
  · exact scan_eq _ _ 0 0

end GetIndices

end GraphMini
