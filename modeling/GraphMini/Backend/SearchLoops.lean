import GraphMini.Backend.VertexSetSpec

/-!
# The search of `bounded` and `remove`, and the shift copy

`bounded`, `bounded_cnt`, `remove` and `remove_cnt` statement by statement. Each looks for the place of
its argument, by bisection above 64 elements and by a scan up to 64, and `remove` copies what is around
that place. A read outside of the receiver and a write outside of the copy have no result.
-/

namespace GraphMini

namespace SearchLoops

/-- The bisection: `count` elements from `idxL` on are left. -/
def bisect (data : List ℕ) (upper idxL count : ℕ) : Option ℕ :=
  if 0 < count then do
    let step := count / 2
    let x ← data[idxL + step]?
    if x < upper then bisect data upper (idxL + step + 1) (count - (step + 1))
    else bisect data upper idxL step
  else some idxL
termination_by count

/-- `while (idx_l < size() && m_data[idx_l] < upper) idx_l++;` -/
def scan (data : List ℕ) (upper idxL : ℕ) : Option ℕ :=
  if idxL < data.length then do
    let x ← data[idxL]?
    if x < upper then scan data upper (idxL + 1) else some idxL
  else some idxL
termination_by data.length - idxL

def position (data : List ℕ) (upper : ℕ) : Option ℕ :=
  if 64 < data.length then bisect data upper 0 data.length else scan data upper 0

/-- `idx_l < m_size && m_data[idx_l] == upper` -/
def found (data : List ℕ) (idxL upper : ℕ) : Option Bool :=
  if idxL < data.length then do
    let x ← data[idxL]?
    return decide (x = upper)
  else some false

/-- `for (size_t i = lower; i < last; i++) out[i] = m_data[i + shift];` into a set of `size` elements. -/
def copy (data : List ℕ) (shift size last lower : ℕ) (out : ℕ → ℕ) : Option (ℕ → ℕ) :=
  if lower < last then do
    let x ← data[lower + shift]?
    if lower < size then copy data shift size last (lower + 1) (Function.update out lower x) else none
  else some out
termination_by last - lower

section

variable (s : VertexSet) (upper : ℕ) (memory : ℕ → ℕ)

def bounded : Option VertexSet := do
  let idxL ← position s.data upper
  return { data := s.data.take idxL, vid := s.vid }

def boundedCnt : Option ℕ := position s.data upper

/-- `memory` is the workspace of the pooled copy. -/
def remove : Option VertexSet := do
  let idxL ← position s.data upper
  if ← found s.data idxL upper then
    let size := s.data.length - 1
    let out ← copy s.data 0 size idxL 0 memory
    let out ← copy s.data 1 size size idxL out
    return { data := (List.range size).map out }
  else return { data := s.data }

def removeCnt : Option ℕ := do
  let idxL ← position s.data upper
  if ← found s.data idxL upper then return s.data.length - 1 else return s.data.length

end

variable {data : List ℕ} {s : VertexSet} {upper idxL count : ℕ}

/-- The bisection probes only what is left. -/
theorem bisect_eq (data : List ℕ) (upper idxL count : ℕ) (hlen : idxL + count ≤ data.length) :
    bisect data upper idxL count = some (binarySearch data upper idxL count) := by
  rw [bisect, binarySearch]
  by_cases hpos : 0 < count
  · have hi : idxL + count / 2 < data.length := by omega
    rw [if_pos hpos, if_pos hpos]
    simp only [List.getElem?_eq_getElem hi, List.getD_eq_getElem _ _ hi, Option.bind_eq_bind,
      Option.bind_some]
    by_cases hlt : data[idxL + count / 2] < upper
    · rw [if_pos hlt, if_pos hlt]
      apply bisect_eq
      omega
    · rw [if_neg hlt, if_neg hlt]
      apply bisect_eq
      omega
  · rw [if_neg hpos, if_neg hpos]
termination_by count

theorem scan_eq (data : List ℕ) (upper idxL : ℕ) :
    scan data upper idxL = some (linearSearch upper (data.drop idxL) idxL) := by
  rw [scan]
  by_cases h : idxL < data.length
  · rw [if_pos h, List.drop_eq_getElem_cons h, linearSearch]
    simp only [List.getElem?_eq_getElem h, Option.bind_eq_bind, Option.bind_some]
    by_cases hlt : data[idxL] < upper
    · rw [if_pos hlt, if_pos hlt, scan_eq]
    · rw [if_neg hlt, if_neg hlt]
  · rw [if_neg h, List.drop_eq_nil_of_le (not_lt.mp h), linearSearch]
termination_by data.length - idxL

/-- Both searches stop after the elements below their argument. -/
theorem searches_agree (hd : data.SortedLT) (upper : ℕ) :
    bisect data upper 0 data.length = some (data.countP fun x => decide (x < upper)) ∧
      scan data upper 0 = some (data.countP fun x => decide (x < upper)) := by
  constructor
  · rw [bisect_eq data upper 0 data.length (Nat.zero_add _).le]
    congr 1
    apply binarySearch_eq hd upper (Nat.zero_le _)
    · rw [Nat.zero_add]
      exact List.countP_le_length
    · exact (Nat.zero_add _).le
  · rw [scan_eq, List.drop_zero, linearSearch_eq hd, Nat.zero_add]

theorem position_eq (data : List ℕ) (upper : ℕ) : position data upper = some (searchUpper data upper) := by
  rw [position, searchUpper]
  split_ifs
  · exact bisect_eq data upper 0 data.length (Nat.zero_add _).le
  · rw [scan_eq, List.drop_zero]

theorem found_eq (s : VertexSet) (upper : ℕ) :
    found s.data (searchUpper s.data upper) upper = some (s.removeFinds upper) := by
  rw [found, VertexSet.removeFinds]
  by_cases h : searchUpper s.data upper < s.data.length
  · rw [if_pos h, List.getElem?_eq_getElem h]
    rfl
  · rw [if_neg h, List.getElem?_eq_none (not_lt.mp h)]
    rfl

/-- The copy loop writes the places from `lower` to `last`. -/
theorem copy_eq (data : List ℕ) (shift size last lower : ℕ) (out : ℕ → ℕ) (hsize : last ≤ size)
    (hread : last + shift ≤ data.length) :
    copy data shift size last lower out
      = some fun i => if lower ≤ i ∧ i < last then data.getD (i + shift) 0 else out i := by
  rw [copy]
  by_cases h : lower < last
  · have hi : lower + shift < data.length := by omega
    rw [if_pos h]
    simp only [List.getElem?_eq_getElem hi, Option.bind_eq_bind, Option.bind_some]
    rw [if_pos (h.trans_le hsize), copy_eq data shift size last (lower + 1) _ hsize hread]
    congr 1
    funext i
    by_cases heq : i = lower
    · subst heq
      rw [if_neg (by omega), if_pos ⟨le_rfl, h⟩, Function.update_self, List.getD_eq_getElem _ _ hi]
    · rw [Function.update_of_ne heq]
      exact if_congr (by omega) rfl rfl
  · rw [if_neg h]
    congr 1
    funext i
    rw [if_neg (by omega)]
termination_by last - lower

/-- The two copies together leave one element out. -/
theorem map_range_eq_eraseIdx (hidx : idxL < data.length) (memory : ℕ → ℕ) :
    (List.range (data.length - 1)).map (fun i =>
        if idxL ≤ i ∧ i < data.length - 1 then data.getD (i + 1) 0
        else if 0 ≤ i ∧ i < idxL then data.getD (i + 0) 0 else memory i)
      = data.take idxL ++ data.drop (idxL + 1) := by
  rw [← List.eraseIdx_eq_take_drop_succ]
  apply List.ext_getElem
  · rw [List.length_map, List.length_range, List.length_eraseIdx_of_lt hidx]
  · intro i hi hi'
    rw [List.length_map, List.length_range] at hi
    rw [List.getElem_map, List.getElem_range, List.getElem_eraseIdx]
    by_cases hlt : i < idxL
    · rw [if_neg (by omega), if_pos ⟨Nat.zero_le _, hlt⟩, dif_pos hlt, Nat.add_zero,
        List.getD_eq_getElem _ _ (by omega)]
    · rw [if_pos ⟨by omega, hi⟩, dif_neg hlt, List.getD_eq_getElem _ _ (by omega)]

theorem remove_eq (s : VertexSet) (upper : ℕ) (memory : ℕ → ℕ) :
    remove s upper memory = some (s.remove upper) := by
  rw [remove, VertexSet.remove, position_eq]
  simp only [Option.bind_eq_bind, Option.bind_some, found_eq]
  by_cases hfinds : s.removeFinds upper = true
  · have hidx : searchUpper s.data upper < s.data.length := by
      rw [VertexSet.removeFinds, beq_iff_eq] at hfinds
      exact (List.getElem?_eq_some_iff.mp hfinds).1
    rw [if_pos hfinds, if_pos hfinds, copy_eq _ _ _ _ _ _ (by omega) (by omega), Option.bind_some,
      copy_eq _ _ _ _ _ _ le_rfl (by omega), Option.bind_some, map_range_eq_eraseIdx hidx]
    rfl
  · rw [if_neg hfinds, if_neg hfinds]
    rfl

theorem removeCnt_eq (s : VertexSet) (upper : ℕ) : removeCnt s upper = some (s.removeCnt upper) := by
  rw [removeCnt, VertexSet.removeCnt, position_eq]
  simp only [Option.bind_eq_bind, Option.bind_some, found_eq]
  by_cases hfinds : s.removeFinds upper = true
  · rw [if_pos hfinds, if_pos hfinds]
    rfl
  · rw [if_neg hfinds, if_neg hfinds]
    rfl

theorem bounded_eq (s : VertexSet) (upper : ℕ) : bounded s upper = some (s.bounded upper) := by
  rw [bounded, position_eq]
  rfl

/-- The four functions do what their names say on an increasing array of any length, and every read of
theirs lies in it; the two searches stop at one place. -/
theorem search_loops (s : VertexSet) (upper : ℕ) (memory : ℕ → ℕ) (hs : s.data.SortedLT) :
    let below := s.data.filter fun x => decide (x < upper)
    let without := s.data.filter fun x => decide (x ≠ upper)
    (bounded s upper = some { data := below, vid := s.vid } ∧ below <+: s.data) ∧
      boundedCnt s upper = some below.length ∧
      remove s upper memory = some { data := without } ∧
      removeCnt s upper = some without.length ∧
      bisect s.data upper 0 s.data.length = some below.length ∧ scan s.data upper 0 = some below.length := by
  intro below without
  have hbelow : (s.bounded upper).data = below := VertexSet.bounded_data hs upper
  have hwithout : (s.remove upper).data = without := VertexSet.remove_data hs upper
  obtain ⟨hbisect, hscan⟩ := searches_agree hs upper
  rw [List.countP_eq_length_filter] at hbisect hscan
  refine ⟨⟨?_, ?_⟩, ?_, ?_, ?_, hbisect, hscan⟩
  · rw [bounded_eq, ← hbelow]
    rfl
  · rw [← hbelow]
    exact List.take_prefix _ _
  · calc boundedCnt s upper = some (s.boundedCnt upper) := position_eq s.data upper
      _ = some below.length := by rw [VertexSet.boundedCnt_eq hs, VertexSet.size, hbelow]
  · rw [remove_eq, ← hwithout, VertexSet.remove]
    split_ifs <;> rfl
  · rw [removeCnt_eq, VertexSet.removeCnt_eq hs, VertexSet.size, hwithout]

/-- The vertex 4 and the list `{1, 4, 6}`. -/
theorem search_loops_run :
    bounded { data := [1, 4, 6], vid := 2 } 4 = some { data := [1], vid := 2 } ∧
      remove { data := [1, 4, 6], vid := 2 } 4 (fun _ => 7) = some { data := [1, 6] } := by
  obtain ⟨⟨hbounded, -⟩, -, hremove, -⟩ :=
    search_loops { data := [1, 4, 6], vid := 2 } 4 (fun _ => 7) (by decide)
  exact ⟨hbounded, hremove⟩

end SearchLoops

end GraphMini
