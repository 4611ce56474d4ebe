import GraphMini.Backend.VertexSetSpec

/-!
# The six intersection loops

`intersect` with and without a bound, to a pooled set or to the buffer of the caller, and the two
`intersect_cnt`, over the indices of the header: the two inputs are read below their sizes, and an
output buffer is a memory, of which the loop writes the first `out_size` places.
-/

namespace GraphMini

namespace IntersectLoops

variable {σ : Type*}

/-- The loop; `emit` is what is done with a common element. -/
def scan (upper : Option ℕ) (emit : σ → ℕ → σ) (data other : List ℕ) (idxL idxR : ℕ) (out : σ) : σ :=
  if h : idxL < data.length ∧ idxR < other.length then
    let left := data[idxL]
    let right := other[idxR]
    if reaches upper left || reaches upper right then out
    else
      scan upper emit data other (if left ≤ right then idxL + 1 else idxL)
        (if right ≤ left then idxR + 1 else idxR) (if left = right then emit out left else out)
  else out
termination_by (data.length - idxL) + (other.length - idxR)
decreasing_by split_ifs <;> omega

/-- A memory from the output pointer on, and `out_size` (`m_size` of a pooled set). -/
structure Out where
  word : ℕ → ℕ
  size : ℕ

namespace Out

def push (out : Out) (x : ℕ) : Out :=
  { word := Function.update out.word out.size x, size := out.size + 1 }

/-- What a reader of the first `size` places gets. -/
def list (out : Out) : List ℕ := (List.range out.size).map out.word

end Out

section

variable (data other : List ℕ) (upper : ℕ) (memory : ℕ → ℕ)

/-- `intersect(other)`; `memory` is the workspace of the pooled set. -/
def intersect : List ℕ := (scan none Out.push data other 0 0 { word := memory, size := 0 }).list

/-- `intersect(other, buffer)`: the buffer and the returned `out_size`. -/
def intersectBuffer : Out := scan none Out.push data other 0 0 { word := memory, size := 0 }

/-- `intersect(other, upper)`. -/
def intersectUpper : List ℕ :=
  (scan (some upper) Out.push data other 0 0 { word := memory, size := 0 }).list

/-- `intersect(other, upper, buffer)`. -/
def intersectUpperBuffer : Out :=
  scan (some upper) Out.push data other 0 0 { word := memory, size := 0 }

/-- `intersect_cnt(other)`. -/
def intersectCnt : ℕ := scan none (fun outSize _ => outSize + 1) data other 0 0 0

/-- `intersect_cnt(other, upper)`. -/
def intersectUpperCnt : ℕ := scan (some upper) (fun outSize _ => outSize + 1) data other 0 0 0

end

variable {data other : List ℕ} {upper : ℕ} {memory : ℕ → ℕ}

/-- From any two indices on the loop emits what the two remaining suffixes have in common. -/
theorem scan_eq_foldl (upper : Option ℕ) (emit : σ → ℕ → σ) (data other : List ℕ) (idxL idxR : ℕ)
    (out : σ) : scan upper emit data other idxL idxR out
      = (intersectLoop upper (data.drop idxL) (other.drop idxR)).foldl emit out := by
  rw [scan]
  by_cases h : idxL < data.length ∧ idxR < other.length
  · rw [dif_pos h, List.drop_eq_getElem_cons h.1, List.drop_eq_getElem_cons h.2, intersectLoop]
    by_cases hreach : (reaches upper data[idxL] || reaches upper other[idxR]) = true
    · rw [if_pos hreach, if_pos hreach]
      rfl
    · rw [if_neg hreach, if_neg hreach]
      rcases lt_trichotomy data[idxL] other[idxR] with hlt | heq | hgt
      · rw [if_pos hlt, if_pos hlt.le, if_neg hlt.not_ge, if_neg hlt.ne, scan_eq_foldl,
          ← List.drop_eq_getElem_cons h.2]
      · rw [if_neg heq.not_lt, if_neg heq.not_gt, if_pos heq.le, if_pos heq.ge, if_pos heq,
          scan_eq_foldl, List.foldl_cons]
      · rw [if_neg hgt.not_gt, if_pos hgt, if_neg hgt.not_ge, if_pos hgt.le, if_neg hgt.ne',
          scan_eq_foldl, ← List.drop_eq_getElem_cons h.1]
  · rw [dif_neg h]
    rcases not_and_or.mp h with hl | hr
    · rw [List.drop_eq_nil_of_le (not_lt.mp hl), intersectLoop]
      · rfl
      · simp
    · rw [List.drop_eq_nil_of_le (not_lt.mp hr), intersectLoop]
      · rfl
      · simp
termination_by (data.length - idxL) + (other.length - idxR)

theorem Out.foldl_push (xs : List ℕ) (out : Out) :
    (xs.foldl Out.push out).size = out.size + xs.length ∧
      (xs.foldl Out.push out).list = out.list ++ xs ∧
      ∀ i, i < out.size ∨ out.size + xs.length ≤ i → (xs.foldl Out.push out).word i = out.word i := by
  induction xs generalizing out with
  | nil => exact ⟨rfl, (List.append_nil _).symm, fun _ _ => rfl⟩
  | cons x xs ih =>
      obtain ⟨hsize, hlist, hword⟩ := ih (out.push x)
      have hpush : (out.push x).list = out.list ++ [x] := by
        rw [Out.list, Out.list, Out.push, List.range_succ, List.map_append]
        congr 1
        · apply List.map_congr_left
          intro i hi
          exact Function.update_of_ne (List.mem_range.mp hi).ne _ _
        · simp
      rw [List.foldl_cons, List.length_cons]
      refine ⟨?_, ?_, ?_⟩
      · rw [hsize]
        simp only [Out.push]
        omega
      · rw [hlist, hpush, List.append_assoc]
        rfl
      · intro i hi
        calc (xs.foldl Out.push (out.push x)).word i
            = (out.push x).word i := by
              apply hword
              simp only [Out.push]
              omega
          _ = out.word i := Function.update_of_ne (by omega) _ _

theorem foldl_count (xs : List ℕ) (n : ℕ) : xs.foldl (fun outSize _ => outSize + 1) n = n + xs.length := by
  induction xs generalizing n with
  | nil => rfl
  | cons x xs ih =>
      rw [List.foldl_cons, ih, List.length_cons]
      omega

/-- One run of the loop to a buffer: the list, its length, and the rest of the buffer untouched. -/
theorem scan_push (upper : Option ℕ) (data other : List ℕ) (memory : ℕ → ℕ) :
    let out := scan upper Out.push data other 0 0 { word := memory, size := 0 }
    out.list = intersectLoop upper data other ∧ out.size = (intersectLoop upper data other).length ∧
      ∀ i, out.size ≤ i → out.word i = memory i := by
  intro out
  have hout : out = (intersectLoop upper data other).foldl Out.push { word := memory, size := 0 } :=
    scan_eq_foldl upper Out.push data other 0 0 _
  obtain ⟨hsize, hlist, hword⟩ :=
    Out.foldl_push (intersectLoop upper data other) { word := memory, size := 0 }
  rw [← hout] at hsize hlist hword
  rw [Nat.zero_add] at hsize
  refine ⟨hlist, hsize, fun i hi => hword i (Or.inr ?_)⟩
  rw [Nat.zero_add, ← hsize]
  exact hi

theorem scan_count (upper : Option ℕ) (data other : List ℕ) :
    scan upper (fun outSize _ => outSize + 1) data other 0 0 0
      = (intersectLoop upper data other).length := by
  calc _ = (intersectLoop upper data other).foldl (fun outSize _ => outSize + 1) 0 :=
        scan_eq_foldl upper _ data other 0 0 0
    _ = (intersectLoop upper data other).length := by rw [foldl_count, Nat.zero_add]

/-- No element of a set of common elements is counted twice on either side. -/
theorem length_filter_mem_le (hd : data.SortedLT) (other : List ℕ) (p : ℕ → Bool) :
    (data.filter fun x => decide (x ∈ other) && p x).length ≤ min data.length other.length := by
  refine le_min (List.length_filter_le _ _) ?_
  have hsub : (data.filter fun x => decide (x ∈ other) && p x) ⊆ other := by
    intro x hx
    exact of_decide_eq_true (Bool.and_elim_left (List.mem_filter.mp hx).2)
  exact ((SortedList.filter hd _).nodup.subperm hsub).length_le

theorem intersectLoop_none (hd : data.SortedLT) (ho : other.SortedLT) :
    intersectLoop none data other = data.filter fun x => decide (x ∈ other) := by
  rw [intersectLoop_eq none hd ho]
  apply List.filter_congr
  intro x _
  simp [reaches]

theorem intersectLoop_some (hd : data.SortedLT) (ho : other.SortedLT) :
    intersectLoop (some upper) data other
      = (data.filter fun x => decide (x ∈ other)).filter fun x => decide (x < upper) := by
  rw [intersectLoop_eq (some upper) hd ho, List.filter_filter]
  apply List.filter_congr
  intro x _
  simp only [reaches, ← not_le, decide_not]
  exact Bool.and_comm _ _

/-- The six loops compute the one list of common elements, cut at the bound where there is one. -/
theorem intersect_loops (data other : List ℕ) (upper : ℕ) (memory : ℕ → ℕ) (hd : data.SortedLT)
    (ho : other.SortedLT) :
    let common := data.filter fun x => decide (x ∈ other)
    let below := common.filter fun x => decide (x < upper)
    (intersect data other memory = common ∧ intersectUpper data other upper memory = below) ∧
      ((intersectBuffer data other memory).list = common ∧
        (intersectBuffer data other memory).size = common.length ∧
        ∀ i, common.length ≤ i → (intersectBuffer data other memory).word i = memory i) ∧
      ((intersectUpperBuffer data other upper memory).list = below ∧
        (intersectUpperBuffer data other upper memory).size = below.length ∧
        ∀ i, below.length ≤ i → (intersectUpperBuffer data other upper memory).word i = memory i) ∧
      (intersectCnt data other = common.length ∧ intersectUpperCnt data other upper = below.length) ∧
      common.SortedLT ∧ below.length ≤ common.length ∧
      common.length ≤ min data.length other.length := by
  intro common below
  obtain ⟨hlist, hsize, hword⟩ := scan_push none data other memory
  obtain ⟨hlistU, hsizeU, hwordU⟩ := scan_push (some upper) data other memory
  rw [intersectLoop_none hd ho] at hlist hsize
  rw [intersectLoop_some hd ho] at hlistU hsizeU
  refine ⟨⟨hlist, hlistU⟩, ⟨hlist, hsize, ?_⟩, ⟨hlistU, hsizeU, ?_⟩, ⟨?_, ?_⟩,
    SortedList.filter hd _, List.length_filter_le _ _, ?_⟩
  · exact fun i hi => hword i (hsize.trans_le hi)
  · exact fun i hi => hwordU i (hsizeU.trans_le hi)
  · exact (scan_count none data other).trans (by rw [intersectLoop_none hd ho])
  · exact (scan_count (some upper) data other).trans (by rw [intersectLoop_some hd ho])
  · have := length_filter_mem_le hd other fun _ => true
    simpa using this

/-- The sets `{1, 3, 5, 8}` and `{3, 4, 8}`, once with the bound 8. -/
theorem intersect_loops_run :
    intersect [1, 3, 5, 8] [3, 4, 8] (fun _ => 7) = [3, 8] ∧
      intersectUpper [1, 3, 5, 8] [3, 4, 8] 8 (fun _ => 7) = [3] :=
  (intersect_loops [1, 3, 5, 8] [3, 4, 8] 8 (fun _ => 7) (by decide) (by decide)).1

end IntersectLoops

/-- The operations of the sets are these loops. -/
theorem VertexSet.intersect_data_eq (s other : VertexSet) (memory : ℕ → ℕ) :
    (s.intersect other none).data = IntersectLoops.intersect s.data other.data memory :=
  (IntersectLoops.scan_push none s.data other.data memory).1.symm

theorem VertexSet.intersect_some_data_eq (s other : VertexSet) (upper : ℕ) (memory : ℕ → ℕ) :
    (s.intersect other (some upper)).data
      = IntersectLoops.intersectUpper s.data other.data upper memory :=
  (IntersectLoops.scan_push (some upper) s.data other.data memory).1.symm

theorem VertexSet.intersectCnt_eq_loop (s other : VertexSet) :
    s.intersectCnt other none = IntersectLoops.intersectCnt s.data other.data := by
  rw [VertexSet.intersectCnt, intersectCntLoop_eq, Nat.zero_add]
  exact (IntersectLoops.scan_count none s.data other.data).symm

end GraphMini
