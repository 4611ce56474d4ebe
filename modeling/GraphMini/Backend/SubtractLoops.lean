import GraphMini.Backend.IntersectLoops

/-!
# The four subtraction loops

`subtract` and `subtract_cnt`, with and without a bound, over the indices of the header: a loop over both
sides, then a loop over what is left of the receiver. A bounded copy leaves the first loop as soon as
either side reaches the bound. What is then left of the receiver is compared with the bound and the owner
only, since nothing below the bound is left on the other side.
-/

namespace GraphMini

namespace SubtractLoops

open IntersectLoops (Out foldl_count)

variable {σ : Type*}

/-- The loop over both sides, and where it leaves the receiver. -/
def merge (upper : Option ℕ) (vid : ℕ) (emit : σ → ℕ → σ) (data other : List ℕ) (idxL idxR : ℕ)
    (out : σ) : ℕ × σ :=
  if h : idxL < data.length ∧ idxR < other.length then
    let left := data.get ⟨idxL, h.1⟩
    let right := other.get ⟨idxR, h.2⟩
    if reaches upper left || reaches upper right then (idxL, out)
    else
      merge upper vid emit data other (if left ≤ right then idxL + 1 else idxL)
        (if right ≤ left then idxR + 1 else idxR)
        (if left < right ∧ left ≠ vid then emit out left else out)
  else (idxL, out)
termination_by (data.length - idxL) + (other.length - idxR)
decreasing_by split_ifs <;> omega

/-- The loop over the rest of the receiver. -/
def rest (upper : Option ℕ) (vid : ℕ) (emit : σ → ℕ → σ) (data : List ℕ) (idxL : ℕ) (out : σ) : σ :=
  if h : idxL < data.length then
    let left := data[idxL]
    if reaches upper left then out
    else rest upper vid emit data (idxL + 1) (if left ≠ vid then emit out left else out)
  else out
termination_by data.length - idxL

/-- Both loops. -/
def run (upper : Option ℕ) (vid : ℕ) (emit : σ → ℕ → σ) (data other : List ℕ) (out : σ) : σ :=
  let merged := merge upper vid emit data other 0 0 out
  rest upper vid emit data merged.1 merged.2

section

variable (data other : List ℕ) (vid upper : ℕ) (memory : ℕ → ℕ)

/-- `subtract(other)`; `memory` is the workspace of the pooled set. -/
def subtract : Out := run none vid Out.push data other { word := memory, size := 0 }

/-- `subtract(other, upper)`. -/
def subtractUpper : Out := run (some upper) vid Out.push data other { word := memory, size := 0 }

/-- `subtract_cnt(other)`. -/
def subtractCnt : ℕ := run none vid (fun outSize _ => outSize + 1) data other 0

/-- `subtract_cnt(other, upper)`. -/
def subtractUpperCnt : ℕ := run (some upper) vid (fun outSize _ => outSize + 1) data other 0

end

variable {data other : List ℕ} {vid upper : ℕ} {memory : ℕ → ℕ}

theorem rest_eq_foldl (upper : Option ℕ) (vid : ℕ) (emit : σ → ℕ → σ) (data : List ℕ) (idxL : ℕ)
    (out : σ) :
    rest upper vid emit data idxL out = (subtractRest upper vid (data.drop idxL)).foldl emit out := by
  rw [rest]
  by_cases h : idxL < data.length
  · rw [dif_pos h, List.drop_eq_getElem_cons h, subtractRest]
    by_cases hreach : reaches upper data[idxL] = true
    · rw [if_pos hreach, if_pos hreach]
      rfl
    · rw [if_neg hreach, if_neg hreach]
      by_cases hvid : data[idxL] = vid
      · rw [if_neg (not_not.mpr hvid), if_neg (not_not.mpr hvid), rest_eq_foldl]
      · rw [if_pos hvid, if_pos hvid, rest_eq_foldl, List.foldl_cons]
  · rw [dif_neg h, List.drop_eq_nil_of_le (not_lt.mp h)]
    rfl
termination_by data.length - idxL

/-- From any two indices on both loops emit what the first remaining suffix has and the second has not. -/
theorem rest_merge_eq_foldl (upper : Option ℕ) (vid : ℕ) (emit : σ → ℕ → σ) (data other : List ℕ)
    (idxL idxR : ℕ) (out : σ) :
    rest upper vid emit data (merge upper vid emit data other idxL idxR out).1
        (merge upper vid emit data other idxL idxR out).2
      = (subtractLoop upper vid (data.drop idxL) (other.drop idxR)).foldl emit out := by
  rw [merge]
  by_cases h : idxL < data.length ∧ idxR < other.length
  · rw [dif_pos h, List.drop_eq_getElem_cons h.1, List.drop_eq_getElem_cons h.2, subtractLoop]
    simp only [List.get_eq_getElem]
    by_cases hreach : (reaches upper data[idxL] || reaches upper other[idxR]) = true
    · rw [if_pos hreach, if_pos hreach, rest_eq_foldl, ← List.drop_eq_getElem_cons h.1]
    · rw [if_neg hreach, if_neg hreach]
      rcases lt_trichotomy data[idxL] other[idxR] with hlt | heq | hgt
      · rw [if_pos hlt, if_pos hlt.le, if_neg hlt.not_ge, rest_merge_eq_foldl,
          ← List.drop_eq_getElem_cons h.2]
        by_cases hvid : data[idxL] = vid
        · rw [if_neg (not_and_not_right.mpr fun _ => hvid), if_neg (not_not.mpr hvid)]
        · rw [if_pos ⟨hlt, hvid⟩, if_pos hvid, List.foldl_cons]
      · rw [if_neg heq.not_lt, if_neg heq.not_gt, if_pos heq.le, if_pos heq.ge,
          if_neg fun hboth => heq.not_lt hboth.1, rest_merge_eq_foldl]
      · rw [if_neg hgt.not_gt, if_pos hgt, if_neg hgt.not_ge, if_pos hgt.le,
          if_neg fun hboth => hgt.not_gt hboth.1, rest_merge_eq_foldl, ← List.drop_eq_getElem_cons h.1]
  · rw [dif_neg h, rest_eq_foldl]
    rcases not_and_or.mp h with hl | hr
    · rw [List.drop_eq_nil_of_le (not_lt.mp hl), subtractLoop]
      simp
    · rw [List.drop_eq_nil_of_le (not_lt.mp hr), subtractLoop]
      simp
termination_by (data.length - idxL) + (other.length - idxR)

theorem run_eq_foldl (upper : Option ℕ) (vid : ℕ) (emit : σ → ℕ → σ) (data other : List ℕ) (out : σ) :
    run upper vid emit data other out = (subtractLoop upper vid data other).foldl emit out :=
  rest_merge_eq_foldl upper vid emit data other 0 0 out

/-- One run of the loops to a buffer: the list, its length, and the rest of the buffer untouched. -/
theorem run_push (upper : Option ℕ) (vid : ℕ) (data other : List ℕ) (memory : ℕ → ℕ) :
    let out := run upper vid Out.push data other { word := memory, size := 0 }
    out.list = subtractLoop upper vid data other ∧ out.size = (subtractLoop upper vid data other).length ∧
      ∀ i, out.size ≤ i → out.word i = memory i := by
  intro out
  have hout : out = (subtractLoop upper vid data other).foldl Out.push { word := memory, size := 0 } :=
    run_eq_foldl upper vid Out.push data other _
  obtain ⟨hsize, hlist, hword⟩ :=
    Out.foldl_push (subtractLoop upper vid data other) { word := memory, size := 0 }
  rw [← hout] at hsize hlist hword
  rw [Nat.zero_add] at hsize
  refine ⟨hlist, hsize, fun i hi => hword i (Or.inr ?_)⟩
  rw [Nat.zero_add, ← hsize]
  exact hi

theorem run_count (upper : Option ℕ) (vid : ℕ) (data other : List ℕ) :
    run upper vid (fun outSize _ => outSize + 1) data other 0
      = (subtractLoop upper vid data other).length := by
  calc _ = (subtractLoop upper vid data other).foldl (fun outSize _ => outSize + 1) 0 :=
        run_eq_foldl upper vid _ data other 0
    _ = (subtractLoop upper vid data other).length := by rw [foldl_count, Nat.zero_add]

/-- The elements that are neither in the other set nor its owner. -/
def difference (data other : List ℕ) (vid : ℕ) : List ℕ :=
  data.filter fun x => decide (x ∉ other ∧ x ≠ vid)

theorem subtractLoop_none (hd : data.SortedLT) (ho : other.SortedLT) :
    subtractLoop none vid data other = difference data other vid := by
  rw [difference, subtractLoop_eq none vid hd ho]
  apply List.filter_congr
  intro x _
  simp [reaches]

theorem subtractLoop_some (hd : data.SortedLT) (ho : other.SortedLT) :
    subtractLoop (some upper) vid data other
      = (difference data other vid).filter fun x => decide (x < upper) := by
  rw [difference, subtractLoop_eq (some upper) vid hd ho, List.filter_filter]
  apply List.filter_congr
  intro x _
  simp only [reaches, ← not_le, decide_not, Bool.decide_and]
  exact Bool.and_comm _ _

/-- The four loops compute the one list of the elements that are neither on the other side nor its owner,
cut at the bound where there is one, in a workspace of the receiver's size. -/
theorem subtract_loops (data other : List ℕ) (vid upper : ℕ) (memory : ℕ → ℕ) (hd : data.SortedLT)
    (ho : other.SortedLT) :
    ((subtract data other vid memory).list = difference data other vid ∧
        (subtract data other vid memory).size = (difference data other vid).length ∧
        ∀ i, (difference data other vid).length ≤ i → (subtract data other vid memory).word i = memory i) ∧
      (let below := (difference data other vid).filter (fun x => decide (x < upper));
        (subtractUpper data other vid upper memory).list = below ∧
          (subtractUpper data other vid upper memory).size = below.length ∧
          subtractUpperCnt data other vid upper = below.length ∧ below.SortedLT ∧
          ∀ i, below.length ≤ i → (subtractUpper data other vid upper memory).word i = memory i) ∧
      subtractCnt data other vid = (difference data other vid).length ∧
      (difference data other vid).SortedLT ∧ (difference data other vid).length ≤ data.length := by
  obtain ⟨hlist, hsize, hword⟩ := run_push none vid data other memory
  obtain ⟨hlistU, hsizeU, hwordU⟩ := run_push (some upper) vid data other memory
  have hcount := run_count none vid data other
  have hcountU := run_count (some upper) vid data other
  rw [subtractLoop_none hd ho] at hlist hsize hcount
  rw [subtractLoop_some hd ho] at hlistU hsizeU hcountU
  have hsorted : (difference data other vid).SortedLT := SortedList.filter hd _
  refine ⟨⟨hlist, hsize, ?_⟩, ⟨hlistU, hsizeU, hcountU, SortedList.filter hsorted _, ?_⟩, hcount, hsorted,
    List.length_filter_le _ _⟩
  · exact fun i hi => hword i (hsize.trans_le hi)
  · exact fun i hi => hwordU i (hsizeU.trans_le hi)

/-- The neighbours `{3, 4, 8}` of the vertex 5 are taken from `{1, 3, 5, 8, 9}`, once with the bound 9. -/
theorem subtract_loops_run :
    (subtract [1, 3, 5, 8, 9] [3, 4, 8] 5 (fun _ => 7)).list = [1, 9] ∧
      (subtractUpper [1, 3, 5, 8, 9] [3, 4, 8] 5 9 (fun _ => 7)).list = [1] := by
  obtain ⟨⟨hlist, -⟩, ⟨hlistU, -⟩, -⟩ :=
    subtract_loops [1, 3, 5, 8, 9] [3, 4, 8] 5 9 (fun _ => 7) (by decide) (by decide)
  exact ⟨hlist, hlistU⟩

end SubtractLoops

/-- The operations of the sets are these loops. -/
theorem VertexSet.subtract_data_eq (s other : VertexSet) (memory : ℕ → ℕ) :
    (s.subtract other none).data = (SubtractLoops.subtract s.data other.data other.vid memory).list :=
  (SubtractLoops.run_push none other.vid s.data other.data memory).1.symm

theorem VertexSet.subtract_some_data_eq (s other : VertexSet) (upper : ℕ) (memory : ℕ → ℕ) :
    (s.subtract other (some upper)).data
      = (SubtractLoops.subtractUpper s.data other.data other.vid upper memory).list :=
  (SubtractLoops.run_push (some upper) other.vid s.data other.data memory).1.symm

theorem VertexSet.subtractCnt_eq_loop (s other : VertexSet) :
    s.subtractCnt other none = SubtractLoops.subtractCnt s.data other.data other.vid := by
  rw [VertexSet.subtractCnt, subtractCntLoop_eq, Nat.zero_add]
  exact (SubtractLoops.run_count none other.vid s.data other.data).symm

theorem VertexSet.subtractCnt_some_eq_loop (s other : VertexSet) (upper : ℕ) :
    s.subtractCnt other (some upper) = SubtractLoops.subtractUpperCnt s.data other.data other.vid upper := by
  rw [VertexSet.subtractCnt, subtractCntLoop_eq, Nat.zero_add]
  exact (SubtractLoops.run_count (some upper) other.vid s.data other.data).symm

end GraphMini
