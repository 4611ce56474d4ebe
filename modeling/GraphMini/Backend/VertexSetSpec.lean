import GraphMini.Backend.VertexSet
import Mathlib.Data.List.GetD

/-!
# What the vertex set operations compute

On strictly increasing arrays every loop of the header is a filter of the receiver. A bounded loop
leaves as soon as either side reaches the bound; what is left of the receiver is then either above
the bound itself or below everything that is left of the other side.
-/

namespace GraphMini

theorem reaches_mono {upper : Option ℕ} {x y : ℕ} (hxy : x ≤ y) (hx : reaches upper x = true) :
    reaches upper y = true := by
  cases upper with
  | none => simp [reaches] at hx
  | some u =>
      simp only [reaches, decide_eq_true_eq] at hx ⊢
      omega

/-- Once the head reaches the bound nothing of an increasing list is below it. -/
theorem filter_not_reaches_eq_nil {upper : Option ℕ} {a : ℕ} {l : List ℕ}
    (h : (a :: l).SortedLT) (ha : reaches upper a = true) (p : ℕ → Bool) :
    (a :: l).filter (fun x => p x && !reaches upper x) = [] := by
  rw [List.filter_eq_nil_iff]
  intro x hx
  have hreach : reaches upper x = true := by
    rcases List.mem_cons.mp hx with rfl | hx
    · exact ha
    · exact reaches_mono (SortedList.head_lt h hx).le ha
  simp [hreach]

theorem intersectLoop_eq (upper : Option ℕ) {ls rs : List ℕ} (hl : ls.SortedLT)
    (hr : rs.SortedLT) :
    intersectLoop upper ls rs = ls.filter (fun x => decide (x ∈ rs) && !reaches upper x) := by
  fun_induction intersectLoop upper ls rs with
  | case1 left ls right rs hreach =>
      symm
      rcases Bool.or_eq_true _ _ ▸ hreach with hleft | hright
      · exact filter_not_reaches_eq_nil hl hleft _
      · rw [List.filter_eq_nil_iff]
        intro x _
        by_cases hx : x ∈ right :: rs
        · have : reaches upper x = true := by
            rcases List.mem_cons.mp hx with rfl | hx
            · exact hright
            · exact reaches_mono (SortedList.head_lt hr hx).le hright
          simp [this]
        · simp [hx]
  | case2 left ls right rs hreach hlt ih =>
      have hnot : left ∉ right :: rs := by
        intro hmem
        rcases List.mem_cons.mp hmem with rfl | hmem
        · exact lt_irrefl _ hlt
        · exact absurd (SortedList.head_lt hr hmem) (by omega)
      rw [ih (SortedList.tail hl) hr, List.filter_cons_of_neg (by simp only [hnot]; simp)]
  | case3 left ls right rs hreach hle hlt ih =>
      rw [ih hl (SortedList.tail hr)]
      refine List.filter_congr fun x hx => ?_
      have hne : x ≠ right := by
        rcases List.mem_cons.mp hx with rfl | hx
        · omega
        · have := SortedList.head_lt hl hx
          omega
      simp [hne]
  | case4 left ls right rs hreach hle hge ih =>
      obtain rfl : left = right := by omega
      rw [ih (SortedList.tail hl) (SortedList.tail hr)]
      have hkeep : reaches upper left = false := by simpa using hreach
      rw [List.filter_cons_of_pos (by simp [hkeep])]
      refine congrArg _ (List.filter_congr fun x hx => ?_)
      have hne : x ≠ left := (SortedList.head_lt hl hx).ne'
      simp [hne]
  | case5 ls rs hcons =>
      cases ls with
      | nil => rfl
      | cons left ls =>
          cases rs with
          | nil => simp
          | cons right rs => exact absurd rfl (hcons _ _ _ _ rfl)

theorem intersectCntLoop_eq (upper : Option ℕ) (ls rs : List ℕ) (outSize : ℕ) :
    intersectCntLoop upper ls rs outSize = outSize + (intersectLoop upper ls rs).length := by
  fun_induction intersectCntLoop upper ls rs outSize with
  | case1 left ls right rs outSize hreach => simp [intersectLoop, hreach]
  | case2 left ls right rs outSize hreach hlt ih => simp [ih, intersectLoop, hreach, hlt]
  | case3 left ls right rs outSize hreach hle hlt ih =>
      simp [ih, intersectLoop, hreach, hle, hlt]
  | case4 left ls right rs outSize hreach hle hge ih =>
      simp only [ih, intersectLoop, hreach, hle, hge, Bool.false_eq_true, if_false,
        List.length_cons]
      omega
  | case5 ls rs outSize hcons =>
      cases ls with
      | nil => simp [intersectLoop]
      | cons left ls =>
          cases rs with
          | nil => simp [intersectLoop]
          | cons right rs => exact absurd rfl (hcons _ _ _ _ rfl)

theorem subtractRest_eq (upper : Option ℕ) (vid : ℕ) {ls : List ℕ} (hl : ls.SortedLT) :
    subtractRest upper vid ls
      = ls.filter (fun x => decide (x ≠ vid) && !reaches upper x) := by
  induction ls with
  | nil => rfl
  | cons left ls ih =>
      rw [subtractRest]
      split
      · rename_i hreach
        exact (filter_not_reaches_eq_nil hl hreach _).symm
      · rename_i hreach
        rw [ih (SortedList.tail hl)]
        by_cases hvid : left = vid
        · simp [hvid]
        · simp [hvid, hreach]

theorem subtractLoop_eq (upper : Option ℕ) (vid : ℕ) {ls rs : List ℕ} (hl : ls.SortedLT)
    (hr : rs.SortedLT) :
    subtractLoop upper vid ls rs
      = ls.filter (fun x => (decide (x ∉ rs) && decide (x ≠ vid)) && !reaches upper x) := by
  fun_induction subtractLoop upper vid ls rs with
  | case1 left ls right rs hreach =>
      rw [subtractRest_eq upper vid hl]
      refine List.filter_congr fun x _ => ?_
      by_cases hx : x ∈ right :: rs
      · -- an element of both sides is past the bound, whichever side reached it
        have hreachx : reaches upper x = true := by
          rcases Bool.or_eq_true _ _ ▸ hreach with hleft | hright
          · rename_i hmem
            rcases List.mem_cons.mp hmem with rfl | hmem
            · exact hleft
            · exact reaches_mono (SortedList.head_lt hl hmem).le hleft
          · rcases List.mem_cons.mp hx with rfl | hx
            · exact hright
            · exact reaches_mono (SortedList.head_lt hr hx).le hright
        simp [hreachx]
      · simp [hx]
  | case2 left ls right rs hreach hlt hvid ih =>
      have hnot : left ∉ right :: rs := by
        intro hmem
        rcases List.mem_cons.mp hmem with rfl | hmem
        · exact lt_irrefl _ hlt
        · exact absurd (SortedList.head_lt hr hmem) (by omega)
      have hkeep : reaches upper left = false := by
        have := hreach
        simp only [Bool.or_eq_true, not_or, Bool.not_eq_true] at this
        exact this.1
      rw [ih (SortedList.tail hl) hr, List.filter_cons_of_pos]
      simp [hnot, hvid, hkeep]
  | case3 left ls right rs hreach hlt hvid ih =>
      rw [ih (SortedList.tail hl) hr, List.filter_cons_of_neg]
      simp [not_not.mp hvid]
  | case4 left ls right rs hreach hle hlt ih =>
      rw [ih hl (SortedList.tail hr)]
      refine List.filter_congr fun x hx => ?_
      have hne : x ≠ right := by
        rcases List.mem_cons.mp hx with rfl | hx
        · omega
        · have := SortedList.head_lt hl hx
          omega
      simp [hne]
  | case5 left ls right rs hreach hle hge ih =>
      obtain rfl : left = right := by omega
      rw [ih (SortedList.tail hl) (SortedList.tail hr), List.filter_cons_of_neg (by simp)]
      refine List.filter_congr fun x hx => ?_
      have hne : x ≠ left := (SortedList.head_lt hl hx).ne'
      simp [hne]
  | case6 ls rs hcons =>
      rw [subtractRest_eq upper vid hl]
      cases rs with
      | nil => simp
      | cons right rs =>
          cases ls with
          | nil => rfl
          | cons left ls => exact absurd rfl (hcons _ _ _ _ rfl)

theorem subtractCntRest_eq (upper : Option ℕ) (vid : ℕ) (ls : List ℕ) (outSize : ℕ) :
    subtractCntRest upper vid ls outSize = outSize + (subtractRest upper vid ls).length := by
  induction ls generalizing outSize with
  | nil => rfl
  | cons left ls ih =>
      simp only [subtractCntRest, subtractRest]
      split_ifs
      · rfl
      · rw [ih, List.length_cons]
        omega
      · exact ih _

theorem subtractCntLoop_eq (upper : Option ℕ) (vid : ℕ) (ls rs : List ℕ) (outSize : ℕ) :
    subtractCntLoop upper vid ls rs outSize = outSize + (subtractLoop upper vid ls rs).length := by
  fun_induction subtractCntLoop upper vid ls rs outSize with
  | case1 left ls right rs outSize hreach =>
      rw [subtractCntRest_eq]
      simp [subtractLoop, hreach]
  | case2 left ls right rs outSize hreach hlt hvid ih =>
      simp only [ih, subtractLoop, hreach, hlt, hvid, Bool.false_eq_true, if_true, if_false,
        List.length_cons, ne_eq, not_false_eq_true]
      omega
  | case3 left ls right rs outSize hreach hlt hvid ih =>
      simp [ih, subtractLoop, hreach, hlt, hvid]
  | case4 left ls right rs outSize hreach hle hlt ih =>
      simp [ih, subtractLoop, hreach, hle, hlt]
  | case5 left ls right rs outSize hreach hle hge ih =>
      simp [ih, subtractLoop, hreach, hle, hge]
  | case6 ls rs outSize hcons =>
      rw [subtractCntRest_eq]
      cases rs with
      | nil => simp [subtractLoop]
      | cons right rs =>
          cases ls with
          | nil => simp [subtractLoop]
          | cons left ls => exact absurd rfl (hcons _ _ _ _ rfl)

/-! ### The position of a bound -/

/-- The search keeps everything before `idxL` below the bound and everything from `idxL + count` on
at or above it. -/
theorem binarySearch_eq {data : List ℕ} (h : data.SortedLT) (upper : ℕ) {idxL count : ℕ}
    (hlow : idxL ≤ data.countP (fun x => decide (x < upper)))
    (hhigh : data.countP (fun x => decide (x < upper)) ≤ idxL + count)
    (hlen : idxL + count ≤ data.length) :
    binarySearch data upper idxL count = data.countP (fun x => decide (x < upper)) := by
  fun_induction binarySearch data upper idxL count with
  | case1 idxL count hpos step hlt ih =>
      have hstep : step < count := Nat.div_lt_self hpos (by norm_num)
      have hi : idxL + step < data.length := by omega
      rw [List.getD_eq_getElem _ _ hi, SortedList.getElem_lt_iff h hi] at hlt
      exact ih (by omega) (by omega) (by omega)
  | case2 idxL count hpos step hge ih =>
      have hstep : step < count := Nat.div_lt_self hpos (by norm_num)
      have hi : idxL + step < data.length := by omega
      rw [List.getD_eq_getElem _ _ hi, SortedList.getElem_lt_iff h hi] at hge
      exact ih hlow (by omega) (by omega)
  | case3 idxL count hzero => omega

theorem linearSearch_eq {data : List ℕ} (h : data.SortedLT) (upper idxL : ℕ) :
    linearSearch upper data idxL = idxL + data.countP (fun x => decide (x < upper)) := by
  induction data generalizing idxL with
  | nil => rfl
  | cons x xs ih =>
      rw [linearSearch]
      split
      · rename_i hx
        rw [ih (SortedList.tail h), List.countP_cons_of_pos (by simpa using hx)]
        omega
      · rename_i hx
        have hnil := SortedList.filter_lt_cons_of_le h (not_lt.mp hx)
        rw [List.countP_eq_length_filter, hnil]
        rfl

theorem binarySearch_le (data : List ℕ) (val start count : ℕ) :
    binarySearch data val start count ≤ start + count := by
  fun_induction binarySearch data val start count with
  | case1 start count hpos step hlt ih => omega
  | case2 start count hpos step hge ih => omega
  | case3 start count hzero => omega

theorem linearSearch_le (upper : ℕ) (data : List ℕ) (idxL : ℕ) :
    linearSearch upper data idxL ≤ idxL + data.length := by
  induction data generalizing idxL with
  | nil => exact le_rfl
  | cons x xs ih =>
      rw [linearSearch, List.length_cons]
      have hrest := ih (idxL + 1)
      split <;> omega

/-- Neither search leaves the array, sorted or not. -/
theorem searchUpper_le (data : List ℕ) (upper : ℕ) : searchUpper data upper ≤ data.length := by
  rw [searchUpper]
  split
  · simpa using binarySearch_le data upper 0 data.length
  · simpa using linearSearch_le upper data 0

/-- Both searches return the number of elements below the bound. -/
theorem searchUpper_eq {data : List ℕ} (h : data.SortedLT) (upper : ℕ) :
    searchUpper data upper = data.countP (fun x => decide (x < upper)) := by
  rw [searchUpper]
  split
  · exact binarySearch_eq h upper (Nat.zero_le _) (by simpa using List.countP_le_length)
      (by simp)
  · simpa using linearSearch_eq h upper 0

namespace VertexSet

variable {s other : VertexSet}

theorem intersect_data (hs : s.data.SortedLT) (ho : other.data.SortedLT) (upper : Option ℕ) :
    (s.intersect other upper).data
      = s.data.filter (fun x => decide (x ∈ other.data) && !reaches upper x) :=
  intersectLoop_eq upper hs ho

theorem subtract_data (hs : s.data.SortedLT) (ho : other.data.SortedLT) (upper : Option ℕ) :
    (s.subtract other upper).data = s.data.filter
      (fun x => (decide (x ∉ other.data) && decide (x ≠ other.vid)) && !reaches upper x) :=
  subtractLoop_eq upper other.vid hs ho

theorem bounded_data (hs : s.data.SortedLT) (upper : ℕ) :
    (s.bounded upper).data = s.data.filter (fun x => decide (x < upper)) := by
  rw [bounded, searchUpper_eq hs, SortedList.take_countP_lt hs]

/-- A member of an increasing array stands right after the elements below it. -/
theorem searchUpper_of_getElem (hs : s.data.SortedLT) {i : ℕ} (hi : i < s.data.length) :
    searchUpper s.data s.data[i] = i := by
  rw [searchUpper_eq hs]
  have hself : ¬ i < s.data.countP (fun x => decide (x < s.data[i])) :=
    fun hlt => lt_irrefl _ ((SortedList.getElem_lt_iff hs hi).mpr hlt)
  rcases Nat.eq_zero_or_pos i with hzero | hpos
  · omega
  · have hprev : s.data[i - 1] < s.data[i] :=
      hs.getElem_lt_getElem_of_lt (by omega)
    have := (SortedList.getElem_lt_iff hs (i := i - 1) (by omega)).mp hprev
    omega

/-- `remove` copies exactly when its argument is there. -/
theorem removeFinds_iff (hs : s.data.SortedLT) (upper : ℕ) :
    s.removeFinds upper = true ↔ upper ∈ s.data := by
  rw [removeFinds, beq_iff_eq]
  constructor
  · exact List.mem_of_getElem?
  · intro hmem
    obtain ⟨i, hi, rfl⟩ := List.getElem_of_mem hmem
    rw [searchUpper_of_getElem hs hi, List.getElem?_eq_getElem hi]

theorem remove_data (hs : s.data.SortedLT) (upper : ℕ) :
    (s.remove upper).data = s.data.filter (fun x => decide (x ≠ upper)) := by
  by_cases hmem : upper ∈ s.data
  · have hfinds : s.removeFinds upper = true := (removeFinds_iff hs upper).mpr hmem
    obtain ⟨i, hi, rfl⟩ := List.getElem_of_mem hmem
    simp only [remove, hfinds, if_true]
    rw [searchUpper_of_getElem hs hi, ← List.eraseIdx_eq_take_drop_succ,
      ← hs.nodup.erase_getElem i hi, hs.nodup.erase_eq_filter]
    exact List.filter_congr fun x _ => by rw [Bool.eq_iff_iff]; simp
  · have hfinds : s.removeFinds upper = false :=
      Bool.eq_false_iff.mpr (fun h => hmem ((removeFinds_iff hs upper).mp h))
    simp only [remove, hfinds, Bool.false_eq_true, if_false]
    symm
    rw [List.filter_eq_self]
    intro x hx
    simpa using fun heq : x = upper => hmem (heq ▸ hx)

theorem intersectCnt_eq (s other : VertexSet) (upper : Option ℕ) :
    s.intersectCnt other upper = (s.intersect other upper).size := by
  simp [intersectCnt, intersect, size, intersectCntLoop_eq]

theorem subtractCnt_eq (s other : VertexSet) (upper : Option ℕ) :
    s.subtractCnt other upper = (s.subtract other upper).size := by
  simp [subtractCnt, subtract, size, subtractCntLoop_eq]

theorem boundedCnt_eq (hs : s.data.SortedLT) (upper : ℕ) :
    s.boundedCnt upper = (s.bounded upper).size := by
  rw [boundedCnt, size, bounded_data hs, searchUpper_eq hs, List.countP_eq_length_filter]

theorem removeCnt_eq (hs : s.data.SortedLT) (upper : ℕ) :
    s.removeCnt upper = (s.remove upper).size := by
  by_cases hfinds : s.removeFinds upper = true
  · obtain ⟨i, hi, rfl⟩ := List.getElem_of_mem ((removeFinds_iff hs upper).mp hfinds)
    simp only [removeCnt, remove, size, hfinds, if_true]
    rw [searchUpper_of_getElem hs hi, List.length_append, List.length_take, List.length_drop]
    omega
  · simp [removeCnt, remove, size, hfinds]

end VertexSet

end GraphMini
