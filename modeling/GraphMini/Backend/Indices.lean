import GraphMini.Backend.MiniGraph

/-!
# Positions of one set in another

All three ways `get_indices` may take return the positions of the vertices that the second set
contains, in increasing order.
-/

namespace GraphMini

/-- The positions, counted from `start`, of the members of `ids` in `data`. -/
def positions (data ids : List ℕ) (start : ℕ) : List ℕ :=
  ((data.zipIdx start).filter fun e => decide (e.1 ∈ ids)).map Prod.snd

theorem positions_cons (x : ℕ) (data ids : List ℕ) (start : ℕ) :
    positions (x :: data) ids start
      = if x ∈ ids then start :: positions data ids (start + 1)
        else positions data ids (start + 1) := by
  simp only [positions, List.zipIdx_cons, List.filter_cons]
  split_ifs <;> simp_all

/-- Ids below all of the array have no position in it. -/
theorem positions_congr {data ids ids' : List ℕ} (start : ℕ)
    (h : ∀ x ∈ data, x ∈ ids ↔ x ∈ ids') : positions data ids start = positions data ids' start := by
  induction data generalizing start with
  | nil => rfl
  | cons x data ih =>
      rw [positions_cons, positions_cons, ih _ fun y hy => h y (List.mem_cons_of_mem _ hy)]
      simp only [h x List.mem_cons_self]

theorem positions_nil_ids (data : List ℕ) (start : ℕ) : positions data [] start = [] := by
  simp [positions]

theorem positions_append (front data ids : List ℕ) (start : ℕ) (h : ∀ x ∈ front, x ∉ ids) :
    positions (front ++ data) ids start = positions data ids (start + front.length) := by
  induction front generalizing start with
  | nil => rfl
  | cons x front ih =>
      have hx : x ∉ ids := h x List.mem_cons_self
      rw [List.cons_append, positions_cons, if_neg hx,
        ih (start + 1) fun y hy => h y (List.mem_cons_of_mem _ hy), List.length_cons]
      congr 1
      omega

theorem indicesScan_eq {ls rs : List ℕ} (hl : ls.SortedLT) (hr : rs.SortedLT) (idxL : ℕ) :
    indicesScan idxL ls rs = positions ls rs idxL := by
  fun_induction indicesScan idxL ls rs with
  | case1 idxL left ls right rs hlt ih =>
      have hnot : left ∉ right :: rs := by
        intro hmem
        rcases List.mem_cons.mp hmem with rfl | hmem
        · exact lt_irrefl _ hlt
        · exact lt_asymm hlt (SortedList.head_lt hr hmem)
      rw [ih (SortedList.tail hl) hr, positions_cons, if_neg hnot]
  | case2 idxL left ls right rs hle hlt ih =>
      rw [ih hl (SortedList.tail hr)]
      apply positions_congr
      intro x hx
      have hright : right < x := by
        rcases List.mem_cons.mp hx with rfl | hx
        · exact hlt
        · exact hlt.trans (SortedList.head_lt hl hx)
      simp [hright.ne']
  | case3 idxL left ls right rs hle hge ih =>
      obtain rfl : left = right := by omega
      rw [ih (SortedList.tail hl) (SortedList.tail hr), positions_cons,
        if_pos List.mem_cons_self]
      congr 1
      apply positions_congr
      intro x hx
      simp [(SortedList.head_lt hl hx).ne']
  | case4 idxL ls rs hnone =>
      cases ls with
      | nil => rfl
      | cons left ls =>
          cases rs with
          | nil => rw [positions_nil_ids]
          | cons right rs => exact absurd rfl (hnone left ls right rs rfl)

/-- The search goes on behind the ids it has passed, all of which are below the ids still to be
found. -/
theorem indicesSearch_eq {data ids : List ℕ} (hdata : data.SortedLT) (hids : ids.SortedLT) {itr : ℕ}
    (hitr : ∀ id ∈ ids, itr ≤ data.countP (fun x => decide (x < id))) :
    indicesSearch data itr ids = positions (data.drop itr) ids itr := by
  induction ids generalizing itr with
  | nil => rw [positions_nil_ids]; rfl
  | cons id ids ih =>
      rw [indicesSearch]
      by_cases hlen : itr < data.length
      · set pos := data.countP fun x => decide (x < id) with hpos
        have hle : itr ≤ pos := hitr id List.mem_cons_self
        have hbound : pos ≤ data.length := List.countP_le_length
        have hsearch : binarySearch data id itr (data.length - itr) = pos :=
          binarySearch_eq hdata id hle (by omega) (by omega)
        -- what lies between is below `id`
        have hfront : ∀ x ∈ (data.drop itr).take (pos - itr), x ∉ id :: ids := by
          intro x hx hmem
          have hxid : x < id := by
            have hx' : x ∈ data.take pos := by
              rw [← List.drop_take] at hx
              exact List.mem_of_mem_drop hx
            rw [SortedList.take_countP_lt hdata] at hx'
            simpa using (List.mem_filter.mp hx').2
          rcases List.mem_cons.mp hmem with rfl | hmem
          · exact lt_irrefl _ hxid
          · exact lt_asymm hxid (SortedList.head_lt hids hmem)
        have hskip : positions (data.drop itr) (id :: ids) itr
            = positions (data.drop pos) (id :: ids) pos := by
          conv_lhs => rw [← List.take_append_drop (pos - itr) (data.drop itr)]
          rw [positions_append _ _ _ _ hfront, List.length_take, List.length_drop, List.drop_drop]
          congr 2 <;> omega
        simp only [hlen, if_true, hsearch, hskip]
        split_ifs with hfound
        · obtain ⟨hpos', hat⟩ := List.getElem?_eq_some_iff.mp hfound
          have hlater : ∀ id' ∈ ids, pos + 1 ≤ data.countP fun x => decide (x < id') := by
            intro id' hid'
            have := (SortedList.getElem_lt_iff hdata hpos').mp
              (hat ▸ SortedList.head_lt hids hid')
            omega
          rw [ih (SortedList.tail hids) hlater, List.drop_eq_getElem_cons hpos', positions_cons, hat,
            if_pos List.mem_cons_self]
          congr 1
          apply positions_congr
          intro x hx
          have hgt : id < x := by
            have hsorted : (data[pos] :: data.drop (pos + 1)).SortedLT := by
              rw [← List.drop_eq_getElem_cons hpos']
              exact SortedList.sublist hdata (List.drop_sublist _ _)
            exact hat ▸ SortedList.head_lt hsorted hx
          simp [hgt.ne']
        · have hlater : ∀ id' ∈ ids, pos ≤ data.countP fun x => decide (x < id') := by
            intro id' hid'
            apply List.countP_mono_left
            intro x _ hx
            simp only [decide_eq_true_eq] at hx ⊢
            exact hx.trans (SortedList.head_lt hids hid')
          rw [ih (SortedList.tail hids) hlater]
          apply positions_congr
          intro x hx
          have hne : x ≠ id := by
            rintro rfl
            apply hfound
            have hmem := List.mem_of_mem_drop hx
            obtain ⟨k, hk, hkx⟩ := List.getElem_of_mem hmem
            have hkpos : k = pos := by
              have hself := VertexSet.searchUpper_of_getElem (s := { data }) hdata hk
              rw [searchUpper_eq hdata, hkx] at hself
              exact hself.symm
            rw [← hkpos, List.getElem?_eq_getElem hk, hkx]
          simp [hne]
      · simp only [hlen, if_false]
        rw [List.drop_eq_nil_of_le (by omega)]
        rfl

/-! ### The positions by membership -/

theorem positions_eq_filter (data ids : List ℕ) :
    positions data ids 0
      = (List.range data.length).filter fun i => decide (data.getD i 0 ∈ ids) := by
  have hgen : ∀ (data : List ℕ) (start : ℕ), positions data ids start
      = (List.range' start data.length).filter fun i => decide (data.getD (i - start) 0 ∈ ids) := by
    intro data
    induction data with
    | nil => exact fun _ => rfl
    | cons x data ih =>
        intro start
        have hshift : (List.range' (start + 1) data.length).filter
              (fun i => decide ((x :: data).getD (i - start) 0 ∈ ids))
            = positions data ids (start + 1) := by
          rw [ih]
          apply List.filter_congr
          intro i hi
          obtain ⟨k, rfl⟩ : ∃ k, i = start + 1 + k :=
            ⟨i - (start + 1), by have := (List.mem_range'_1.mp hi).1; omega⟩
          rw [show start + 1 + k - start = k + 1 by omega, show start + 1 + k - (start + 1) = k by omega,
            List.getD_cons_succ]
        rw [positions_cons, List.length_cons, List.range'_succ, List.filter_cons, hshift, Nat.sub_self,
          List.getD_cons_zero]
        simp only [decide_eq_true_eq]
  rw [hgen, List.range_eq_range']
  simp

/-- Of two prefixes of one array the shorter one is what they share. -/
theorem range_min_eq_filter {ls rs : List ℕ} (hl : ls.SortedLT) (hpre : ls <+: rs ∨ rs <+: ls) :
    List.range (min ls.length rs.length)
      = (List.range ls.length).filter fun i => decide (ls.getD i 0 ∈ rs) := by
  have hmem : ∀ i < ls.length, ls.getD i 0 ∈ rs ↔ i < rs.length := by
    intro i hlt
    rw [List.getD_eq_getElem _ _ hlt]
    rcases hpre with hpre | hpre
    · apply iff_of_true
      · exact hpre.subset (List.getElem_mem hlt)
      · exact hlt.trans_le hpre.length_le
    · exact SortedList.prefix_mem_iff hl hpre hlt
  apply SortedList.eq_of_mem_iff (List.sortedLT_range _) (SortedList.filter (List.sortedLT_range _) _)
  intro i
  rw [List.mem_range, List.mem_filter, List.mem_range, lt_min_iff, decide_eq_true_eq]
  exact and_congr_right fun hlt => (hmem i hlt).symm

/-- A list is what stands at its places. -/
theorem map_getD_range (data : List ℕ) :
    (List.range data.length).map (fun i => data.getD i 0) = data := by
  apply List.ext_getElem
  · simp
  · intro i h₁ h₂
    simp [h₂]

variable {vertices toIter : VertexArray}

/-- The entries of `vertices` that lie in `toIter`. -/
theorem getIndices_eq (hv : vertices.data.SortedLT) (hi : toIter.data.SortedLT)
    (hsame : vertices.Consistent toIter) :
    getIndices vertices toIter = (List.range vertices.size).filter
      fun i => decide (vertices.data.getD i 0 ∈ toIter.data) := by
  rw [getIndices]
  split_ifs with hstart hsmall
  · exact range_min_eq_filter hv (hsame hstart)
  · rw [indicesSearch_eq hv hi fun _ _ => Nat.zero_le _, List.drop_zero, positions_eq_filter]
    rfl
  · rw [indicesScan_eq hv hi, positions_eq_filter]
    rfl

theorem lt_of_mem_getIndices (hv : vertices.data.SortedLT) (hi : toIter.data.SortedLT)
    (hsame : vertices.Consistent toIter) {i : ℕ} (h : i ∈ getIndices vertices toIter) :
    i < vertices.data.length := by
  rw [getIndices_eq hv hi hsame] at h
  exact List.mem_range.mp (List.mem_filter.mp h).1

/-- The vertices at these positions. -/
theorem map_getIndices (hv : vertices.data.SortedLT) (hi : toIter.data.SortedLT)
    (hsame : vertices.Consistent toIter) :
    (getIndices vertices toIter).map (fun i => vertices.data.getD i 0)
      = vertices.data.filter fun x => decide (x ∈ toIter.data) := by
  have hall : (List.range vertices.size).map (fun i => vertices.data.getD i 0) = vertices.data :=
    map_getD_range vertices.data
  rw [getIndices_eq hv hi hsame, ← hall, List.filter_map, hall]
  rfl

/-- A set that covers `toIter` finds all of it, each id where it stands. -/
theorem getIndices_of_covers (hv : vertices.data.SortedLT) (hi : toIter.data.SortedLT)
    (hsame : vertices.Consistent toIter) (hcov : ∀ x ∈ toIter.data, x ∈ vertices.data) :
    (getIndices vertices toIter).map (fun i => vertices.data.getD i 0) = toIter.data := by
  rw [map_getIndices hv hi hsame]
  refine SortedList.eq_of_mem_iff (SortedList.filter hv _) hi fun x => ?_
  simp only [List.mem_filter, decide_eq_true_eq]
  exact ⟨And.right, fun hx => ⟨hcov x hx, hx⟩⟩

end GraphMini
