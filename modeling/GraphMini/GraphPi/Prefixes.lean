import GraphMini.Codegen.Closure
import Mathlib.Data.List.GetD

/-!
# The shared prefixes of the loops

`build_loop_invariant` and `find_father_prefix` of `Schedule`. The set of a loop is the intersection of the
neighbours of the earlier vertices that its vertex is joined to, and loops share the sets of equal prefixes.
The chain of the prefixes that end with a vertex, `last` and `next`, is a list.
-/

namespace GraphMini

namespace GraphPi

structure PrefixTable where
  data : List (List ℕ) := []
  fatherPrefixId : List (Option ℕ) := []
  last : ℕ → List ℕ := fun _ => []

/-- `find_father_prefix`, of the first `dataSize` vertices. -/
def findFatherPrefix (data : List ℕ) : ℕ → PrefixTable → Option ℕ × PrefixTable
  | 0, table => (none, table)
  | dataSize + 1, table =>
      let num := data.getD dataSize 0
      match (table.last num).find? fun prefixId => table.data.getD prefixId [] == data.take (dataSize + 1) with
      | some prefixId => (some prefixId, table)
      | none =>
          let (father, table) := findFatherPrefix data dataSize table
          (some table.data.length,
            { data := table.data ++ [data.take (dataSize + 1)]
              fatherPrefixId := table.fatherPrefixId ++ [father]
              last := Function.update table.last num (table.data.length :: table.last num) })

/-- `tmp_data`, the earlier vertices that a vertex is joined to. -/
def tmpData (adjMat : List Char) (size i : ℕ) : List ℕ :=
  (List.range i).filter fun j => decide (marked size adjMat i j)

/-- `build_loop_invariant`, the prefixes and `loop_set_prefix_id`. -/
def buildLoopInvariant (adjMat : List Char) (size : ℕ) : PrefixTable × List (Option ℕ) :=
  (List.range' 1 (size - 1)).foldl
    (fun state i =>
      let data := tmpData adjMat size i
      let (prefixId, table) := findFatherPrefix data data.length state.1
      (table, state.2 ++ [prefixId]))
    ({}, [none])

variable {adjMat : List Char} {size i dataSize : ℕ} {t : PrefixTable}

theorem mem_tmpData {j : ℕ} : j ∈ tmpData adjMat size i ↔ j < i ∧ marked size adjMat i j := by
  rw [tmpData, List.mem_filter, List.mem_range, decide_eq_true_eq]

theorem tmpData_sortedLT : (tmpData adjMat size i).SortedLT :=
  (List.pairwise_lt_range.filter _).sortedLT

theorem length_tmpData_le : (tmpData adjMat size i).length ≤ i := by
  calc (tmpData adjMat size i).length ≤ (List.range i).length := List.length_filter_le _ _
    _ = i := List.length_range

namespace PrefixTable

/-- Every prefix is in the chain of its last vertex, its father is the prefix without it, and some loop
begins with it. -/
structure Valid (adjMat : List Char) (size : ℕ) (t : PrefixTable) : Prop where
  length_eq : t.fatherPrefixId.length = t.data.length
  split : ∀ prefixId < t.data.length, ∃ front num, t.data.getD prefixId [] = front ++ [num]
    ∧ (∀ x ∈ front, x < num) ∧ prefixId ∈ t.last num
    ∧ (front = [] ∧ t.fatherPrefixId.getD prefixId none = none
      ∨ ∃ father < t.data.length, t.fatherPrefixId.getD prefixId none = some father
        ∧ t.data.getD father [] = front)
  last_mem : ∀ num, ∀ prefixId ∈ t.last num, prefixId < t.data.length
    ∧ ∃ front, t.data.getD prefixId [] = front ++ [num]
  used : ∀ prefixId < t.data.length, ∃ i < size, t.data.getD prefixId [] <+: tmpData adjMat size i

theorem valid_empty : Valid adjMat size {} where
  length_eq := rfl
  split _ h := absurd h (Nat.not_lt_zero _)
  last_mem _ _ h := absurd h List.not_mem_nil
  used _ h := absurd h (Nat.not_lt_zero _)

theorem getD_of_prefix {t' : PrefixTable} (h : t.data <+: t'.data) {prefixId : ℕ}
    (hlt : prefixId < t.data.length) : t'.data.getD prefixId [] = t.data.getD prefixId [] := by
  obtain ⟨rest, hrest⟩ := h
  rw [← hrest, List.getD_append _ _ _ _ hlt]

/-- A new prefix after its father. -/
theorem Valid.append (h : t.Valid adjMat size) {front : List ℕ} {num : ℕ} {father : Option ℕ}
    (hfront : ∀ x ∈ front, x < num) (hused : ∃ i < size, front ++ [num] <+: tmpData adjMat size i)
    (hfather : front = [] ∧ father = none
      ∨ ∃ prefixId < t.data.length, father = some prefixId ∧ t.data.getD prefixId [] = front) :
    Valid adjMat size
      { data := t.data ++ [front ++ [num]]
        fatherPrefixId := t.fatherPrefixId ++ [father]
        last := Function.update t.last num (t.data.length :: t.last num) } := by
  have hlow : ∀ prefixId < t.data.length,
      (t.data ++ [front ++ [num]]).getD prefixId [] = t.data.getD prefixId [] :=
    fun prefixId hlt => List.getD_append _ _ _ _ hlt
  have hnew : (t.data ++ [front ++ [num]]).getD t.data.length [] = front ++ [num] := by
    simp
  have hchain : ∀ num' prefixId, prefixId ∈ Function.update t.last num (t.data.length :: t.last num) num' ↔
      (num' = num ∧ prefixId = t.data.length) ∨ prefixId ∈ t.last num' := by
    intro num' prefixId
    rcases eq_or_ne num' num with rfl | hne
    · rw [Function.update_self, List.mem_cons]
      simp
    · rw [Function.update_of_ne hne]
      simp [hne]
  refine ⟨by simp [h.length_eq], ?_, ?_, ?_⟩
  · intro prefixId hlt
    rw [List.length_append, List.length_singleton] at hlt
    rcases Nat.lt_succ_iff_lt_or_eq.mp hlt with hlt | rfl
    · obtain ⟨front', num', hdata, hfront', hmem, hfather'⟩ := h.split prefixId hlt
      refine ⟨front', num', by rw [hlow prefixId hlt, hdata], hfront', (hchain _ _).mpr (Or.inr hmem), ?_⟩
      rw [List.getD_append _ _ _ _ (h.length_eq.symm ▸ hlt)]
      rcases hfather' with hnone | ⟨father', hlt', hsome, hdata'⟩
      · exact Or.inl hnone
      · right
        refine ⟨father', ?_, hsome, by rw [hlow father' hlt', hdata']⟩
        rw [List.length_append]
        omega
    · refine ⟨front, num, hnew, hfront, (hchain _ _).mpr (Or.inl ⟨rfl, rfl⟩), ?_⟩
      · have hlast : (t.fatherPrefixId ++ [father]).getD t.data.length none = father := by
          rw [← h.length_eq]
          simp
        rw [hlast]
        rcases hfather with hnone | ⟨father', hlt', hsome, hdata'⟩
        · exact Or.inl hnone
        · right
          refine ⟨father', ?_, hsome, by rw [hlow father' hlt', hdata']⟩
          rw [List.length_append]
          omega
  · intro num' prefixId hmem
    rw [List.length_append, List.length_singleton]
    rcases (hchain num' prefixId).mp hmem with ⟨rfl, rfl⟩ | hmem
    · exact ⟨Nat.lt_succ_self _, front, hnew⟩
    · obtain ⟨hlt, front', hdata⟩ := h.last_mem num' prefixId hmem
      exact ⟨by omega, front', by rw [hlow prefixId hlt, hdata]⟩
  · intro prefixId hlt
    rw [List.length_append, List.length_singleton] at hlt
    rcases Nat.lt_succ_iff_lt_or_eq.mp hlt with hlt | rfl
    · rw [hlow prefixId hlt]
      exact h.used prefixId hlt
    · rw [hnew]
      exact hused

end PrefixTable

/-- The prefix is found or made, and nothing that was there changes. -/
theorem findFatherPrefix_spec (h : t.Valid adjMat size) (hi : i < size)
    (hsize : dataSize ≤ (tmpData adjMat size i).length) :
    (findFatherPrefix (tmpData adjMat size i) dataSize t).2.Valid adjMat size
      ∧ t.data <+: (findFatherPrefix (tmpData adjMat size i) dataSize t).2.data
      ∧ (findFatherPrefix (tmpData adjMat size i) dataSize t).2.data.length ≤ t.data.length + dataSize
      ∧ (dataSize = 0 ∧ (findFatherPrefix (tmpData adjMat size i) dataSize t).1 = none
        ∨ ∃ prefixId < (findFatherPrefix (tmpData adjMat size i) dataSize t).2.data.length,
          (findFatherPrefix (tmpData adjMat size i) dataSize t).1 = some prefixId
            ∧ (findFatherPrefix (tmpData adjMat size i) dataSize t).2.data.getD prefixId []
              = (tmpData adjMat size i).take dataSize) := by
  induction dataSize with
  | zero => exact ⟨h, List.prefix_rfl, by simp [findFatherPrefix], Or.inl ⟨rfl, rfl⟩⟩
  | succ dataSize ih =>
      obtain ⟨hvalid, hbegins, hlength, hfather⟩ := ih (by omega)
      rw [findFatherPrefix]
      split
      · rename_i prefixId hfound
        have hdata := List.find?_some hfound
        obtain ⟨hlt, -⟩ := h.last_mem _ prefixId (List.mem_of_find?_eq_some hfound)
        exact ⟨h, List.prefix_rfl, Nat.le_add_right _ _, Or.inr ⟨prefixId, hlt, rfl, beq_iff_eq.mp hdata⟩⟩
      · have hlt : dataSize < (tmpData adjMat size i).length := by omega
        have htake : (tmpData adjMat size i).take (dataSize + 1)
            = (tmpData adjMat size i).take dataSize ++ [(tmpData adjMat size i).getD dataSize 0] := by
          rw [List.take_succ_eq_append_getElem hlt, List.getD_eq_getElem _ _ hlt]
        generalize findFatherPrefix (tmpData adjMat size i) dataSize t = found at *
        refine ⟨?_, hbegins.trans (List.prefix_append _ _), ?_, Or.inr ⟨found.2.data.length, ?_, rfl, ?_⟩⟩
        · rw [htake]
          apply hvalid.append
          · intro x hx
            obtain ⟨k, hk, rfl⟩ := List.mem_take_iff_getElem.mp hx
            rw [List.getD_eq_getElem _ _ hlt]
            exact tmpData_sortedLT.getElem_lt_getElem_iff.mpr (by omega)
          · exact ⟨i, hi, htake ▸ List.take_prefix _ _⟩
          · rcases hfather with ⟨rfl, hnone⟩ | hsome
            · exact Or.inl ⟨rfl, hnone⟩
            · exact Or.inr hsome
        · rw [List.length_append, List.length_singleton]
          omega
        · rw [List.length_append, List.length_singleton]
          omega
        · simp

/-- The prefixes of all loops. -/
structure BuildsPrefixes (adjMat : List Char) (size : ℕ) (state : PrefixTable × List (Option ℕ)) : Prop where
  valid : state.1.Valid adjMat size
  loop : ∀ i < size, tmpData adjMat size i ≠ [] → ∃ prefixId < state.1.data.length,
    state.2.getD i none = some prefixId ∧ state.1.data.getD prefixId [] = tmpData adjMat size i
  length_le : state.1.data.length ≤ size * (size - 1) / 2

/-- Each loop gets its set, and the arrays are long enough. -/
theorem buildsPrefixes (adjMat : List Char) (size : ℕ) :
    BuildsPrefixes adjMat size (buildLoopInvariant adjMat size) := by
  let step : PrefixTable × List (Option ℕ) → ℕ → PrefixTable × List (Option ℕ) := fun state i =>
    let data := tmpData adjMat size i
    let (prefixId, table) := findFatherPrefix data data.length state.1
    (table, state.2 ++ [prefixId])
  have hrun : ∀ n, n + 1 ≤ max size 1 →
      ((List.range' 1 n).foldl step ({}, [none])).1.Valid adjMat size
      ∧ ((List.range' 1 n).foldl step ({}, [none])).2.length = n + 1
      ∧ (∀ i ≤ n, tmpData adjMat size i ≠ [] →
        ∃ prefixId < ((List.range' 1 n).foldl step ({}, [none])).1.data.length,
          ((List.range' 1 n).foldl step ({}, [none])).2.getD i none = some prefixId
            ∧ ((List.range' 1 n).foldl step ({}, [none])).1.data.getD prefixId [] = tmpData adjMat size i)
      ∧ ((List.range' 1 n).foldl step ({}, [none])).1.data.length ≤ ∑ i ∈ Finset.range (n + 1), i := by
    intro n
    induction n with
    | zero =>
        intro _
        refine ⟨PrefixTable.valid_empty, rfl, fun i hi hne => ?_, Nat.zero_le _⟩
        rw [Nat.le_zero.mp hi] at hne
        exact absurd rfl hne
    | succ n ih =>
        intro hn
        obtain ⟨hvalid, hlength, hloop, hcount⟩ := ih (by omega)
        rw [List.range'_1_concat, List.foldl_append, List.foldl_cons, List.foldl_nil, Nat.add_comm 1 n]
        generalize (List.range' 1 n).foldl step ({}, [none]) = state at *
        obtain ⟨hvalid', hbegins, hcount', hfound⟩ :=
          findFatherPrefix_spec hvalid (show n + 1 < size by omega) le_rfl
        rw [List.take_length] at hfound
        refine ⟨hvalid', by simp [step, hlength], fun i hi hne => ?_, ?_⟩
        · rcases Nat.lt_succ_iff_lt_or_eq.mp (Nat.lt_succ_of_le hi) with hlow | rfl
          · obtain ⟨prefixId, hlt, hid, hdata⟩ := hloop i (by omega) hne
            refine ⟨prefixId, lt_of_lt_of_le hlt hbegins.length_le, ?_, ?_⟩
            · exact (List.getD_append _ _ _ _ (by omega)).trans hid
            · exact (PrefixTable.getD_of_prefix hbegins hlt).trans hdata
          · rcases hfound with ⟨hzero, -⟩ | ⟨prefixId, hlt, hid, hdata⟩
            · exact absurd (List.length_eq_zero_iff.mp hzero) hne
            · refine ⟨prefixId, hlt, ?_, hdata⟩
              rw [← hid, ← hlength]
              simp [step, hlength]
        · rw [Finset.sum_range_succ]
          exact hcount'.trans (Nat.add_le_add hcount length_tmpData_le)
  rcases Nat.eq_zero_or_pos size with rfl | hpos
  · exact ⟨PrefixTable.valid_empty, fun i hi => absurd hi (Nat.not_lt_zero i), Nat.zero_le _⟩
  · obtain ⟨hvalid, -, hloop, hcount⟩ := hrun (size - 1) (by omega)
    refine ⟨hvalid, fun i hi => hloop i (by omega), ?_⟩
    rw [Finset.sum_range_id, Nat.sub_add_cancel hpos] at hcount
    exact hcount

end GraphPi

end GraphMini
