import GraphMini.Codegen.IepSets
import GraphMini.Exec.NestSpec
import GraphMini.GraphPi.Matching
import GraphMini.Lib.InclusionExclusion

/-!
# The sets of the matcher

While the vertices before a depth are placed, the set of each prefix of them holds their common neighbours.
The loop of a depth builds the sets that end with its vertex; where one of them is empty no later loop that
begins with its prefix has anything to place.
-/

namespace GraphMini

namespace GraphPi

/-! ### The operations -/

section

variable {set0 set1 : List ℕ} {val x : ℕ}

theorem intersection_sortedLT (h0 : set0.SortedLT) (h1 : set1.SortedLT) : (intersection set0 set1).SortedLT := by
  rw [intersection, intersectLoop_eq none h0 h1]
  exact SortedList.filter h0 _

theorem mem_intersection (h0 : set0.SortedLT) (h1 : set1.SortedLT) :
    x ∈ intersection set0 set1 ↔ x ∈ set0 ∧ x ∈ set1 := by
  rw [intersection, intersectLoop_eq none h0 h1]
  simp [reaches]

theorem lowerBound_eq (h0 : set0.SortedLT) (val : ℕ) :
    lowerBound set0 val = set0.countP fun x => decide (x < val) := by
  apply binarySearch_eq h0 val (Nat.zero_le _)
  · rw [Nat.zero_add]
    exact List.countP_le_length
  · exact (Nat.zero_add _).le

theorem length_intersection_le (h0 : set0.SortedLT) (h1 : set1.SortedLT) {set : List ℕ} (hsub : set0 ⊆ set) :
    (intersection set0 set1).length ≤ min set.length set1.length := by
  have hnodup := (intersection_sortedLT h0 h1).nodup
  apply le_min
  · exact (List.subperm_of_subset hnodup fun x hx => hsub ((mem_intersection h0 h1).mp hx).1).length_le
  · exact (List.subperm_of_subset hnodup fun x hx => ((mem_intersection h0 h1).mp hx).2).length_le

theorem inBuffer_of_le {capacity : ℕ} (hle : set0.length ≤ capacity) : inBuffer capacity set0 = some set0 := if_pos hle

/-- The elements up to `std::lower_bound`. -/
theorem take_lowerBound (h0 : set0.SortedLT) (val : ℕ) :
    set0.take (lowerBound set0 val) = set0.filter fun x => decide (x < val) := by
  rw [lowerBound_eq h0, SortedList.take_countP_lt h0]

theorem hasValue_iff (h0 : set0.SortedLT) : hasValue set0 val = true ↔ val ∈ set0 := by
  have hpos := lowerBound_eq h0 val
  rw [hasValue]
  simp only [Bool.and_eq_true, decide_eq_true_eq, Bool.not_eq_true', decide_eq_false_iff_not]
  constructor
  · rintro ⟨hlt, hle⟩
    rw [List.getD_eq_getElem _ _ hlt] at hle
    have hge : ¬ set0[lowerBound set0 val] < val := by
      rw [SortedList.getElem_lt_iff h0 hlt, hpos]
      exact lt_irrefl _
    have heq : val = set0[lowerBound set0 val] := by omega
    rw [heq]
    exact List.getElem_mem _
  · intro hmem
    obtain ⟨i, hi, rfl⟩ := List.mem_iff_getElem.mp hmem
    have hcount : set0.countP (fun x => decide (x < set0[i])) = i := by
      have hlow : ¬ i < set0.countP (fun x => decide (x < set0[i])) := by
        rw [← SortedList.getElem_lt_iff h0 hi]
        exact lt_irrefl _
      rcases Nat.lt_or_ge (set0.countP fun x => decide (x < set0[i])) i with hlt | hge
      · have hbefore : set0[set0.countP fun x => decide (x < set0[i])] < set0[i] :=
          h0.getElem_lt_getElem_iff.mpr hlt
        rw [SortedList.getElem_lt_iff h0] at hbefore
        exact absurd hbefore (lt_irrefl _)
      · omega
    rw [hpos, hcount, List.getD_eq_getElem _ _ hi]
    exact ⟨hi, lt_irrefl _⟩

/-- The elements of a sorted set that are not among the others. -/
theorem unorderdSubtractionSize_eq (h0 : set0.SortedLT) (h1 : set1.Nodup) :
    unorderdSubtractionSize set0 set1 = ((set0.filter fun x => decide (x ∉ set1)).length : ℤ) := by
  have hfold : ∀ ret : ℤ, set1.foldl (fun ret val => if hasValue set0 val then ret - 1 else ret) ret
      = ret - ((set0.filter fun x => decide (x ∈ set1)).length : ℤ) := by
    induction set1 with
    | nil => simp
    | cons y set1 ih =>
        intro ret
        obtain ⟨hy, h1⟩ := List.nodup_cons.mp h1
        have hsplit : (set0.filter fun x => decide (x ∈ y :: set1)).length
            = (if y ∈ set0 then 1 else 0) + (set0.filter fun x => decide (x ∈ set1)).length := by
          rw [← List.countP_eq_length_filter, ← List.countP_eq_length_filter]
          have hcount : set0.countP (fun x => decide (x = y)) = if y ∈ set0 then 1 else 0 := by
            split_ifs with hin
            · exact List.count_eq_one_of_mem h0.nodup hin
            · exact List.count_eq_zero.mpr hin
          rw [← hcount]
          clear hcount ih
          induction set0 with
          | nil => rfl
          | cons x set0 ih' =>
              have hrest := ih' (SortedList.tail h0)
              simp only [List.countP_cons, List.mem_cons, decide_eq_true_eq] at hrest ⊢
              rw [hrest]
              by_cases hxy : x = y
              · subst hxy
                simp only [true_or, if_true, if_neg hy]
                omega
              · simp only [hxy, false_or, if_false]
                omega
        rw [List.foldl_cons, ih h1, hsplit]
        by_cases hin : y ∈ set0
        · rw [if_pos ((hasValue_iff h0).mpr hin), if_pos hin]
          push_cast
          omega
        · rw [if_neg fun h => hin ((hasValue_iff h0).mp h), if_neg hin]
          push_cast
          omega
  rw [unorderdSubtractionSize, hfold]
  have hparts := List.length_eq_length_filter_add (l := set0) fun x => decide (x ∈ set1)
  have hnot : (fun x => decide (x ∉ set1)) = fun x => !decide (x ∈ set1) := by
    funext x
    simp
  rw [hnot]
  omega

end

/-! ### The sets of the prefixes -/

section

variable (g : Graph) (sc : Schedule)

/-- `x` is joined to the vertices placed for a prefix. -/
def JoinedTo (placed data : List ℕ) (x : ℕ) : Prop :=
  x < g.vCnt ∧ ∀ j ∈ data, g.toGraph.Adj (placed.getD j 0) x

/-- The set of a prefix is right. -/
def SetRight (placed : List ℕ) (vertexSet : VertexSets) (prefixId : ℕ) : Prop :=
  (vertexSet prefixId).SortedLT
    ∧ ∀ x, x ∈ vertexSet prefixId ↔ JoinedTo g placed (sc.prefixes.data.getD prefixId []) x

/-- The sets of all prefixes of the vertices before `depth` are right. -/
def SetsReady (depth : ℕ) (placed : List ℕ) (vertexSet : VertexSets) : Prop :=
  ∀ prefixId < sc.prefixes.data.length, (∀ j ∈ sc.prefixes.data.getD prefixId [], j < depth) →
    SetRight g sc placed vertexSet prefixId

/-- What the constructor and `add_restrict` make of a schedule for the matcher, and the groups of its last
vertices. -/
structure Schedule.Built (sc : Schedule) : Prop where
  connected : sc.toSchedule.Connected sc.size
  prefixes : BuildsPrefixes sc.adjMat sc.size (sc.prefixes, sc.loopSetPrefixId)
  restrictLast : ∀ a b, a ∈ sc.restrictLast b ↔ (a, b) ∈ sc.restrictPair
  restrictNone : sc.totalRestrictNum = 0 → sc.restrictPair = []
  below : Below sc.size sc.restrictPair
  groups : sc.inExclusionOptimizeNum ≠ 0 →
    InclusionExclusion.Coefficients sc.inExclusionOptimizeNum sc.inExclusionOptimizeVal
      sc.inExclusionOptimizeGroup ∧ sc.toSchedule.LastApart sc.size

end

section

variable {g : Graph} {sc : Schedule} {depth prefixId vertex : ℕ} {placed : List ℕ} {vertexSet : VertexSets}

theorem mem_row {v x : ℕ} : x ∈ g.row v ↔ g.toGraph.Adj v x := Iff.rfl

theorem joinedTo_append {data later : List ℕ} {x : ℕ} (hdata : ∀ j ∈ data, j < placed.length) :
    JoinedTo g (placed ++ later) data x ↔ JoinedTo g placed data x := by
  apply and_congr_right
  intro _
  apply forall₂_congr
  intro j hj
  rw [List.getD_append _ _ _ _ (hdata j hj)]

/-- With one vertex more the sets before it stay right. -/
theorem SetsReady.mono (hlen : placed.length = depth)
    (h : SetsReady g sc (depth + 1) (placed ++ [vertex]) vertexSet) : SetsReady g sc depth placed vertexSet := by
  intro prefixId hlt hdata
  obtain ⟨hsorted, hmem⟩ := h prefixId hlt fun j hj => (hdata j hj).trans (Nat.lt_succ_self depth)
  refine ⟨hsorted, fun x => ?_⟩
  rw [hmem, joinedTo_append fun j hj => hlen ▸ hdata j hj]

/-- Another set for a prefix that goes further changes nothing before. -/
theorem SetsReady.update (h : SetsReady g sc depth placed vertexSet) (set : List ℕ)
    (hin : depth ∈ sc.prefixes.data.getD prefixId []) :
    SetsReady g sc depth placed (Function.update vertexSet prefixId set) := by
  intro prefixId' hlt hdata
  have hne : prefixId' ≠ prefixId := by
    rintro rfl
    exact lt_irrefl depth (hdata depth hin)
  obtain ⟨hsorted, hmem⟩ := h prefixId' hlt hdata
  rw [SetRight, Function.update_of_ne hne]
  exact ⟨hsorted, hmem⟩

variable (hsc : sc.Built) (hg : g.toGraph.Valid) (hloaded : g.Loaded) (hlen : placed.length = depth)
  (hplaced : ∀ x ∈ placed, x < g.vCnt) (hvertex : vertex < g.vCnt) (hfresh : vertex ∉ placed)

include hsc

theorem mem_data_of_mem_last (hlast : prefixId ∈ sc.prefixes.last depth) :
    depth ∈ sc.prefixes.data.getD prefixId [] := by
  obtain ⟨-, front, hdata⟩ := hsc.prefixes.valid.last_mem depth prefixId hlast
  rw [hdata]
  exact List.mem_append_right _ (List.mem_singleton_self depth)

include hg hloaded hlen hplaced hvertex hfresh

/-- The set that ends with the new vertex is right, and its buffer has room for it: its elements are common
neighbours of two different vertices. -/
theorem buildVertexSet_right (h : SetsReady g sc depth placed vertexSet)
    (hlast : prefixId ∈ sc.prefixes.last depth) :
    ∃ set, buildVertexSet g sc vertexSet prefixId vertex = some set ∧ set.SortedLT
      ∧ ∀ x, x ∈ set ↔ JoinedTo g (placed ++ [vertex]) (sc.prefixes.data.getD prefixId []) x := by
  obtain ⟨hlt, front', hdata'⟩ := hsc.prefixes.valid.last_mem depth prefixId hlast
  obtain ⟨front, num, hdata, hfront, -, hfather⟩ := hsc.prefixes.valid.split prefixId hlt
  have hnum : num = depth := by
    have hsame := hdata.symm.trans hdata'
    exact List.singleton_inj.mp (List.append_inj_right' hsame rfl)
  subst hnum
  have hget : (placed ++ [vertex]).getD num 0 = vertex := by
    rw [← hlen]
    simp
  have hrow : (g.row vertex).SortedLT := hg.sorted vertex hvertex
  have hbound : ∀ x, g.toGraph.Adj vertex x → x < g.vCnt := fun x hx => hg.lt_numVertex vertex hvertex x hx
  have hsplit : ∀ x, JoinedTo g (placed ++ [vertex]) (front ++ [num]) x ↔
      (∀ j ∈ front, g.toGraph.Adj (placed.getD j 0) x) ∧ g.toGraph.Adj vertex x := by
    intro x
    simp only [JoinedTo, List.mem_append, List.mem_singleton, or_imp, forall_and, forall_eq, hget]
    constructor
    · rintro ⟨-, hbefore, hlast⟩
      refine ⟨fun j hj => ?_, hlast⟩
      have hj' := hbefore j hj
      rwa [List.getD_append _ _ _ _ (hlen.symm ▸ hfront j hj)] at hj'
    · rintro ⟨hbefore, hlast⟩
      refine ⟨hbound x hlast, fun j hj => ?_, hlast⟩
      rw [List.getD_append _ _ _ _ (hlen.symm ▸ hfront j hj)]
      exact hbefore j hj
  simp only [hdata, hsplit]
  rcases hfather with ⟨rfl, hnone⟩ | ⟨father, hfatherLt, hsome, hfatherData⟩
  · rw [buildVertexSet, hnone]
    refine ⟨_, rfl, hrow, fun x => ?_⟩
    rw [mem_row]
    simp
  · obtain ⟨hsorted, hmem⟩ := h father hfatherLt (hfatherData ▸ hfront)
    have hroom : (intersection (vertexSet father) (g.row vertex)).length ≤ g.maxIntersectionSize := by
      obtain ⟨front', num', hdata', -⟩ := hsc.prefixes.valid.split father hfatherLt
      have hnum' : num' ∈ front := by
        rw [← hfatherData, hdata']
        exact List.mem_append_right _ (List.mem_singleton_self num')
      have hin : placed.getD num' 0 ∈ placed := by
        rw [List.getD_eq_getElem _ _ (hlen.symm ▸ hfront num' hnum')]
        exact List.getElem_mem _
      have hsub : vertexSet father ⊆ g.row (placed.getD num' 0) := by
        intro x hx
        exact ((hmem x).mp hx).2 num' (hfatherData ▸ hnum')
      have hne : placed.getD num' 0 ≠ vertex := fun heq => hfresh (heq ▸ hin)
      exact (length_intersection_le hsorted hrow hsub).trans
        (hloaded.min_le _ (hplaced _ hin) vertex hvertex hne)
    rw [buildVertexSet, hsome]
    refine ⟨_, inBuffer_of_le hroom, intersection_sortedLT hsorted hrow, fun x => ?_⟩
    rw [mem_intersection hsorted hrow, hmem, hfatherData, mem_row, JoinedTo]
    constructor
    · rintro ⟨⟨-, hbefore⟩, hlast⟩
      exact ⟨hbefore, hlast⟩
    · rintro ⟨hbefore, hlast⟩
      exact ⟨⟨hbound x hlast, hbefore⟩, hlast⟩

/-- The loop over a chain makes its sets right, up to an empty one. -/
theorem buildVertexSets_spec (chain : List ℕ) (hchain : ∀ prefixId ∈ chain, prefixId ∈ sc.prefixes.last depth)
    (h : SetsReady g sc depth placed vertexSet) :
    ∃ vertexSet' isZero, buildVertexSets g sc vertex chain vertexSet = some (vertexSet', isZero)
      ∧ SetsReady g sc depth placed vertexSet'
      ∧ (∀ prefixId ∉ chain, vertexSet' prefixId = vertexSet prefixId)
      ∧ (isZero = false → ∀ prefixId ∈ chain, SetRight g sc (placed ++ [vertex]) vertexSet' prefixId)
      ∧ (isZero = true → ∃ prefixId ∈ chain,
        ∀ x, ¬ JoinedTo g (placed ++ [vertex]) (sc.prefixes.data.getD prefixId []) x) := by
  induction chain generalizing vertexSet with
  | nil => exact ⟨vertexSet, false, by simp [buildVertexSets, h]⟩
  | cons prefixId rest ih =>
      have hlast := hchain prefixId List.mem_cons_self
      obtain ⟨set, hset, hsorted, hmem⟩ := buildVertexSet_right hsc hg hloaded hlen hplaced hvertex hfresh h hlast
      have hnext := h.update set (mem_data_of_mem_last hsc hlast)
      rw [buildVertexSets, hset]
      simp only [Option.bind_eq_bind, Option.bind_some]
      by_cases hzero : set.length = 0
      · rw [if_pos hzero]
        refine ⟨_, _, rfl, hnext, fun prefixId' hnot => ?_, fun hfalse => absurd hfalse (by simp), fun _ => ?_⟩
        · exact Function.update_of_ne (List.ne_of_not_mem_cons hnot) _ _
        · refine ⟨prefixId, List.mem_cons_self, fun x hx => ?_⟩
          rw [← hmem, List.length_eq_zero_iff.mp hzero] at hx
          exact List.not_mem_nil hx
      · rw [if_neg hzero]
        obtain ⟨vertexSet', isZero, hrest, hready, hsame, hright, hempty⟩ :=
          ih (fun prefixId' hmem' => hchain prefixId' (List.mem_cons_of_mem _ hmem')) hnext
        refine ⟨vertexSet', isZero, hrest, hready, fun prefixId' hnot => ?_, fun hfalse prefixId' hmem' => ?_,
          fun htrue => ?_⟩
        · rw [hsame prefixId' fun hin => hnot (List.mem_cons_of_mem _ hin),
            Function.update_of_ne (List.ne_of_not_mem_cons hnot)]
        · by_cases hin : prefixId' ∈ rest
          · exact hright hfalse prefixId' hin
          · obtain rfl := (List.mem_cons.mp hmem').resolve_right hin
            rw [SetRight, hsame prefixId' hin, Function.update_self]
            exact ⟨hsorted, hmem⟩
        · obtain ⟨prefixId', hmem', hnone⟩ := hempty htrue
          exact ⟨prefixId', List.mem_cons_of_mem _ hmem', hnone⟩

omit hg hloaded hplaced hvertex hfresh in
/-- With all sets of its chain a vertex is placed. -/
theorem SetsReady.succ {vertexSet' : VertexSets} (h : SetsReady g sc depth placed vertexSet')
    (hright : ∀ prefixId ∈ sc.prefixes.last depth, SetRight g sc (placed ++ [vertex]) vertexSet' prefixId) :
    SetsReady g sc (depth + 1) (placed ++ [vertex]) vertexSet' := by
  intro prefixId hlt hdata
  obtain ⟨front, num, heq, hfront, hlast, -⟩ := hsc.prefixes.valid.split prefixId hlt
  rw [heq] at hdata
  have hnum : num < depth + 1 := hdata num (by simp)
  rcases Nat.lt_succ_iff_lt_or_eq.mp hnum with hlow | rfl
  · have hbefore : ∀ j ∈ sc.prefixes.data.getD prefixId [], j < depth := by
      intro j hj
      rw [heq, List.mem_append, List.mem_singleton] at hj
      rcases hj with hj | rfl
      · exact (hfront j hj).trans hlow
      · exact hlow
    obtain ⟨hsorted, hmem⟩ := h prefixId hlt hbefore
    refine ⟨hsorted, fun x => ?_⟩
    rw [hmem, joinedTo_append fun j hj => hlen ▸ hbefore j hj]
  · exact hright prefixId hlast

end

end GraphPi

end GraphMini
