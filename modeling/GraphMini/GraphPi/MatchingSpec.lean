import GraphMini.Exec.Omp
import GraphMini.GraphPi.MatchingSets

/-!
# What the matcher counts

A call of `pattern_matching_aggressive_func` adds the number of ways to place the vertices that are left,
under the restrictions of the vertices before those that are counted by inclusion and exclusion. The
induction is on the number of vertices left; the sets of the prefixes before the depth are right before and
after each call.
-/

namespace GraphMini

namespace GraphPi

open InclusionExclusion

/-- The restrictions that the loops test. The last vertices have none when they are counted by groups. -/
def Schedule.matchedRestrict (sc : Schedule) (v : ℕ) : Finset ℕ :=
  if v + sc.inExclusionOptimizeNum < sc.size then (sc.restrictLast v).toFinset else ∅

section

variable {g : Graph} {sc : Schedule} {depth d x : ℕ} {placed : List ℕ} {vertexSet : VertexSets}

theorem lt_minVertex_iff : x < minVertex g sc depth placed ↔
    x < g.vCnt ∧ ∀ a ∈ sc.restrictLast depth, x < placed.getD a 0 := by
  have hfold : ∀ (chain : List ℕ) (bound : ℕ), x < chain.foldl
      (fun minVertex i => if placed.getD i 0 < minVertex then placed.getD i 0 else minVertex) bound ↔
      x < bound ∧ ∀ a ∈ chain, x < placed.getD a 0 := by
    intro chain
    induction chain with
    | nil => simp
    | cons i chain ih =>
        intro bound
        rw [List.foldl_cons, ih, List.forall_mem_cons, ← and_assoc]
        apply and_congr_left
        intro _
        split_ifs <;> omega
  exact hfold _ _

variable (hsc : sc.Built) (hg : g.toGraph.Valid) (hd : 0 < d) (hd' : d < sc.size)

include hsc hd hd'

theorem tmpData_ne_nil : tmpData sc.adjMat sc.size d ≠ [] := by
  obtain ⟨j, hj, hmark⟩ := hsc.connected.connected d hd' hd
  exact List.ne_nil_of_mem (mem_tmpData.mpr ⟨hj, hmark⟩)

/-- The set of a loop holds the vertices joined to those placed before. -/
theorem loopSet_spec (h : SetsReady g sc depth placed vertexSet)
    (hdata : ∀ j ∈ tmpData sc.adjMat sc.size d, j < depth) :
    (loopSet sc vertexSet d).SortedLT
      ∧ ∀ x, x ∈ loopSet sc vertexSet d ↔ JoinedTo g placed (tmpData sc.adjMat sc.size d) x := by
  obtain ⟨prefixId, hlt, hid, heq⟩ := hsc.prefixes.loop d hd' (tmpData_ne_nil hsc hd hd')
  have hright := h prefixId hlt (heq.symm ▸ hdata)
  rw [SetRight, heq] at hright
  rw [loopSet, hid]
  exact hright

/-- The set of a loop is part of a row. -/
theorem length_loopSet_le (hloaded : g.Loaded) (hlen : placed.length = depth)
    (hplaced : ∀ x ∈ placed, x < g.vCnt) (h : SetsReady g sc depth placed vertexSet)
    (hdata : ∀ j ∈ tmpData sc.adjMat sc.size d, j < depth) : (loopSet sc vertexSet d).length ≤ g.maxDegree := by
  obtain ⟨hsorted, hmem⟩ := loopSet_spec hsc hd hd' h hdata
  obtain ⟨j, hj⟩ := List.exists_mem_of_ne_nil _ (tmpData_ne_nil hsc hd hd')
  have hin : placed.getD j 0 ∈ placed := by
    rw [List.getD_eq_getElem _ _ (hlen.symm ▸ hdata j hj)]
    exact List.getElem_mem _
  have hsub : loopSet sc vertexSet d ⊆ g.row (placed.getD j 0) := fun x hx => ((hmem x).mp hx).2 j hj
  exact (List.subperm_of_subset hsorted.nodup hsub).length_le.trans (hloaded.row_le _ (hplaced _ hin))

omit hsc hd' in
/-- A candidate is joined to the vertices placed, is none of them, and keeps the restrictions. -/
theorem candidate_iff (hd' : d < sc.size) {restricts : Finset ℕ} (hlen : placed.length = depth) (hle : depth ≤ d)
    (hdata : ∀ j ∈ tmpData sc.adjMat sc.size d, j < depth) (hrestricts : ∀ a ∈ restricts, a < depth) :
    Candidate .edgeInduced g.toGraph (sc.toSchedule.edge sc.size d) restricts placed depth x ↔
      JoinedTo g placed (tmpData sc.adjMat sc.size d) x ∧ x ∉ placed ∧ ∀ a ∈ restricts, x < placed.getD a 0 := by
  have hedge : ∀ j < depth, j ∈ sc.toSchedule.edge sc.size d ↔ j ∈ tmpData sc.adjMat sc.size d := by
    intro j hj
    rw [Schedule.edge, mem_toEdgeIR, mem_tmpData]
    constructor
    · rintro ⟨-, -, hmark⟩
      exact ⟨by omega, hmark⟩
    · rintro ⟨-, hmark⟩
      exact ⟨hd, by omega, hmark⟩
  have hplaced : x ∉ placed ↔ ∀ i < depth, x ≠ placed.getD i 0 := by
    constructor
    · rintro hnot i hi rfl
      apply hnot
      rw [List.getD_eq_getElem _ _ (hlen.symm ▸ hi)]
      exact List.getElem_mem _
    · intro hne hin
      obtain ⟨i, hi, rfl⟩ := List.mem_iff_getElem.mp hin
      exact hne i (hlen ▸ hi) (List.getD_eq_getElem _ _ hi).symm
  rw [Candidate, JoinedTo, hplaced, and_assoc]
  apply and_congr_right
  intro _
  constructor
  · intro h
    refine ⟨fun j hj => ?_, fun i hi => (h i hi).1, fun a ha => (h a (hrestricts a ha)).2.2.2 ha⟩
    exact (h j (hdata j hj)).2.1 ((hedge j (hdata j hj)).mpr hj)
  · rintro ⟨hjoined, hne, hkeeps⟩ i hi
    refine ⟨hne i hi, fun hin => hjoined i ((hedge i hi).mp hin), fun ht => ?_, hkeeps i⟩
    exact absurd ht (by decide)

omit hd hd' in
/-- What may be placed next is in the set of the loop. -/
theorem admissible_iff (h : SetsReady g sc depth placed vertexSet) (hlen : placed.length = depth)
    (hpos : 0 < depth) (hlt : depth < sc.size) :
    Admissible .edgeInduced g.toGraph (sc.toSchedule.edge sc.size) sc.matchedRestrict placed x ↔
      x ∈ loopSet sc vertexSet depth ∧ x ∉ placed ∧
        (depth + sc.inExclusionOptimizeNum < sc.size → x < minVertex g sc depth placed) := by
  have hdata : ∀ j ∈ tmpData sc.adjMat sc.size depth, j < depth := fun j hj => (mem_tmpData.mp hj).1
  have hbelow : ∀ a ∈ sc.matchedRestrict depth, a < depth := by
    intro a ha
    rw [Schedule.matchedRestrict] at ha
    split_ifs at ha
    · exact (hsc.below _ ((hsc.restrictLast a depth).mp (List.mem_toFinset.mp ha))).1
    · exact absurd ha (Finset.notMem_empty a)
  rw [Admissible, hlen, candidate_iff hpos hlt hlen le_rfl hdata hbelow,
    (loopSet_spec hsc hpos hlt h hdata).2]
  apply and_congr_right
  intro hjoined
  apply and_congr_right
  intro _
  rw [lt_minVertex_iff, Schedule.matchedRestrict]
  by_cases hnum : depth + sc.inExclusionOptimizeNum < sc.size
  · rw [if_pos hnum]
    simp only [List.mem_toFinset, hnum, true_implies]
    exact (and_iff_right hjoined.1).symm
  · rw [if_neg hnum]
    simp [hnum]

end

/-! ### One loop -/

section

variable {g : Graph} {sc : Schedule} {depth left : ℕ} {placed : List ℕ} {vertexSet : VertexSets}

/-- The ways to go on are added up over the vertices that may be placed next. -/
theorem extensions_succ (g : GraphMini.Graph) (edge restrict : ℕ → Finset ℕ) (left : ℕ) {l placed : List ℕ}
    (hl : l.Nodup) (hmem : ∀ x, x ∈ l ↔ Admissible .edgeInduced g edge restrict placed x) :
    (extensions .edgeInduced g edge restrict (left + 1) placed : ℤ)
      = (l.map fun x => (extensions .edgeInduced g edge restrict left (placed ++ [x]) : ℤ)).sum := by
  rw [← List.sum_toFinset _ hl, extensions, Completion.count, Nat.cast_sum]
  apply Finset.sum_congr
  · ext x
    rw [Finset.mem_filter, Finset.mem_range, List.mem_toFinset, hmem]
    exact and_iff_right_of_imp fun hadm => hadm.1
  · intro x _
    rfl

/-- Where the set of a prefix is empty its loops have nothing to place. -/
theorem extensions_eq_zero (hsc : sc.Built) {prefixId : ℕ} (hlt : prefixId < sc.prefixes.data.length)
    (hdata : ∀ j ∈ sc.prefixes.data.getD prefixId [], j < placed.length)
    {last : ℕ} (hmem : last ∈ sc.prefixes.data.getD prefixId []) (hlast : last + 1 = placed.length)
    (hleft : placed.length + left = sc.size)
    (hnone : ∀ x, ¬ JoinedTo g placed (sc.prefixes.data.getD prefixId []) x) :
    extensions .edgeInduced g.toGraph (sc.toSchedule.edge sc.size) sc.matchedRestrict left placed = 0 := by
  obtain ⟨i, hi, hbegins⟩ := hsc.prefixes.valid.used prefixId hlt
  have hafter : placed.length ≤ i := by
    have hbefore := (mem_tmpData.mp (hbegins.subset hmem)).1
    omega
  apply Completion.count_eq_zero
  intro f hf hcompletes
  have hplace := hcompletes ⟨i - placed.length, by omega⟩
  have hlength : (placed ++ (List.ofFn f).take (i - placed.length)).length = i := by
    rw [List.length_append, List.length_take, List.length_ofFn]
    omega
  rw [Admissible, hlength] at hplace
  apply hnone (f ⟨i - placed.length, by omega⟩)
  refine ⟨hplace.1, fun j hj => ?_⟩
  have hjlt := hdata j hj
  have hfits := (hplace.2 j (by omega)).2.1
  rw [List.getD_append _ _ _ _ hjlt] at hfits
  apply hfits
  rw [Schedule.edge, mem_toEdgeIR]
  exact ⟨by omega, by omega, (mem_tmpData.mp (hbegins.subset hj)).2⟩

/-- A loop adds what the calls for its vertices add. -/
theorem loopVertices_spec (amount : ℕ → ℤ) (hsc : sc.Built) (hg : g.toGraph.Valid) (hloaded : g.Loaded)
    (hlen : placed.length = depth) (hplaced : ∀ x ∈ placed, x < g.vCnt)
    {next : ℕ → VertexSets × ℤ → Option (VertexSets × ℤ)} {bound : ℕ}
    (hnext : ∀ vertex < g.vCnt, vertex ∉ placed → ∀ state : VertexSets × ℤ,
      SetsReady g sc (depth + 1) (placed ++ [vertex]) state.1 → ∃ state', next vertex state = some state'
        ∧ SetsReady g sc (depth + 1) (placed ++ [vertex]) state'.1 ∧ state'.2 = state.2 + amount vertex)
    (hzero : ∀ vertex, ∀ prefixId ∈ sc.prefixes.last depth,
      (∀ x, ¬ JoinedTo g (placed ++ [vertex]) (sc.prefixes.data.getD prefixId []) x) → amount vertex = 0)
    {l : List ℕ} (hl : l.SortedLT) (hlt : ∀ x ∈ l, x < g.vCnt) (state : VertexSets × ℤ)
    (h : SetsReady g sc depth placed state.1) :
    ∃ state', loopVertices g sc depth bound placed next l state = some state'
      ∧ SetsReady g sc depth placed state'.1
      ∧ state'.2 = state.2 + ((l.filter fun x => decide (x < bound ∧ x ∉ placed)).map amount).sum := by
  induction l generalizing state with
  | nil => exact ⟨state, rfl, h, by simp⟩
  | cons vertex rest ih =>
      have hrest := SortedList.tail hl
      have hlt' : ∀ x ∈ rest, x < g.vCnt := fun x hx => hlt x (List.mem_cons_of_mem vertex hx)
      rw [loopVertices]
      split_ifs with hbound hin
      · -- the vertices after one that reaches the bound reach it too
        have hnone : (vertex :: rest).filter (fun x => decide (x < bound ∧ x ∉ placed)) = [] := by
          rw [List.filter_eq_nil_iff]
          intro x hx
          rw [decide_eq_true_eq]
          rintro ⟨hx', -⟩
          rcases List.mem_cons.mp hx with rfl | hx
          · omega
          · have hgt := SortedList.head_lt hl hx
            omega
        rw [hnone]
        exact ⟨state, rfl, h, by simp⟩
      · rw [List.filter_cons_of_neg (by simp [hin])]
        exact ih hrest hlt' state h
      · have hvertex := hlt vertex List.mem_cons_self
        obtain ⟨vertexSet, isZero, hbuilt, hready, -, hright, hempty⟩ :=
          buildVertexSets_spec hsc hg hloaded hlen hplaced hvertex hin (sc.prefixes.last depth)
            (fun _ hmem => hmem) h
        rw [List.filter_cons_of_pos (by simp [hin]; omega), List.map_cons, List.sum_cons, hbuilt]
        simp only [Option.bind_eq_bind, Option.bind_some]
        cases isZero with
        | true =>
            obtain ⟨prefixId, hmem, hnone⟩ := hempty rfl
            rw [hzero vertex prefixId hmem hnone, zero_add]
            exact ih hrest hlt' (vertexSet, state.2) hready
        | false =>
            have hsucc := hready.succ hsc hlen (hright rfl)
            obtain ⟨next', hcall, hkeep, hadds⟩ := hnext vertex hvertex hin (vertexSet, state.2) hsucc
            obtain ⟨state', hloop, hready', hsum⟩ := ih hrest hlt' next' (hkeep.mono hlen)
            refine ⟨state', ?_, hready', ?_⟩
            · rw [if_neg Bool.false_ne_true, hcall]
              exact hloop
            · rw [hsum, hadds, add_assoc]

end

/-! ### The last vertices -/

section

variable {g : Graph} {sc : Schedule} {depth x : ℕ} {placed : List ℕ} {vertexSet : VertexSets}

/-- Everything up to a bound that has not been taken. -/
theorem countLast_eq (hsc : sc.Built) {loopData : List ℕ} (hl : loopData.SortedLT) (hlt : ∀ x ∈ loopData, x < g.vCnt)
    (hnodup : placed.Nodup) :
    countLast g sc loopData depth placed
      = ((loopData.filter fun x => decide (x < minVertex g sc depth placed ∧ x ∉ placed)).length : ℤ) := by
  have hboth : ∀ bound, (loopData.filter fun x => decide (x < bound ∧ x ∉ placed))
      = (loopData.filter fun x => decide (x < bound)).filter fun x => decide (x ∉ placed) := by
    intro bound
    rw [List.filter_filter]
    apply List.filter_congr
    intro x _
    rw [Bool.decide_and, Bool.and_comm]
  rw [countLast, hboth]
  simp only
  split_ifs with htotal hpos
  · rw [take_lowerBound hl]
    exact unorderdSubtractionSize_eq (SortedList.filter hl _) hnodup
  · have hnone : loopData.filter (fun x => decide (x < minVertex g sc depth placed)) = [] := by
      rw [lowerBound_eq hl, List.countP_eq_length_filter] at hpos
      exact List.length_eq_zero_iff.mp (by omega)
    rw [hnone]
    rfl
  · have hall : loopData.filter (fun x => decide (x < minVertex g sc depth placed)) = loopData := by
      apply List.filter_eq_self.mpr
      intro x hx
      rw [decide_eq_true_eq, lt_minVertex_iff]
      refine ⟨hlt x hx, fun a ha => ?_⟩
      have hpair := (hsc.restrictLast a depth).mp ha
      rw [hsc.restrictNone (by omega)] at hpair
      exact absurd hpair List.not_mem_nil
    rw [hall]
    exact unorderdSubtractionSize_eq hl hnodup

/-- Further sets leave in `tmp_set` what they hold too. -/
theorem foldl_intersection {ids : ℕ → Option ℕ} {tmpSet rest : List ℕ} (htmp : tmpSet.SortedLT)
    (hrest : ∀ k ∈ rest, (setOf vertexSet (ids k)).SortedLT) :
    (rest.foldl (fun tmpSet k => intersection tmpSet (setOf vertexSet (ids k))) tmpSet).SortedLT
      ∧ ∀ x, x ∈ rest.foldl (fun tmpSet k => intersection tmpSet (setOf vertexSet (ids k))) tmpSet ↔
        x ∈ tmpSet ∧ ∀ k ∈ rest, x ∈ setOf vertexSet (ids k) := by
  induction rest generalizing tmpSet with
  | nil => exact ⟨htmp, by simp⟩
  | cons k rest ih =>
      have hk := hrest k List.mem_cons_self
      obtain ⟨hsorted, hmem⟩ := ih (intersection_sortedLT htmp hk) fun k' hk' => hrest k' (List.mem_cons_of_mem k hk')
      refine ⟨hsorted, fun x => ?_⟩
      rw [List.foldl_cons, hmem, mem_intersection htmp hk, List.forall_mem_cons, and_assoc]

/-- The first two sets of a group in `tmp_set`: a set with itself is a copy. -/
theorem first_intersection {ids : ℕ → Option ℕ} {i j : ℕ} (hi : (setOf vertexSet (ids i)).SortedLT)
    (hj : (setOf vertexSet (ids j)).SortedLT) :
    ∃ first, (if ids i = ids j then setOf vertexSet (ids i)
        else intersection (setOf vertexSet (ids i)) (setOf vertexSet (ids j))) = first
      ∧ first.SortedLT ∧ (∀ x, x ∈ first ↔ x ∈ setOf vertexSet (ids i) ∧ x ∈ setOf vertexSet (ids j))
      ∧ first.length ≤ (setOf vertexSet (ids i)).length := by
  refine ⟨_, rfl, ?_⟩
  split_ifs with heq
  · rw [heq]
    exact ⟨hj, fun x => (and_self_iff).symm, le_rfl⟩
  · exact ⟨intersection_sortedLT hi hj, fun x => mem_intersection hi hj,
      (length_intersection_le hi hj (List.Subset.refl _)).trans (min_le_left _ _)⟩

/-- The set of a group holds what all of its sets hold, and `tmp_set` has room for it. -/
theorem groupSet_spec (vertexSet : VertexSets) (ids : ℕ → Option ℕ) {group : List ℕ} (hne : group ≠ [])
    (hsorted : ∀ i ∈ group, (setOf vertexSet (ids i)).SortedLT)
    (hroom : ∀ i ∈ group, (setOf vertexSet (ids i)).length ≤ g.maxDegree) :
    ∃ set, groupSet g vertexSet ids group = some set ∧ set.SortedLT
      ∧ ∀ x, x ∈ set ↔ ∀ i ∈ group, x ∈ setOf vertexSet (ids i) := by
  cases group with
  | nil => exact absurd rfl hne
  | cons i rest =>
      cases rest with
      | nil => exact ⟨_, rfl, hsorted i (by simp), by simp⟩
      | cons j rest =>
          obtain ⟨first, hfirst, hsortedFirst, hmemFirst, hlength⟩ :=
            first_intersection (hsorted i (by simp)) (hsorted j (by simp))
          have hrest : ∀ k ∈ rest, (setOf vertexSet (ids k)).SortedLT := fun k hk => hsorted k (by simp [hk])
          obtain ⟨hsorted', hmem'⟩ := foldl_intersection hsortedFirst hrest
          refine ⟨_, ?_, hsorted', fun x => ?_⟩
          · rw [groupSet, hfirst, inBuffer_of_le (hlength.trans (hroom i (by simp)))]
            rfl
          · rw [hmem', hmemFirst, List.forall_mem_cons, List.forall_mem_cons, and_assoc]

/-- The loop over the groups multiplies, also where it ends early. -/
theorem groupsVal_eq {ids : ℕ → Option ℕ} {amount : List ℕ → ℤ} {groups : List (List ℕ)}
    (hset : ∀ group ∈ groups, ∃ set, groupSet g vertexSet ids group = some set
      ∧ unorderdSubtractionSize set placed = amount group) (val : ℤ) :
    groupsVal g vertexSet ids placed groups val = some (val * (groups.map amount).prod) := by
  induction groups generalizing val with
  | nil => simp [groupsVal]
  | cons group rest ih =>
      obtain ⟨set, hgroup, hamount⟩ := hset group List.mem_cons_self
      rw [groupsVal, hgroup, List.map_cons, List.prod_cons, ← mul_assoc, ← hamount]
      simp only [Option.bind_eq_bind, Option.bind_some]
      split_ifs with hzero
      · rw [hzero, zero_mul]
      · exact ih (fun group' hmem => hset group' (List.mem_cons_of_mem group hmem)) _

/-- What a last vertex may take. -/
def lastCandidates (sc : Schedule) (vertexSet : VertexSets) (depth : ℕ) (placed : List ℕ) (j : ℕ) : Finset ℕ :=
  ((loopSet sc vertexSet (depth + j)).filter fun x => decide (x ∉ placed)).toFinset

theorem mem_lastCandidates {j : ℕ} : x ∈ lastCandidates sc vertexSet depth placed j ↔
    x ∈ loopSet sc vertexSet (depth + j) ∧ x ∉ placed := by
  rw [lastCandidates, List.mem_toFinset, List.mem_filter, decide_eq_true_eq]

variable (hsc : sc.Built) (hpos : 0 < depth) (hnum : depth + sc.inExclusionOptimizeNum = sc.size)
  (h : SetsReady g sc depth placed vertexSet)

include hsc hpos hnum h

omit hpos h in
/-- The last vertices are joined to vertices before them only. -/
theorem last_tmpData {j k : ℕ} (hj : j < sc.inExclusionOptimizeNum)
    (hk : k ∈ tmpData sc.adjMat sc.size (depth + j)) : k < depth := by
  obtain ⟨hlt, hmark⟩ := mem_tmpData.mp hk
  by_contra hge
  exact (hsc.groups (by omega)).2 (depth + j) (by omega) k (by omega) (by omega) (by omega) hmark

theorem last_sortedLT {j : ℕ} (hj : j < sc.inExclusionOptimizeNum) :
    (loopSet sc vertexSet (depth + j)).SortedLT :=
  (loopSet_spec hsc (by omega) (by omega) h fun _ hk => last_tmpData hsc hnum hj hk).1

variable (hloaded : g.Loaded) (hlen : placed.length = depth) (hplaced : ∀ x ∈ placed, x < g.vCnt)
  (hnodup : placed.Nodup) (hlast : sc.inExclusionOptimizeNum ≠ 0)

include hloaded hlen hplaced hnodup hlast

/-- The set of a block is left with the candidates that its vertices share. -/
theorem groupSet_block {group : List (List ℕ)} {block : List ℕ} (hgroup : group ∈ sc.inExclusionOptimizeGroup)
    (hblock : block ∈ group) :
    ∃ set, groupSet g vertexSet (fun i => sc.loopSetPrefixId.getD (depth + i) none) block = some set
      ∧ unorderdSubtractionSize set placed = blockSize (lastCandidates sc vertexSet depth placed) block := by
  have hlists := (hsc.groups hlast).1.lists group hgroup
  have hne := hlists.ne_nil hblock
  have hlt : ∀ i ∈ block, i < sc.inExclusionOptimizeNum := by
    intro i hi
    apply (hlists.partition.cover i).mp
    refine ⟨block.toFinset, ?_, List.mem_toFinset.mpr hi⟩
    exact List.mem_toFinset.mpr (List.mem_map.mpr ⟨block, hblock, rfl⟩)
  obtain ⟨set, heq, hsorted, hmem⟩ := groupSet_spec (g := g) vertexSet
    (fun i => sc.loopSetPrefixId.getD (depth + i) none) hne
    (fun i hi => last_sortedLT hsc hpos hnum h (hlt i hi))
    (fun i hi => length_loopSet_le hsc (by omega) (by have hi' := hlt i hi; omega) hloaded hlen hplaced h
      fun _ hk => last_tmpData hsc hnum (hlt i hi) hk)
  refine ⟨set, heq, ?_⟩
  rw [unorderdSubtractionSize_eq hsorted hnodup, blockSize, Nat.cast_inj,
    ← List.toFinset_card_of_nodup (hsorted.nodup.filter _)]
  congr 1
  ext x
  have hhead : block.headD 0 ∈ block := by
    cases block with
    | nil => exact absurd rfl hne
    | cons i rest => exact List.mem_cons_self
  have hset : ∀ i, setOf vertexSet (sc.loopSetPrefixId.getD (depth + i) none)
      = loopSet sc vertexSet (depth + i) := fun i => rfl
  rw [List.mem_toFinset, List.mem_filter, hmem, decide_eq_true_eq, Finset.mem_filter]
  simp only [mem_lastCandidates, hset]
  constructor
  · rintro ⟨hin, hnot⟩
    exact ⟨⟨hin _ hhead, hnot⟩, fun i hi => ⟨hin i hi, hnot⟩⟩
  · rintro ⟨⟨-, hnot⟩, hin⟩
    exact ⟨fun i hi => (hin i hi).1, hnot⟩

theorem countGroups_amount : countGroups g sc vertexSet depth placed
    = some (amount (lastCandidates sc vertexSet depth placed) sc.inExclusionOptimizeVal
      sc.inExclusionOptimizeGroup) := by
  have hvals : ∀ i ∈ List.range sc.inExclusionOptimizeGroup.length,
      groupsVal g vertexSet (fun i => sc.loopSetPrefixId.getD (depth + i) none) placed
        (sc.inExclusionOptimizeGroup.getD i []) (sc.inExclusionOptimizeVal.getD i 0)
      = some (sc.inExclusionOptimizeVal.getD i 0 * ((sc.inExclusionOptimizeGroup.getD i []).map
        fun block => (blockSize (lastCandidates sc vertexSet depth placed) block : ℤ)).prod) := by
    intro i hi
    have hi' := List.mem_range.mp hi
    have hgroup : sc.inExclusionOptimizeGroup.getD i [] ∈ sc.inExclusionOptimizeGroup := by
      rw [List.getD_eq_getElem _ _ hi']
      exact List.getElem_mem hi'
    exact groupsVal_eq (fun block hblock =>
      groupSet_block hsc hpos hnum h hloaded hlen hplaced hnodup hlast hgroup hblock) _
  rw [countGroups, Loop.mapM_some hvals]
  rfl

omit hloaded hplaced hnodup hlast in
/-- The last vertices are placed one by one, each on one of its candidates. -/
theorem extensions_last : extensions .edgeInduced g.toGraph (sc.toSchedule.edge sc.size) sc.matchedRestrict
    sc.inExclusionOptimizeNum placed
      = (tuples (lastCandidates sc vertexSet depth placed) sc.inExclusionOptimizeNum).card := by
  rw [extensions, ← Completion.card_completions, completions_eq_tuples]
  · intro j hj x hx
    have hsub := (loopSet_spec hsc (d := depth + j) (by omega) (by omega) h
      fun _ hk => last_tmpData hsc hnum hj hk).2 x
    exact Finset.mem_range.mpr (hsub.mp (mem_lastCandidates.mp hx).1).1
  · intro later hlater x
    have hlength : (placed ++ later).length = depth + later.length := by
      rw [List.length_append, hlen]
    have hdata : ∀ k ∈ tmpData sc.adjMat sc.size (depth + later.length), k < depth :=
      fun _ hk => last_tmpData hsc hnum hlater hk
    have hnone : sc.matchedRestrict (depth + later.length) = ∅ := by
      rw [Schedule.matchedRestrict, if_neg (by omega)]
    have hmem := (loopSet_spec hsc (d := depth + later.length) (by omega) (by omega) h hdata).2 x
    rw [Admissible, hlength, hnone, candidate_iff (by omega) (by omega) hlength le_rfl
      (fun k hk => (hdata k hk).trans_le (Nat.le_add_right _ _)) (by simp), mem_lastCandidates, hmem,
      joinedTo_append fun k hk => hlen.symm ▸ hdata k hk, List.mem_append, not_or]
    simp only [Finset.notMem_empty, false_implies, implies_true, and_true, and_assoc]

/-- The groups count the ways to place the last vertices. -/
theorem countGroups_eq : countGroups g sc vertexSet depth placed
    = some (extensions .edgeInduced g.toGraph (sc.toSchedule.edge sc.size) sc.matchedRestrict
      sc.inExclusionOptimizeNum placed : ℤ) := by
  rw [countGroups_amount hsc hpos hnum h hloaded hlen hplaced hnodup hlast, extensions_last hsc hpos hnum h hlen,
    amount_eq (hsc.groups hlast).1]

end

/-! ### All loops -/

section

variable {g : Graph} {sc : Schedule} {depth left : ℕ} {placed : List ℕ}

/-- Nothing can be placed where the set of the loop is empty. -/
theorem extensions_of_empty (hsc : sc.Built) {state : VertexSets × ℤ} (h : SetsReady g sc depth placed state.1)
    (hlen : placed.length = depth) (hpos : 0 < depth) (hlt : depth < sc.size)
    (hzero : (loopSet sc state.1 depth).length = 0) (left : ℕ) :
    (extensions .edgeInduced g.toGraph (sc.toSchedule.edge sc.size) sc.matchedRestrict (left + 1) placed : ℤ) = 0 := by
  have hnone : ∀ x, x ∈ ([] : List ℕ) ↔ Admissible .edgeInduced g.toGraph (sc.toSchedule.edge sc.size)
      sc.matchedRestrict placed x := by
    intro x
    rw [admissible_iff hsc h hlen hpos hlt, List.length_eq_zero_iff.mp hzero]
    simp
  rw [extensions_succ g.toGraph _ _ left List.nodup_nil hnone]
  rfl

/-- A loop that tests its pairs places what lies below the smallest of its bounds. -/
theorem extensions_loop (hsc : sc.Built) {state : VertexSets × ℤ} (h : SetsReady g sc depth placed state.1)
    (hlen : placed.length = depth) (hpos : 0 < depth) (hloops : depth + sc.inExclusionOptimizeNum < sc.size)
    (left : ℕ) :
    (extensions .edgeInduced g.toGraph (sc.toSchedule.edge sc.size) sc.matchedRestrict (left + 1) placed : ℤ)
      = (((loopSet sc state.1 depth).filter fun x =>
          decide (x < minVertex g sc depth placed ∧ x ∉ placed)).map fun x =>
        (extensions .edgeInduced g.toGraph (sc.toSchedule.edge sc.size) sc.matchedRestrict left
          (placed ++ [x]) : ℤ)).sum := by
  have hlt : depth < sc.size := by omega
  have hloop := loopSet_spec hsc hpos hlt h fun j hj => (mem_tmpData.mp hj).1
  apply extensions_succ g.toGraph _ _ left (hloop.1.nodup.filter _)
  intro x
  rw [admissible_iff hsc h hlen hpos hlt, List.mem_filter, decide_eq_true_eq]
  simp only [hloops, true_implies]
  tauto

/-- After a vertex that leaves the set of a prefix empty, the loop of that prefix has nothing to place. -/
theorem extensions_of_empty_prefix (hsc : sc.Built) {left vertex prefixId : ℕ} (hlen : placed.length = depth)
    (hleft : depth + (left + 1) = sc.size) (hmem : prefixId ∈ sc.prefixes.last depth)
    (hnone : ∀ x, ¬ JoinedTo g (placed ++ [vertex]) (sc.prefixes.data.getD prefixId []) x) :
    extensions .edgeInduced g.toGraph (sc.toSchedule.edge sc.size) sc.matchedRestrict left
      (placed ++ [vertex]) = 0 := by
  have hlen' : (placed ++ [vertex]).length = depth + 1 := by simp [hlen]
  obtain ⟨hprefixLt, front, heq⟩ := hsc.prefixes.valid.last_mem depth prefixId hmem
  obtain ⟨front', num, heq', hfront, -⟩ := hsc.prefixes.valid.split prefixId hprefixLt
  have hnum' : num = depth :=
    List.singleton_inj.mp (List.append_inj_right' (heq'.symm.trans heq) rfl)
  apply extensions_eq_zero hsc hprefixLt _ (mem_data_of_mem_last hsc hmem) hlen'.symm (by omega) hnone
  intro j hj
  rw [heq', List.mem_append, List.mem_singleton] at hj
  rcases hj with hj | rfl
  · have hjlt := hfront j hj
    omega
  · omega

/-- A call adds the number of ways to place the vertices that are left. -/
theorem aggressiveFunc_spec (hsc : sc.Built) (hg : g.toGraph.Valid) (hloaded : g.Loaded)
    (hroom : sc.size ≤ g.maxIntersectionSize + 1) (hlen : placed.length = depth)
    (hplaced : ∀ x ∈ placed, x < g.vCnt) (hnodup : placed.Nodup) (hpos : 0 < depth) (hleft : depth + left = sc.size)
    (hnum : depth + sc.inExclusionOptimizeNum ≤ sc.size) (hne : 0 < left) (state : VertexSets × ℤ)
    (h : SetsReady g sc depth placed state.1) :
    ∃ state', patternMatchingAggressiveFunc g sc .mpi left depth placed state = some state'
      ∧ SetsReady g sc depth placed state'.1 ∧ state'.2 = state.2
        + extensions .edgeInduced g.toGraph (sc.toSchedule.edge sc.size) sc.matchedRestrict left placed := by
  induction left generalizing depth placed state with
  | zero => exact absurd hne (lt_irrefl 0)
  | succ left ih =>
      have hlt : depth < sc.size := by omega
      have hloop := loopSet_spec hsc hpos hlt h fun j hj => (mem_tmpData.mp hj).1
      have hbound : ∀ x ∈ loopSet sc state.1 depth, x < g.vCnt := fun x hx => ((hloop.2 x).mp hx).1
      have hmpi : (if depth = 1 then Graphmpi.mpi.getLoop (loopSet sc state.1 depth)
          else loopSet sc state.1 depth) = loopSet sc state.1 depth := by
        split_ifs <;> rfl
      rw [patternMatchingAggressiveFunc]
      simp only [hmpi]
      split_ifs with hzero hgroups hlast
      · refine ⟨state, rfl, h, ?_⟩
        rw [extensions_of_empty hsc h hlen hpos hlt hzero, add_zero]
      · have hsame : left + 1 = sc.inExclusionOptimizeNum := by omega
        rw [countGroups_eq hsc hpos hgroups h hloaded hlen hplaced hnodup (by omega), hsame]
        exact ⟨_, rfl, h, rfl⟩
      · refine ⟨_, rfl, h, ?_⟩
        have hzero' : left = 0 := by omega
        subst hzero'
        have hloops : depth + sc.inExclusionOptimizeNum < sc.size := by omega
        rw [countLast_eq hsc hloop.1 hbound hnodup, extensions_loop hsc h hlen hpos hloops]
        simp [extensions, Completion.count]
      · have hloops : depth + sc.inExclusionOptimizeNum < sc.size := by omega
        rw [extensions_loop hsc h hlen hpos hloops]
        apply loopVertices_spec (fun x => (extensions .edgeInduced g.toGraph (sc.toSchedule.edge sc.size)
          sc.matchedRestrict left (placed ++ [x]) : ℤ)) hsc hg hloaded hlen hplaced _ _ hloop.1 hbound state h
        · intro vertex hvertex hfresh state' h'
          have hlen' : (placed ++ [vertex]).length = depth + 1 := by simp [hlen]
          rw [inBuffer_of_le (by omega)]
          apply ih hlen' _ _ (Nat.succ_pos depth) (by omega) (by omega) (by omega) state' h'
          · intro x hx
            rcases List.mem_append.mp hx with hx | hx
            · exact hplaced x hx
            · exact List.mem_singleton.mp hx ▸ hvertex
          · rw [List.nodup_append]
            refine ⟨hnodup, List.nodup_singleton vertex, fun x hx y hy heq => hfresh ?_⟩
            rw [← List.mem_singleton.mp hy, ← heq]
            exact hx
        · intro vertex prefixId hmem hnone
          rw [Nat.cast_eq_zero]
          exact extensions_of_empty_prefix hsc hlen hleft hmem hnone

end

/-! ### The outermost loop -/

/-- A pair that the loops test. -/
def Schedule.MatchedPair (sc : Schedule) (a b : ℕ) : Prop :=
  (a, b) ∈ sc.restrictPair ∧ b + sc.inExclusionOptimizeNum < sc.size

instance (sc : Schedule) (a b : ℕ) : Decidable (sc.MatchedPair a b) :=
  inferInstanceAs (Decidable ((a, b) ∈ sc.restrictPair ∧ b + sc.inExclusionOptimizeNum < sc.size))

section

variable {g : Graph} {sc : Schedule} {vertexSet : VertexSets} {vertex : ℕ}

/-- Before the first vertex there is no prefix. -/
theorem setsReady_zero (hsc : sc.Built) (vertexSet : VertexSets) : SetsReady g sc 0 [] vertexSet := by
  intro prefixId hlt hdata
  obtain ⟨front, num, heq, -⟩ := hsc.prefixes.valid.split prefixId hlt
  rw [heq] at hdata
  exact absurd (hdata num (by simp)) (Nat.not_lt_zero num)

variable (hsc : sc.Built) (hg : g.toGraph.Valid) (hloaded : g.Loaded) (hroom : sc.size ≤ g.maxIntersectionSize + 1)

include hsc hg hloaded

/-- The first vertex makes the sets of its prefixes. -/
theorem setsReady_one (hvertex : vertex < g.vCnt) :
    ∃ vertexSet', (sc.prefixes.last 0).foldlM (fun vertexSet prefixId =>
        (buildVertexSet g sc vertexSet prefixId vertex).map (Function.update vertexSet prefixId)) vertexSet
          = some vertexSet'
      ∧ SetsReady g sc 1 [vertex] vertexSet' := by
  have hfold : ∀ (chain : List ℕ) (vertexSet : VertexSets), (∀ prefixId ∈ chain, prefixId ∈ sc.prefixes.last 0) →
      ∃ vertexSet', chain.foldlM (fun vertexSet prefixId =>
        (buildVertexSet g sc vertexSet prefixId vertex).map (Function.update vertexSet prefixId)) vertexSet
          = some vertexSet'
        ∧ (∀ prefixId ∉ chain, vertexSet' prefixId = vertexSet prefixId)
        ∧ ∀ prefixId ∈ chain, SetRight g sc [vertex] vertexSet' prefixId := by
    intro chain
    induction chain with
    | nil => exact fun vertexSet _ => ⟨vertexSet, rfl, fun _ _ => rfl, fun _ hmem => absurd hmem List.not_mem_nil⟩
    | cons prefixId rest ih =>
        intro vertexSet hchain
        obtain ⟨set, hset, hright⟩ := @buildVertexSet_right g sc 0 prefixId vertex [] vertexSet hsc hg hloaded rfl
          (fun _ hx => absurd hx List.not_mem_nil) hvertex List.not_mem_nil (setsReady_zero hsc vertexSet)
          (hchain prefixId List.mem_cons_self)
        obtain ⟨vertexSet', hrun, hsame, hrest⟩ := ih (Function.update vertexSet prefixId set)
          fun prefixId' hmem => hchain prefixId' (List.mem_cons_of_mem _ hmem)
        refine ⟨vertexSet', ?_, fun prefixId' hnot => ?_, fun prefixId' hmem => ?_⟩
        · rw [List.foldlM_cons, hset]
          exact hrun
        · rw [hsame prefixId' fun hin => hnot (List.mem_cons_of_mem _ hin)]
          exact Function.update_of_ne (List.ne_of_not_mem_cons hnot) _ _
        · by_cases hin : prefixId' ∈ rest
          · exact hrest prefixId' hin
          · obtain rfl := (List.mem_cons.mp hmem).resolve_right hin
            rw [SetRight, hsame prefixId' hin, Function.update_self]
            exact hright
  obtain ⟨vertexSet', hrun, -, hright⟩ := hfold (sc.prefixes.last 0) vertexSet fun _ hmem => hmem
  refine ⟨vertexSet', hrun, ?_⟩
  exact @SetsReady.succ g sc 0 vertex [] hsc rfl _ (setsReady_zero hsc vertexSet') hright

include hroom

theorem matchVertex_spec (hvertex : vertex < g.vCnt) (state : VertexSets × ℤ) :
    ∃ state', matchVertex g sc .mpi state vertex = some state' ∧ state'.2 = state.2
      + extensions .edgeInduced g.toGraph (sc.toSchedule.edge sc.size) sc.matchedRestrict (sc.size - 1) [vertex] := by
  have hthree := hsc.connected.three_le
  have hnum : 1 + sc.inExclusionOptimizeNum ≤ sc.size := by
    rcases Nat.eq_zero_or_pos sc.inExclusionOptimizeNum with hzero | hpos
    · omega
    · have hlt := (hsc.groups hpos.ne').2.lt_size hsc.connected
      omega
  obtain ⟨vertexSet, hbuild, hready⟩ := @setsReady_one g sc state.1 vertex hsc hg hloaded hvertex
  obtain ⟨state', hcall, -, hadds⟩ := @aggressiveFunc_spec g sc 1 (sc.size - 1) [vertex] hsc hg hloaded hroom rfl
    (by simpa using hvertex) (List.nodup_singleton vertex) Nat.one_pos (by omega) hnum (by omega)
    (vertexSet, state.2) hready
  refine ⟨state', ?_, hadds⟩
  have hpush : inBuffer g.maxIntersectionSize [vertex] = some [vertex] := inBuffer_of_le (by
    rw [List.length_singleton]
    omega)
  rw [matchVertex, hbuild, hpush]
  exact hcall

/-- A thread adds what its vertices add. -/
theorem matchThread_eq {threads : ℕ} (schedule : ℕ → Fin threads) (thread : Fin threads) :
    matchThread g sc .mpi schedule thread = some (∑ vertex ∈ Finset.range g.vCnt with schedule vertex = thread,
      (extensions .edgeInduced g.toGraph (sc.toSchedule.edge sc.size) sc.matchedRestrict (sc.size - 1)
        [vertex] : ℤ)) := by
  have hfold : ∀ (l : List ℕ) (state : VertexSets × ℤ), (∀ vertex ∈ l, vertex < g.vCnt) →
      ∃ state', l.foldlM (matchVertex g sc .mpi) state = some state' ∧ state'.2 = state.2
        + (l.map fun vertex => (extensions .edgeInduced g.toGraph (sc.toSchedule.edge sc.size) sc.matchedRestrict
          (sc.size - 1) [vertex] : ℤ)).sum := by
    intro l
    induction l with
    | nil => exact fun state _ => ⟨state, rfl, by simp⟩
    | cons vertex l ih =>
        intro state hl
        obtain ⟨next, hnext, hadds⟩ := matchVertex_spec hsc hg hloaded hroom (hl vertex List.mem_cons_self) state
        obtain ⟨state', hrun, hsum⟩ := ih next fun v hv => hl v (List.mem_cons_of_mem vertex hv)
        refine ⟨state', ?_, ?_⟩
        · rw [List.foldlM_cons, hnext]
          exact hrun
        · rw [hsum, hadds, List.map_cons, List.sum_cons, add_assoc]
  obtain ⟨state', hrun, hsum⟩ := hfold ((List.range g.vCnt).filter fun vertex => schedule vertex = thread)
    (fun _ => [], 0) fun vertex hvertex => List.mem_range.mp (List.mem_filter.mp hvertex).1
  rw [matchThread, hrun, Option.map_some, hsum, zero_add, ← List.sum_toFinset _ (List.nodup_range.filter _)]
  congr 1
  apply Finset.sum_congr _ fun _ _ => rfl
  ext vertex
  simp

/-- The matcher counts the maps of the pattern that keep the pairs of the loops, on any number of threads
and however they share the vertices. -/
theorem patternMatching_eq {threads : ℕ} (schedule : ℕ → Fin threads) :
    patternMatching g sc .mpi schedule = if sc.inExclusionOptimizeRedundancy = 0 then none
      else some ((longLong ((maps .edgeInduced g.toGraph sc.size sc.toSchedule).filter
        (Obeys sc.MatchedPair)).card).tdiv sc.inExclusionOptimizeRedundancy) := by
  let amount : ℕ → ℤ := fun vertex => extensions .edgeInduced g.toGraph (sc.toSchedule.edge sc.size)
    sc.matchedRestrict (sc.size - 1) [vertex]
  have hthree := hsc.connected.three_le
  have hbelow : ∀ v < sc.size, ∀ i ∈ sc.matchedRestrict v, i < v := by
    intro v hv i hi
    rw [Schedule.matchedRestrict] at hi
    split_ifs at hi
    · exact (hsc.below _ ((hsc.restrictLast i v).mp (List.mem_toFinset.mp hi))).1
    · exact absurd hi (Finset.notMem_empty i)
  have hpairs : ∀ a b : ℕ, a ∈ sc.matchedRestrict b ↔ sc.MatchedPair a b := by
    intro a b
    rw [Schedule.matchedRestrict, Schedule.MatchedPair]
    split_ifs with hlt
    · rw [List.mem_toFinset, hsc.restrictLast]
      exact (and_iff_left hlt).symm
    · simp [hlt]
  have hsum : ((List.finRange threads).map fun thread =>
      ∑ vertex ∈ Finset.range g.vCnt with schedule vertex = thread, amount vertex).sum
        = ((maps .edgeInduced g.toGraph sc.size sc.toSchedule).filter (Obeys sc.MatchedPair)).card := by
    calc _ = ∑ thread, ∑ vertex ∈ Finset.range g.vCnt with schedule vertex = thread, amount vertex :=
          (Fin.sum_univ_def _).symm
      _ = ∑ vertex ∈ Finset.range g.vCnt, amount vertex := Finset.sum_fiberwise _ _ _
      _ = ((List.range g.toGraph.numVertex).map amount).sum := by
          rw [← List.sum_toFinset _ List.nodup_range, List.toFinset_range]
          rfl
      _ = (extensions .edgeInduced g.toGraph (sc.toSchedule.edge sc.size) sc.matchedRestrict sc.size [] : ℤ) :=
          sum_extensions_eq (g := g.toGraph) (by omega)
      _ = _ := by
          rw [← card_maps hsc.connected hg hbelow]
          congr 2
          apply Finset.filter_congr
          intro f _
          exact obeys_congr fun a b => hpairs a b
  rw [patternMatching, Loop.mapM_some fun thread _ => matchThread_eq hsc hg hloaded hroom schedule thread, ← hsum]
  rfl

/-- The number itself, where it is not divided and not too large. -/
theorem patternMatching_of_one {threads : ℕ} (schedule : ℕ → Fin threads)
    (hone : sc.inExclusionOptimizeRedundancy = 1) {n : ℕ}
    (hcard : ((maps .edgeInduced g.toGraph sc.size sc.toSchedule).filter (Obeys sc.MatchedPair)).card = n)
    (hn : n < 2 ^ 63) : patternMatching g sc .mpi schedule = some (n : ℤ) := by
  rw [patternMatching_eq hsc hg hloaded hroom, hone, if_neg one_ne_zero, Int.tdiv_one, hcard,
    longLong_natCast_iff.mpr hn]

end

/-! ### The stubs -/

section

variable {g : Graph} {sc : Schedule} (hprefixes : BuildsPrefixes sc.adjMat sc.size (sc.prefixes, sc.loopSetPrefixId))

include hprefixes

/-- The sets that end with the first vertex are rows. -/
theorem buildVertexSet_first {prefixId vertex : ℕ} (vertexSet : VertexSets) (hlast : prefixId ∈ sc.prefixes.last 0) :
    buildVertexSet g sc vertexSet prefixId vertex = some (g.row vertex) := by
  obtain ⟨hlt, front', hdata'⟩ := hprefixes.valid.last_mem 0 prefixId hlast
  obtain ⟨front, num, hdata, hfront, -, hfather⟩ := hprefixes.valid.split prefixId hlt
  have hnum : num = 0 := List.singleton_inj.mp (List.append_inj_right' (hdata.symm.trans hdata') rfl)
  have hnil : front = [] := List.eq_nil_iff_forall_not_mem.mpr fun j hj => by
    have hlow := hfront j hj
    omega
  rcases hfather with ⟨-, hnone⟩ | ⟨father, hfatherLt, -, hfatherData⟩
  · rw [buildVertexSet, hnone]
  · obtain ⟨front'', num', heq, -⟩ := hprefixes.valid.split father hfatherLt
    rw [hfatherData, hnil] at heq
    simp at heq

/-- With the stubs the loop at depth 1 has nothing to run over. -/
theorem matchVertex_stubs (hthree : 3 ≤ sc.size) (hnum : sc.inExclusionOptimizeNum + 1 < sc.size)
    (hroom : 0 < g.maxIntersectionSize) (state : VertexSets × ℤ) (vertex : ℕ) :
    ∃ vertexSet, matchVertex g sc .stubs state vertex = some (vertexSet, state.2) := by
  have hfold : ∀ (chain : List ℕ) (vertexSet : VertexSets), (∀ prefixId ∈ chain, prefixId ∈ sc.prefixes.last 0) →
      ∃ vertexSet', chain.foldlM (fun vertexSet prefixId =>
        (buildVertexSet g sc vertexSet prefixId vertex).map (Function.update vertexSet prefixId)) vertexSet
          = some vertexSet' := by
    intro chain
    induction chain with
    | nil => exact fun vertexSet _ => ⟨vertexSet, rfl⟩
    | cons prefixId rest ih =>
        intro vertexSet hchain
        rw [List.foldlM_cons, buildVertexSet_first hprefixes vertexSet (hchain prefixId List.mem_cons_self)]
        exact ih _ fun prefixId' hmem => hchain prefixId' (List.mem_cons_of_mem _ hmem)
  obtain ⟨vertexSet, hbuild⟩ := hfold (sc.prefixes.last 0) state.1 fun _ hmem => hmem
  have hpush : inBuffer g.maxIntersectionSize [vertex] = some [vertex] := inBuffer_of_le hroom
  obtain ⟨left, hleft⟩ : ∃ left, sc.size - 1 = left + 1 := ⟨sc.size - 2, by omega⟩
  refine ⟨vertexSet, ?_⟩
  rw [matchVertex, hbuild, hpush]
  simp only [Option.bind_eq_bind, Option.bind_some]
  rw [hleft, patternMatchingAggressiveFunc]
  simp only [Graphmpi.getLoop, if_true, loopVertices]
  split_ifs
  · rfl
  · omega
  · omega
  · rfl

/-- With the stubs nothing is counted. -/
theorem patternMatching_stubs (hthree : 3 ≤ sc.size) (hnum : sc.inExclusionOptimizeNum + 1 < sc.size)
    (hroom : 0 < g.maxIntersectionSize) (hone : sc.inExclusionOptimizeRedundancy = 1) {threads : ℕ}
    (schedule : ℕ → Fin threads) : patternMatching g sc .stubs schedule = some 0 := by
  have hfold : ∀ (l : List ℕ) (state : VertexSets × ℤ),
      ∃ vertexSet, l.foldlM (matchVertex g sc .stubs) state = some (vertexSet, state.2) := by
    intro l
    induction l with
    | nil => exact fun state => ⟨state.1, rfl⟩
    | cons vertex l ih =>
        intro state
        obtain ⟨vertexSet, hvertex⟩ := matchVertex_stubs hprefixes hthree hnum hroom state vertex
        rw [List.foldlM_cons, hvertex]
        exact ih (vertexSet, state.2)
  have hthread : ∀ thread ∈ List.finRange threads, matchThread g sc .stubs schedule thread = some 0 := by
    intro thread _
    obtain ⟨vertexSet, hrun⟩ := hfold ((List.range g.vCnt).filter fun vertex => schedule vertex = thread)
      (fun _ => [], 0)
    rw [matchThread, hrun]
    rfl
  rw [patternMatching, Loop.mapM_some hthread, hone]
  simp [longLong]

end

end GraphPi

end GraphMini
