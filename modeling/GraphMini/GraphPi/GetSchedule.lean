import GraphMini.GraphPi.Generate
import GraphMini.GraphPi.InExclusion
import GraphMini.GraphPi.Orders

/-!
# The schedule of a pattern

`Schedule::get_schedule`: of the orders that are tried and the sets of pairs that are kept for each, the
first with the lowest estimate. The estimates are floating point numbers, so they and the comparison of two
of them are parameters. What follows is the same for any of them: the pairs are of the matrix in the order
that was chosen, the last vertices are counted by inclusion and exclusion where two or more may be, and the
redundancy is the one that the matcher counts on a complete graph. That holds for up to twelve vertices: from
13 on the number of the orders is none that the assertion accepts.
-/

namespace GraphMini

namespace GraphPi

open Equiv SymmetryBreaking

variable {α : Type}

/-- `min_val`, `best_order` and `best_pairs`, once there is a best. -/
abbrev Best (α : Type) := Option (α × List ℕ × List (ℕ × ℕ))

section

variable (estimate : List ℕ → List (ℕ × ℕ) → α) (less : α → α → Bool)

def tryPairs (vec : List ℕ) (best : Best α) (pairs : List (ℕ × ℕ)) : Best α :=
  let val := estimate vec pairs
  match best with
  | none => some (val, vec, pairs)
  | some (minVal, _) => if less val minVal then some (val, vec, pairs) else best

/-- The sets of pairs for one order. An order without any is tried with no pairs. -/
def tryOrder (library : Graphmpi) (adjMat : List Char) (size : ℕ) (best : Best α) (vec : List ℕ) :
    Option (Best α) := do
  let restrictsVector ← restrictsGenerate library (reorder adjMat size vec) size
  let best := if restrictsVector.length = 0 then tryPairs estimate less vec best [] else best
  some (restrictsVector.foldl (tryPairs estimate less vec) best)

/-- `init_in_exclusion_optimize` -/
def Schedule.initInExclusionOptimize (sc : Schedule) : Option Schedule :=
  (GraphPi.initInExclusionOptimize sc.inExclusionOptimizeNum).map fun groups =>
    { sc with
      inExclusionOptimizeGroup := groups.1
      inExclusionOptimizeVal := groups.2 }

/-- The number is one less until the redundancy is known. -/
def Schedule.setInExclusionOptimize (sc : Schedule) : Option Schedule :=
  let num := getVecOptimizeNum sc.adjMat sc.size (List.range sc.size)
  if num ≤ 1 then some { sc with inExclusionOptimizeNum := 0 }
  else ({ sc with inExclusionOptimizeNum := (num - 1).toNat }).initInExclusionOptimize

/-- `ans / true_ans`, the second with `set_in_exclusion_optimize_num(0)`. -/
def Schedule.countRedundancy (library : Graphmpi) (sc : Schedule) (complete : Graph) : Option ℤ := do
  let sc := { sc with inExclusionOptimizeRedundancy := 1 }
  let ans ← patternMatching complete sc library oneThread
  let trueAns ← patternMatching complete { sc with inExclusionOptimizeNum := 0 } library oneThread
  some (if trueAns ≠ 0 then ans.tdiv trueAns else 1)

/-- The end of `get_schedule`. -/
def Schedule.setRedundancy (library : Graphmpi) (sc : Schedule) : Option Schedule :=
  let tmp := sc.inExclusionOptimizeNum
  if tmp = 0 then some { sc with inExclusionOptimizeRedundancy := 1 }
  else do
    let complete ← loadComplete sc.size
    let redundancy ← sc.countRedundancy library complete
    let sc ← ({ sc with inExclusionOptimizeNum := tmp + 1 }).initInExclusionOptimize
    some { sc with inExclusionOptimizeRedundancy := redundancy }

/-- `get_schedule`. Without an order to try `best_order` is not set. -/
def getSchedule (library : Graphmpi) (adjMat : List Char) (size : ℕ) : Option Schedule := do
  guard (ordersCounted size)
  let best ← (candidatePermutations adjMat size).foldlM (tryOrder estimate less library adjMat size) none
  let (_, bestOrder, bestPairs) ← best
  let sc ← (Schedule.ofMat (reorder adjMat size bestOrder) size).setInExclusionOptimize
  (sc.addRestrict bestPairs).setRedundancy library

end

/-! ### The search -/

section

variable {estimate : List ℕ → List (ℕ × ℕ) → α} {less : α → α → Bool} {library : Graphmpi} {adjMat : List Char}
  {size : ℕ}

/-- The pairs are those of a set that is kept for the order, or none where no set is. -/
def PairsOf (library : Graphmpi) (adjMat : List Char) (size : ℕ) (order : List ℕ) (pairs : List (ℕ × ℕ)) : Prop :=
  ∃ kept, restrictsGenerate library (reorder adjMat size order) size = some kept
    ∧ (pairs ∈ kept ∨ kept = [] ∧ pairs = [])

/-- The best so far is one of those that were tried. -/
def Tried (library : Graphmpi) (adjMat : List Char) (size : ℕ) (orders : List (List ℕ)) : Best α → Prop
  | none => orders = []
  | some (_, order, pairs) => order ∈ orders ∧ PairsOf library adjMat size order pairs

variable (estimate less) in
theorem tryPairs_spec (vec : List ℕ) (best : Best α) (pairs : List (ℕ × ℕ)) :
    ∃ val, tryPairs estimate less vec best pairs = some (val, vec, pairs)
      ∨ (best ≠ none ∧ tryPairs estimate less vec best pairs = best) := by
  cases best with
  | none => exact ⟨_, Or.inl rfl⟩
  | some found =>
      rw [tryPairs]
      split_ifs
      · exact ⟨_, Or.inl rfl⟩
      · exact ⟨found.1, Or.inr ⟨Option.some_ne_none found, rfl⟩⟩

variable {P : List ℕ → List (ℕ × ℕ) → Prop} {vec : List ℕ} {best : Best α}

variable (estimate less) in
/-- Of what is tried something is the best so far. -/
theorem foldl_tryPairs_spec {rest : List (List (ℕ × ℕ))} (hrest : ∀ pairs ∈ rest, P vec pairs)
    (hbest : ∀ found ∈ best, P found.2.1 found.2.2) :
    (∀ found ∈ rest.foldl (tryPairs estimate less vec) best, P found.2.1 found.2.2)
      ∧ (rest ≠ [] ∨ best ≠ none → rest.foldl (tryPairs estimate less vec) best ≠ none) := by
  induction rest generalizing best with
  | nil => exact ⟨hbest, fun hsome => hsome.resolve_left (by simp)⟩
  | cons pairs rest ih =>
      have hnext : tryPairs estimate less vec best pairs ≠ none
          ∧ ∀ found ∈ tryPairs estimate less vec best pairs, P found.2.1 found.2.2 := by
        obtain ⟨value, hnew | ⟨hne, hsame⟩⟩ := tryPairs_spec estimate less vec best pairs
        · rw [hnew]
          refine ⟨Option.some_ne_none _, fun found hfound => ?_⟩
          obtain rfl := Option.some.inj hfound
          exact hrest pairs List.mem_cons_self
        · rw [hsame]
          exact ⟨hne, hbest⟩
      obtain ⟨hall, hsome⟩ := ih (fun p hp => hrest p (List.mem_cons_of_mem pairs hp)) hnext.2
      exact ⟨hall, fun _ => hsome (Or.inr hnext.1)⟩

variable (estimate less) in
/-- With one order more there is a best, also where the order has no set of pairs. -/
theorem tryAll_spec {restricts : List (List (ℕ × ℕ))}
    (hrestricts : ∀ pairs, (pairs ∈ restricts ∨ restricts = [] ∧ pairs = []) → P vec pairs)
    (hbest : ∀ found ∈ best, P found.2.1 found.2.2) :
    ∃ found, restricts.foldl (tryPairs estimate less vec)
        (if restricts.length = 0 then tryPairs estimate less vec best [] else best) = some found
      ∧ P found.2.1 found.2.2 := by
  have hspec : (∀ found ∈ restricts.foldl (tryPairs estimate less vec)
        (if restricts.length = 0 then tryPairs estimate less vec best [] else best), P found.2.1 found.2.2)
      ∧ restricts.foldl (tryPairs estimate less vec)
        (if restricts.length = 0 then tryPairs estimate less vec best [] else best) ≠ none := by
    split_ifs with hempty
    · rw [List.length_eq_zero_iff] at hempty
      subst hempty
      have hnone : ∀ pairs ∈ [[]], P vec pairs :=
        fun pairs hpairs => hrestricts pairs (Or.inr ⟨rfl, List.mem_singleton.mp hpairs⟩)
      obtain ⟨hall, hne⟩ := foldl_tryPairs_spec estimate less hnone hbest
      exact ⟨hall, hne (Or.inl (by simp))⟩
    · obtain ⟨hall, hne⟩ := foldl_tryPairs_spec estimate less
        (fun pairs hpairs => hrestricts pairs (Or.inl hpairs)) hbest
      exact ⟨hall, hne (Or.inl fun heq => hempty (List.length_eq_zero_iff.mpr heq))⟩
  obtain ⟨found, hfound⟩ := Option.ne_none_iff_exists'.mp hspec.2
  exact ⟨found, hfound, hspec.1 found hfound⟩

/-- Of the orders that are tried something is the best. -/
theorem foldlM_best_spec {step : Best α → List ℕ → Option (Best α)} {orders : List (List ℕ)}
    (hstep : ∀ vec ∈ orders, ∀ best : Best α, (∀ found ∈ best, P found.2.1 found.2.2) →
      ∃ found, step best vec = some (some found) ∧ P found.2.1 found.2.2)
    (hbest : ∀ found ∈ best, P found.2.1 found.2.2) :
    ∃ best', orders.foldlM step best = some best' ∧ (∀ found ∈ best', P found.2.1 found.2.2)
      ∧ (orders ≠ [] ∨ best ≠ none → best' ≠ none) := by
  induction orders generalizing best with
  | nil => exact ⟨best, rfl, hbest, fun hsome => hsome.resolve_left (by simp)⟩
  | cons vec orders ih =>
      obtain ⟨found, hfound, hP⟩ := hstep vec List.mem_cons_self best hbest
      have hnext : ∀ found' ∈ some found, P found'.2.1 found'.2.2 := by
        intro found' hmem
        obtain rfl := Option.some.inj hmem
        exact hP
      obtain ⟨best', hfold, hall, hne⟩ := ih (fun v hv => hstep v (List.mem_cons_of_mem vec hv)) hnext
      refine ⟨best', ?_, hall, fun _ => hne (Or.inr (Option.some_ne_none found))⟩
      rw [List.foldlM_cons, hfound]
      exact hfold

variable (estimate less) in
/-- All orders have been tried. -/
theorem tried_search {orders : List (List ℕ)}
    (hkept : ∀ vec ∈ orders, ∃ kept, restrictsGenerate library (reorder adjMat size vec) size = some kept) :
    ∃ best, orders.foldlM (tryOrder estimate less library adjMat size) none = some best
      ∧ Tried library adjMat size orders best := by
  let P : List ℕ → List (ℕ × ℕ) → Prop := fun order pairs => order ∈ orders ∧ PairsOf library adjMat size order pairs
  have hstep : ∀ vec ∈ orders, ∀ best : Best α, (∀ found ∈ best, P found.2.1 found.2.2) →
      ∃ found, tryOrder estimate less library adjMat size best vec = some (some found) ∧ P found.2.1 found.2.2 := by
    intro vec hvec best hbest
    obtain ⟨kept, hvec'⟩ := hkept vec hvec
    obtain ⟨found, hfound, hP⟩ := tryAll_spec estimate less
      (fun pairs hpairs => (⟨hvec, kept, hvec', hpairs⟩ : P vec pairs)) hbest
    refine ⟨found, ?_, hP⟩
    rw [tryOrder, hvec', ← hfound]
    rfl
  have hnone : ∀ found ∈ (none : Best α), P found.2.1 found.2.2 :=
    fun found hmem => absurd hmem (Option.not_mem_none found)
  obtain ⟨best, hsearch, hall, hne⟩ := foldlM_best_spec hstep hnone
  refine ⟨best, hsearch, ?_⟩
  cases best with
  | none =>
      by_contra horders
      exact hne (Or.inl horders) rfl
  | some found => exact hall found rfl

end

/-! ### The schedule that is built -/

section

variable {sc : Schedule} {adjMat : List Char} {size : ℕ} {σ : Perm (Fin size)}

/-- What the planner asks of the matrix. -/
theorem connected_of_adjMat {sc sc' : GraphMini.Schedule} (h : sc.Connected size) (heq : sc'.adjMat = sc.adjMat) :
    sc'.Connected size := by
  obtain ⟨hthree, hmax, hlength, hsymm, hloopless, hconnected⟩ := h
  rw [← heq] at hlength hsymm hloopless hconnected
  exact ⟨hthree, hmax, hlength, hsymm, hloopless, hconnected⟩

/-- In a valid order the matrix of a pattern is one that the planner can work with. -/
theorem connected_reorder (hpattern : IsPattern adjMat size) (hvalid : ValidOrder adjMat σ)
    {sc : GraphMini.Schedule} (heq : sc.adjMat = reorder adjMat size (vecOf σ)) : sc.Connected size := by
  have hmarked : ∀ (i : ℕ) (hi : i < size) (j : ℕ) (hj : j < size),
      marked size sc.adjMat i j ↔ marked size adjMat (σ ⟨i, hi⟩) (σ ⟨j, hj⟩) := by
    intro i hi j hj
    rw [heq]
    exact marked_reorder ⟨i, hi⟩ ⟨j, hj⟩
  constructor
  · exact hpattern.three_le
  · exact hpattern.le_maxSize
  · rw [heq, length_reorder]
  · intro i hi j hj hmark
    rw [hmarked j hj i hi]
    exact hpattern.symm _ (σ _).isLt _ (σ _).isLt ((hmarked i hi j hj).mp hmark)
  · intro i hi hmark
    exact hpattern.loopless _ (σ _).isLt ((hmarked i hi i hi).mp hmark)
  · intro i hi hpos
    obtain ⟨j, hj, hmark⟩ := hvalid ⟨i, hi⟩ hpos
    exact ⟨j, hj, (hmarked i hi j (j.isLt)).mpr hmark⟩

/-- The number of the last vertices, their groups and the redundancy may be set anew. -/
theorem Schedule.Built.setInExclusion (h : sc.Built) {num : ℕ} {group : List (List (List ℕ))} {val : List ℤ}
    {redundancy : ℤ} (hgroups : num ≠ 0 → InclusionExclusion.Coefficients num val group
      ∧ ({ sc with inExclusionOptimizeNum := num } : Schedule).LastApart sc.size) :
    ({ sc with
      inExclusionOptimizeNum := num
      inExclusionOptimizeGroup := group
      inExclusionOptimizeVal := val
      inExclusionOptimizeRedundancy := redundancy } : Schedule).Built where
  connected := connected_of_adjMat h.connected rfl
  prefixes := h.prefixes
  restrictLast := h.restrictLast
  restrictNone := h.restrictNone
  below := h.below
  groups := hgroups

theorem lastApart_mono {num num' : ℕ} (hle : num' ≤ num)
    (h : ({ sc with inExclusionOptimizeNum := num } : Schedule).LastApart size) :
    ({ sc with inExclusionOptimizeNum := num' } : Schedule).LastApart size := by
  intro i hi j hj hilast hjlast
  simp only at hilast hjlast
  exact h i hi j hj (hilast.trans (Nat.add_le_add_left hle i)) (hjlast.trans (Nat.add_le_add_left hle j))

/-- On the complete graph with the vertices of the pattern the matcher counts orderings. -/
theorem patternMatching_orderings (sc : Schedule) (hbuilt : sc.Built) (hsize : sc.size ≤ 12)
    (hone : sc.inExclusionOptimizeRedundancy = 1) {complete : Graph} (hload : loadComplete sc.size = some complete) :
    patternMatching complete sc .mpi oneThread
      = some ((Schedule.orderings sc.size sc.MatchedPair).card : ℤ) := by
  have hthree := hbuilt.connected.three_le
  obtain ⟨g, hg, hvertices, hvalid, hadj, hloaded, hroom⟩ := loadComplete_spec (n := sc.size) (by omega) (by omega)
  obtain rfl := Option.some_injective _ (hg.symm.trans hload)
  have hcard : ((maps .edgeInduced g.toGraph sc.size sc.toSchedule).filter (Obeys sc.MatchedPair)).card
      = (Schedule.orderings sc.size sc.MatchedPair).card := by
    rw [card_maps_complete _ hbuilt.connected hvertices hadj, card_orderings]
  have hfew : (Schedule.orderings sc.size sc.MatchedPair).card < 2 ^ 63 := by
    calc _ ≤ sc.size.factorial := card_orderings_le _
      _ ≤ Nat.factorial 12 := Nat.factorial_le hsize
      _ < 2 ^ 63 := by decide
  exact patternMatching_of_one hbuilt hvalid hloaded (by omega) oneThread hone hcard hfew

theorem orderings_congr {pair pair' : ℕ → ℕ → Prop} [∀ a b, Decidable (pair a b)]
    [∀ a b, Decidable (pair' a b)] (h : ∀ a b : Fin size, pair a b ↔ pair' a b) :
    Schedule.orderings size pair = Schedule.orderings size pair' := by
  ext σ
  rw [mem_orderings, mem_orderings]
  exact obeys_congr h

/-- The redundancy is about the pairs and the number of the last vertices. -/
theorem redundancy_congr {sc sc' : GraphMini.Schedule} (hpairs : sc.restrictPair = sc'.restrictPair)
    (hnum : sc.inExclusionOptimizeNum = sc'.inExclusionOptimizeNum) :
    sc.redundancy size = sc'.redundancy size := by
  have hcounted : Schedule.orderings size (sc.CountedPair size) = Schedule.orderings size (sc'.CountedPair size) := by
    apply orderings_congr
    intro a b
    rw [Schedule.CountedPair, Schedule.CountedPair, hpairs, hnum]
  have hall : Schedule.orderings size sc.Pair = Schedule.orderings size sc'.Pair := by
    apply orderings_congr
    intro a b
    rw [Schedule.Pair, Schedule.Pair, hpairs]
  rw [Schedule.redundancy, Schedule.redundancy, hcounted, hall]

/-- Without vertices for inclusion and exclusion the redundancy is one. -/
theorem redundancy_of_zero {sc : GraphMini.Schedule} (hzero : sc.inExclusionOptimizeNum = 0) :
    sc.redundancy size = 1 := by
  have hsame : Schedule.orderings size (sc.CountedPair size) = Schedule.orderings size sc.Pair := by
    apply orderings_congr
    intro a b
    rw [Schedule.CountedPair, Schedule.Pair, hzero, Nat.add_zero]
    exact and_iff_left b.isLt.le
  rw [Schedule.redundancy, hsame]
  split_ifs with hne
  · exact Nat.div_self (Nat.pos_of_ne_zero hne)
  · rfl

/-- The two counts behind the redundancy. -/
theorem patternMatching_counts (hbuilt : sc.Built) (hsize : sc.size ≤ 12) {complete : Graph}
    (hload : loadComplete sc.size = some complete) :
    patternMatching complete { sc with inExclusionOptimizeRedundancy := 1 } .mpi oneThread
        = some ((Schedule.orderings sc.size sc.MatchedPair).card : ℤ)
      ∧ patternMatching complete { sc with inExclusionOptimizeRedundancy := 1, inExclusionOptimizeNum := 0 } .mpi
        oneThread = some ((Schedule.orderings sc.size sc.Pair).card : ℤ) := by
  have hans := patternMatching_orderings { sc with inExclusionOptimizeRedundancy := 1 }
    (hbuilt.setInExclusion hbuilt.groups) hsize rfl hload
  have htrue := patternMatching_orderings
    { sc with inExclusionOptimizeRedundancy := 1, inExclusionOptimizeNum := 0 }
    (hbuilt.setInExclusion fun h => absurd rfl h) hsize rfl hload
  have hall : Schedule.orderings sc.size
      ({ sc with inExclusionOptimizeRedundancy := 1, inExclusionOptimizeNum := 0 } : Schedule).MatchedPair
        = Schedule.orderings sc.size sc.Pair := by
    apply orderings_congr
    intro a b
    exact and_iff_left b.isLt
  exact ⟨hans, htrue.trans (congrArg (fun orderings => some (orderings.card : ℤ)) hall)⟩

/-- With the library the redundancy is that of one vertex more. -/
theorem countRedundancy_mpi (hbuilt : sc.Built) (hsize : sc.size ≤ 12) {complete : Graph}
    (hload : loadComplete sc.size = some complete) :
    sc.countRedundancy .mpi complete = some
      (({ sc with inExclusionOptimizeNum := sc.inExclusionOptimizeNum + 1 } : Schedule).redundancy sc.size : ℤ) := by
  obtain ⟨hans, htrue⟩ := patternMatching_counts hbuilt hsize hload
  have hcounted : Schedule.orderings sc.size sc.MatchedPair
      = Schedule.orderings sc.size
        (({ sc with inExclusionOptimizeNum := sc.inExclusionOptimizeNum + 1 } : Schedule).CountedPair sc.size) := by
    apply orderings_congr
    intro a b
    exact Iff.rfl
  rw [Schedule.countRedundancy]
  simp only
  rw [hans, htrue, hcounted]
  simp only [Schedule.redundancy, Option.bind_eq_bind, Option.bind_some, Nat.cast_ne_zero]
  rw [Nat.cast_ite]
  rfl

/-- With the stubs nothing is counted. -/
theorem countRedundancy_stubs (hbuilt : sc.Built) (hnum : sc.inExclusionOptimizeNum + 1 < sc.size) {complete : Graph}
    (hroom : 0 < complete.maxIntersectionSize) : sc.countRedundancy .stubs complete = some 1 := by
  have hthree := hbuilt.connected.three_le
  let all : Schedule := { sc with inExclusionOptimizeRedundancy := 1 }
  have hprefixes : BuildsPrefixes all.adjMat all.size (all.prefixes, all.loopSetPrefixId) := hbuilt.prefixes
  have hans : patternMatching complete all .stubs oneThread = some 0 :=
    patternMatching_stubs hprefixes hthree hnum hroom rfl oneThread
  let loops : Schedule := { all with inExclusionOptimizeNum := 0 }
  have hloops : BuildsPrefixes loops.adjMat loops.size (loops.prefixes, loops.loopSetPrefixId) := hbuilt.prefixes
  have hlast : loops.inExclusionOptimizeNum + 1 < loops.size := show 0 + 1 < sc.size by omega
  have htrue : patternMatching complete loops .stubs oneThread = some 0 :=
    patternMatching_stubs hloops hthree hlast hroom rfl oneThread
  calc _ = (patternMatching complete all .stubs oneThread).bind fun ans =>
        (patternMatching complete loops .stubs oneThread).bind fun trueAns =>
          some (if trueAns ≠ 0 then ans.tdiv trueAns else 1) := rfl
    _ = some 1 := by rw [hans, htrue]; rfl

/-- What the redundancy is with a library. -/
def Graphmpi.redundancy (library : Graphmpi) (sc : GraphMini.Schedule) (size : ℕ) : ℤ :=
  match library with
  | .mpi => sc.redundancy size
  | .stubs => 1

/-- What the end of `get_schedule` sets. -/
theorem setRedundancy_spec (library : Graphmpi) (hbuilt : sc.Built) (hsize : sc.size ≤ 12)
    (hlast : sc.inExclusionOptimizeNum ≠ 0 → sc.inExclusionOptimizeNum + 1 ≤ 8
      ∧ ({ sc with inExclusionOptimizeNum := sc.inExclusionOptimizeNum + 1 } : Schedule).LastApart sc.size) :
    ∃ sc', sc.setRedundancy library = some sc' ∧ sc'.Built ∧ sc'.adjMat = sc.adjMat ∧ sc'.size = sc.size
      ∧ sc'.restrictPair = sc.restrictPair
      ∧ sc'.inExclusionOptimizeNum
        = (if sc.inExclusionOptimizeNum = 0 then 0 else sc.inExclusionOptimizeNum + 1)
      ∧ sc'.inExclusionOptimizeRedundancy = library.redundancy sc'.toSchedule sc.size := by
  have hthree := hbuilt.connected.three_le
  rw [Schedule.setRedundancy]
  split_ifs with hzero
  · refine ⟨_, rfl, hbuilt.setInExclusion hbuilt.groups, rfl, rfl, rfl, hzero, ?_⟩
    cases library with
    | stubs => rfl
    | mpi =>
        have hone : ({ sc with inExclusionOptimizeRedundancy := 1 } : Schedule).redundancy sc.size = 1 :=
          redundancy_of_zero hzero
        simp only [Graphmpi.redundancy]
        rw [hone, Nat.cast_one]
  · obtain ⟨complete, hload, -, -, -, -, hroom⟩ := loadComplete_spec (n := sc.size) (by omega) (by omega)
    obtain ⟨hfew, hapart⟩ := hlast hzero
    obtain ⟨groups, hinit, hcoefficients⟩ := coefficients_init (Nat.succ_pos _) hfew
    let one : GraphMini.Schedule :=
      { sc.toSchedule with inExclusionOptimizeNum := sc.inExclusionOptimizeNum + 1 }
    have hcount : sc.countRedundancy library complete = some (library.redundancy one sc.size) := by
      cases library with
      | mpi => exact countRedundancy_mpi hbuilt hsize hload
      | stubs =>
          have hone : one.Connected sc.size := connected_of_adjMat hbuilt.connected rfl
          have hnum : sc.inExclusionOptimizeNum + 1 < sc.size := Schedule.LastApart.lt_size hone hapart
          exact countRedundancy_stubs hbuilt hnum (by omega)
    simp only [hload, hcount, Schedule.initInExclusionOptimize, hinit, Option.map_some, Option.bind_eq_bind,
      Option.bind_some]
    refine ⟨_, rfl, hbuilt.setInExclusion fun _ => ⟨hcoefficients, hapart⟩, rfl, rfl, rfl, rfl, ?_⟩
    cases library with
    | mpi => exact congrArg Nat.cast (redundancy_congr rfl rfl)
    | stubs => rfl

/-- What is set for the last vertices. -/
theorem setInExclusionOptimize_spec (sc : Schedule) {num : ℤ}
    (hnum : getVecOptimizeNum sc.adjMat sc.size (List.range sc.size) = num) (hfew : num ≤ 8) :
    ∃ sc', sc.setInExclusionOptimize = some sc' ∧ sc'.adjMat = sc.adjMat ∧ sc'.size = sc.size
      ∧ (sc'.prefixes, sc'.loopSetPrefixId) = (sc.prefixes, sc.loopSetPrefixId)
      ∧ sc'.inExclusionOptimizeNum = (if num ≤ 1 then 0 else (num - 1).toNat)
      ∧ (1 < num → InclusionExclusion.Coefficients sc'.inExclusionOptimizeNum sc'.inExclusionOptimizeVal
        sc'.inExclusionOptimizeGroup) := by
  rw [Schedule.setInExclusionOptimize, hnum]
  split_ifs with hle
  · exact ⟨_, rfl, rfl, rfl, rfl, rfl, fun hlt => absurd hle (not_le.mpr hlt)⟩
  · have hpos : 0 < (num - 1).toNat := by omega
    have hmost : (num - 1).toNat ≤ 8 := by omega
    obtain ⟨groups, hinit, hcoefficients⟩ := coefficients_init hpos hmost
    rw [Schedule.initInExclusionOptimize, hinit]
    exact ⟨_, rfl, rfl, rfl, rfl, rfl, fun _ => hcoefficients⟩

end

/-! ### The result -/

section

/-- What `get_schedule` makes of a pattern. -/
structure Scheduled (library : Graphmpi) (adjMat : List Char) (size : ℕ) (sc : Schedule) : Prop where
  size_eq : sc.size = size
  built : sc.Built
  order : ∃ σ : Perm (Fin size), sc.adjMat = reorder adjMat size (vecOf σ)
    ∧ ∀ τ : Perm (Fin size), getVecOptimizeNum adjMat size (vecOf τ) ≤ getVecOptimizeNum adjMat size (vecOf σ)
  pairs : ∃ kept restricts, restrictsGenerate library sc.adjMat size = some kept
    ∧ (restricts ∈ kept ∨ kept = [] ∧ restricts = []) ∧ Below size restricts
    ∧ sc.restrictPair = eraseImplied restricts.length 0 restricts
  num : (sc.inExclusionOptimizeNum : ℤ)
    = if getVecOptimizeNum sc.adjMat size (List.range size) ≤ 1 then 0
      else getVecOptimizeNum sc.adjMat size (List.range size)
  redundancy : sc.inExclusionOptimizeRedundancy = library.redundancy sc.toSchedule size

variable {estimate : List ℕ → List (ℕ × ℕ) → α} {less : α → α → Bool} {library : Graphmpi} {adjMat : List Char}
  {size : ℕ} {σ : Perm (Fin size)} {restricts : List (ℕ × ℕ)}

/-- The pairs that are chosen are in increasing order. -/
theorem PairsOf.below (hpairs : PairsOf library adjMat size (vecOf σ) restricts) (h : Schedulable adjMat size)
    (hvalid : ValidOrder adjMat σ) : Below size restricts := by
  obtain ⟨kept, hkept, hmem⟩ := hpairs
  let base : GraphMini.Schedule := { adjMat := reorder adjMat size (vecOf σ), restrictPair := [] }
  have hbase : base.Connected size := connected_reorder h.toIsPattern hvalid rfl
  rcases hmem with hmem | ⟨-, rfl⟩
  · obtain ⟨kept', hkept', hleaves⟩ := exists_restrictsGenerate hbase h.le_twelve library
    obtain rfl := Option.some_injective _ (hkept'.symm.trans hkept)
    exact (hleaves restricts hmem).1
  · exact fun pair hpair => absurd hpair List.not_mem_nil

/-- The schedule of an order counts one last vertex less than there are, and those that are left are apart. -/
theorem exists_setInExclusionOptimize (h : Schedulable adjMat size) (hvalid : ValidOrder adjMat σ) :
    ∃ sc, (Schedule.ofMat (reorder adjMat size (vecOf σ)) size).setInExclusionOptimize = some sc
      ∧ sc.adjMat = reorder adjMat size (vecOf σ) ∧ sc.size = size
      ∧ (∀ restricts, Below size restricts → (sc.addRestrict restricts).Built)
      ∧ sc.inExclusionOptimizeNum
        = (if getVecOptimizeNum (reorder adjMat size (vecOf σ)) size (List.range size) ≤ 1 then 0
          else (getVecOptimizeNum (reorder adjMat size (vecOf σ)) size (List.range size) - 1).toNat)
      ∧ (sc.inExclusionOptimizeNum ≠ 0 → sc.inExclusionOptimizeNum + 1 ≤ 8
        ∧ ({ sc with inExclusionOptimizeNum := sc.inExclusionOptimizeNum + 1 } : Schedule).LastApart size) := by
  let base : GraphMini.Schedule := { adjMat := reorder adjMat size (vecOf σ), restrictPair := [] }
  have hbase : base.Connected size := connected_reorder h.toIsPattern hvalid rfl
  let num := getVecOptimizeNum (reorder adjMat size (vecOf σ)) size (List.range size)
  have hfew : num ≤ 8 := by
    calc num = getVecOptimizeNum adjMat size (vecOf σ) := getVecOptimizeNum_reorder.symm
      _ ≤ 8 := h.fewLast σ
  obtain ⟨sc, hset, (hmat : sc.adjMat = reorder adjMat size (vecOf σ)), (hsize : sc.size = size),
      (hprefixes : (sc.prefixes, sc.loopSetPrefixId) = buildLoopInvariant (reorder adjMat size (vecOf σ)) size),
      hnum, hcoefficients⟩ :=
    setInExclusionOptimize_spec (Schedule.ofMat (reorder adjMat size (vecOf σ)) size) (show _ = num from rfl) hfew
  have hone : sc.inExclusionOptimizeNum ≠ 0 → 1 < num ∧ sc.inExclusionOptimizeNum + 1 = num.toNat := by
    intro hne
    rw [hnum] at hne ⊢
    split_ifs at hne ⊢ with hle
    · exact absurd rfl hne
    · omega
  have hlast : sc.inExclusionOptimizeNum ≠ 0 →
      ({ sc with inExclusionOptimizeNum := sc.inExclusionOptimizeNum + 1 } : Schedule).LastApart size := by
    intro hne
    obtain ⟨hlt, hsucc⟩ := hone hne
    apply lastApart_of_getVecOptimizeNum
    · exact connected_of_adjMat hbase hmat
    · show 1 < sc.inExclusionOptimizeNum + 1
      omega
    · show ((sc.inExclusionOptimizeNum + 1 : ℕ) : ℤ) = getVecOptimizeNum sc.adjMat size (List.range size)
      rw [hsucc, Int.toNat_of_nonneg (by omega), hmat]
  refine ⟨sc, hset, hmat, hsize, fun restricts hbelow => ?_, hnum, fun hne => ⟨?_, hlast hne⟩⟩
  · apply built_addRestrict
    · exact hsize ▸ connected_of_adjMat hbase hmat
    · rw [hprefixes, hmat, hsize]
      exact buildsPrefixes _ _
    · intro hne
      rw [hsize]
      exact ⟨hcoefficients (hone hne).1, lastApart_mono (Nat.le_succ _) (hlast hne)⟩
    · rwa [hsize]
  · have hsucc := (hone hne).2
    omega

/-- A valid order with the pairs of a set that is kept becomes a schedule. -/
theorem scheduled_of_pairsOf (h : Schedulable adjMat size) (hvalid : ValidOrder adjMat σ)
    (hmax : ∀ τ : Perm (Fin size),
      getVecOptimizeNum adjMat size (vecOf τ) ≤ getVecOptimizeNum adjMat size (vecOf σ))
    (hpairs : PairsOf library adjMat size (vecOf σ) restricts) :
    ∃ sc, (do
        let sc ← (Schedule.ofMat (reorder adjMat size (vecOf σ)) size).setInExclusionOptimize
        (sc.addRestrict restricts).setRedundancy library) = some sc ∧ Scheduled library adjMat size sc := by
  have hbelow := hpairs.below h hvalid
  obtain ⟨sc, hset, hmat, hsize, hbuilt, hnum, hone⟩ := exists_setInExclusionOptimize h hvalid
  have htwelve : (sc.addRestrict restricts).size ≤ 12 := hsize.le.trans h.le_twelve
  obtain ⟨sc', hsc', hbuilt', hmat', hsize', hpair', hnum', hredundancy'⟩ :=
    setRedundancy_spec library (hbuilt restricts hbelow) htwelve fun hne => hsize.symm ▸ hone hne
  have hmatrix : sc'.adjMat = reorder adjMat size (vecOf σ) := hmat'.trans hmat
  obtain ⟨kept, hkept, hmem⟩ := hpairs
  refine ⟨sc', by rw [hset]; exact hsc', hsize'.trans hsize, hbuilt', ⟨σ, hmatrix, hmax⟩, ?_, ?_, ?_⟩
  · exact ⟨kept, restricts, hmatrix ▸ hkept, hmem, hbelow, hpair'⟩
  · rw [hnum', hmatrix, show (sc.addRestrict restricts).inExclusionOptimizeNum = _ from hnum]
    split_ifs <;> omega
  · rw [hredundancy', size_addRestrict, hsize]

/-- A connected pattern gets a schedule, whatever the estimates are. -/
theorem getSchedule_spec (estimate : List ℕ → List (ℕ × ℕ) → α) (less : α → α → Bool) (library : Graphmpi)
    (h : Schedulable adjMat size) :
    ∃ sc, getSchedule estimate less library adjMat size = some sc ∧ Scheduled library adjMat size sc := by
  have hkept : ∀ vec ∈ candidatePermutations adjMat size,
      ∃ kept, restrictsGenerate library (reorder adjMat size vec) size = some kept := by
    intro vec hvec
    obtain ⟨σ, rfl, hvalid, -⟩ := spec_of_mem_candidates hvec
    let base : GraphMini.Schedule := { adjMat := reorder adjMat size (vecOf σ), restrictPair := [] }
    have hbase : base.Connected size := connected_reorder h.toIsPattern hvalid rfl
    obtain ⟨kept, hkept, -⟩ := exists_restrictsGenerate hbase h.le_twelve library
    exact ⟨kept, hkept⟩
  obtain ⟨best, hbest, htried⟩ := tried_search estimate less hkept
  have hne := (candidates_ne_nil_iff h.toIsPattern).mpr h.connected
  obtain ⟨⟨val, order, restricts⟩, rfl⟩ : ∃ found, best = some found := by
    cases best with
    | none => exact absurd htried hne
    | some found => exact ⟨found, rfl⟩
  obtain ⟨horder, hpairs⟩ := htried
  obtain ⟨σ, rfl, hvalid, hmax⟩ := spec_of_mem_candidates horder
  obtain ⟨sc, hsc, hscheduled⟩ := scheduled_of_pairsOf h hvalid hmax hpairs
  refine ⟨sc, ?_, hscheduled⟩
  have hguard : ordersCounted size = true := ordersCounted_iff.mpr h.le_twelve
  rw [getSchedule, hguard, hbest]
  exact hsc

/-- A pattern that is not connected has no order to try, and one with more than twelve vertices too many. -/
theorem getSchedule_none (hpattern : IsPattern adjMat size)
    (hnot : ¬ (size ≤ 12 ∧ (patternGraph adjMat size).Connected)) :
    getSchedule estimate less library adjMat size = none := by
  rw [getSchedule]
  by_cases hguard : ordersCounted size = true
  · have hnone : candidatePermutations adjMat size = [] := by
      by_contra hne
      exact hnot ⟨ordersCounted_iff.mp hguard, (candidates_ne_nil_iff hpattern).mp hne⟩
    rw [hnone]
    simp only [guard, hguard]
    rfl
  · simp only [guard, hguard]
    rfl

/-- The patterns that get a schedule are the connected ones with at most twelve vertices. -/
theorem getSchedule_isSome_iff (hpattern : IsPattern adjMat size) (hfew : FewLast adjMat size) :
    (getSchedule estimate less library adjMat size).isSome = true
      ↔ size ≤ 12 ∧ (patternGraph adjMat size).Connected := by
  constructor
  · intro hsome
    by_contra hnot
    rw [getSchedule_none hpattern hnot] at hsome
    exact absurd hsome Bool.false_ne_true
  · rintro ⟨hsize, hconnected⟩
    obtain ⟨sc, hsc, -⟩ := getSchedule_spec estimate less library ⟨hpattern, hsize, hconnected, hfew⟩
    rw [hsc]
    rfl

end

theorem getSchedule_isSome_iff_triangle :
    (getSchedule (fun _ _ => 0) (fun a b : ℕ => decide (a < b)) .stubs "011101110".toList 3).isSome = true
      ↔ 3 ≤ 12 ∧ (patternGraph "011101110".toList 3).Connected :=
  getSchedule_isSome_iff isPattern_triangle (fewLast_of_le (by decide))

end GraphPi

end GraphMini
