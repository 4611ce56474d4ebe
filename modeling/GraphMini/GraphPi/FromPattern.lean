import GraphMini.GraphPi.Divisor
import GraphMini.GraphPi.GraphZero
import GraphMini.Spec.PatternGraph

/-!
# The schedule of a pattern, with the choice of the pairs

The constructor of `Schedule` that the programs of GraphPi use. It tries orders or keeps the one that is
given, takes the pairs of the search, those of GraphZero or none, and may count the last vertices by inclusion
and exclusion. Whatever is chosen for a pattern with at most twelve vertices, the matcher finds the same
subgraphs.
-/

namespace GraphMini

namespace GraphPi

open Equiv SymmetryBreaking

variable {α : Type}

/-- The sets of pairs for a matrix: `restricts_type` 1 stands for those of the search. -/
def restrictsVector (library : Graphmpi) (restrictsType : ℕ) (adjMat : List Char) (size : ℕ) :
    Option (List (List (ℕ × ℕ))) :=
  if restrictsType = 1 then restrictsGenerate library adjMat size
  else some [graphZeroAggressiveOptimize adjMat size]

/-- Only with `performance_modeling_type` 1 the candidates are reduced. -/
def modeledPermutations (performanceModelingType : ℕ) (adjMat : List Char) (size : ℕ) : List (List ℕ) :=
  let candidates := removeInvalidPermutation adjMat size (fullPermutation size)
  if performanceModelingType = 1 then
    let maxVal := candidates.foldl (fun maxVal vec => max maxVal (getVecOptimizeNum adjMat size vec)) 0
    candidates.filter fun vec => getVecOptimizeNum adjMat size vec == maxVal
  else candidates

section

variable (estimate : ℕ → List ℕ → List (ℕ × ℕ) → α) (less : α → α → Bool)

/-- An order with its sets of pairs, or with no pairs where there is no set. -/
def tryVector (performanceModelingType : ℕ) (vec : List ℕ) (best : Best α)
    (restrictsVector : List (List (ℕ × ℕ))) : Best α :=
  let best :=
    if restrictsVector.length = 0 then tryPairs (estimate performanceModelingType) less vec best [] else best
  restrictsVector.foldl (tryPairs (estimate performanceModelingType) less vec) best

/-- The matrix in the order that is chosen, and `best_pairs`. -/
def chooseBest (library : Graphmpi) (performanceModelingType restrictsType : ℕ) (adjMat : List Char) (size : ℕ) :
    Option (List Char × List (ℕ × ℕ)) :=
  if performanceModelingType ≠ 0 then do
    guard (ordersCounted size)
    let best ← (modeledPermutations performanceModelingType adjMat size).foldlM
      (fun best vec => do
        let restricts ← restrictsVector library restrictsType (reorder adjMat size vec) size
        return tryVector estimate less performanceModelingType vec best restricts)
      none
    let (_, bestOrder, bestPairs) ← best
    return (reorder adjMat size bestOrder, bestPairs)
  else do
    let restricts ← if restrictsType ≠ 0 then restrictsVector library restrictsType adjMat size else some []
    let best := restricts.foldl
      (tryPairs (estimate (if restrictsType = 1 then 1 else 2)) less (List.range size)) none
    return (adjMat, (best.map fun found => found.2.2).getD [])

/-- `in_exclusion_optimize_num`, with the groups where it is used. -/
def Schedule.useInExclusionOptimize (sc : Schedule) (useInExclusionOptimize : Bool) : Option Schedule :=
  let num := getVecOptimizeNum sc.adjMat sc.size (List.range sc.size)
  if useInExclusionOptimize then
    if num ≤ 1 then some { sc with inExclusionOptimizeNum := 0 }
    else ({ sc with inExclusionOptimizeNum := num.toNat }).initInExclusionOptimize
  else some { sc with inExclusionOptimizeNum := 0 }

/-- `set_in_exclusion_optimize_redundancy` -/
def Schedule.setInExclusionOptimizeRedundancy (sc : Schedule) (library : Graphmpi) : Option Schedule :=
  if sc.inExclusionOptimizeNum ≤ 1 then some { sc with inExclusionOptimizeRedundancy := 1 }
  else do
    let complete ← loadComplete sc.size
    let sc := { sc with inExclusionOptimizeRedundancy := 1 }
    let ans ← patternMatching complete sc library oneThread
    let trueAns ← patternMatching complete { sc with inExclusionOptimizeNum := 0 } library oneThread
    if trueAns = 0 then none else some { sc with inExclusionOptimizeRedundancy := ans.tdiv trueAns }

/-- `Schedule(const Pattern &, ..)`. Where `is_pattern_valid` is set to false there is no schedule. -/
def Schedule.ofPattern (library : Graphmpi) (performanceModelingType restrictsType : ℕ)
    (useInExclusionOptimize : Bool) (adjMat : List Char) (size : ℕ) : Option Schedule := do
  let (mat, bestPairs) ← chooseBest estimate less library performanceModelingType restrictsType adjMat size
  let sc ← (Schedule.ofMat mat size).useInExclusionOptimize useInExclusionOptimize
  if (List.range' 1 (size - 1)).all fun i => (List.range i).any fun j => decide (marked size mat i j) then
    let sc := if restrictsType ≠ 0 then sc.addRestrict bestPairs else sc
    sc.setInExclusionOptimizeRedundancy library
  else none

end

/-- Each ordering that keeps the pairs has as many automorphic images under those of them that the loops test. -/
def Schedule.EvenlyMatched (sc : Schedule) : Prop :=
  ∃ n, ∀ σ ∈ Schedule.orderings sc.size sc.Pair, (images (sc.toSchedule.automorphisms sc.size)
    (Obeys sc.MatchedPair) (σ : Fin sc.size → Fin sc.size)).card = n

/-! ### The search -/

section

variable (estimate : ℕ → List ℕ → List (ℕ × ℕ) → α) (less : α → α → Bool) (modeling : ℕ) (library : Graphmpi)
  (restrictsType : ℕ) {adjMat : List Char} {size : ℕ} {σ : Perm (Fin size)} (hpattern : IsPattern adjMat size)
  (hsize : size ≤ 12)

include hpattern hsize in
/-- In a valid order there are sets of pairs for the matrix, of vertices in their order. -/
theorem exists_restrictsVector (hvalid : ValidOrder adjMat σ) :
    ∃ restricts, restrictsVector library restrictsType (reorder adjMat size (vecOf σ)) size = some restricts
      ∧ ∀ pairs ∈ restricts, Below size pairs := by
  let base : GraphMini.Schedule := { adjMat := reorder adjMat size (vecOf σ), restrictPair := [] }
  have hbase : base.Connected size := connected_reorder hpattern hvalid rfl
  unfold restrictsVector
  split_ifs
  · obtain ⟨kept, hkept, hleaves⟩ := exists_restrictsGenerate hbase hsize library
    exact ⟨kept, hkept, fun pairs hpairs => (hleaves pairs hpairs).1⟩
  · refine ⟨_, rfl, fun pairs hpairs => ?_⟩
    rw [List.mem_singleton.mp hpairs]
    exact @below_graphZero base size

variable {modeling}

theorem mem_modeledPermutations {order : List ℕ} (hmem : order ∈ modeledPermutations modeling adjMat size) :
    ∃ σ : Perm (Fin size), vecOf σ = order ∧ ValidOrder adjMat σ := by
  have hcandidate : order ∈ removeInvalidPermutation adjMat size (fullPermutation size) := by
    rw [modeledPermutations] at hmem
    simp only at hmem
    split_ifs at hmem
    · exact (List.mem_filter.mp hmem).1
    · exact hmem
  obtain ⟨σ, rfl⟩ := mem_fullPermutation.mp (List.mem_filter.mp hcandidate).1
  exact ⟨σ, rfl, (mem_removeInvalidPermutation.mp hcandidate).2⟩

include hpattern in
theorem modeledPermutations_ne_nil (hconnected : (patternGraph adjMat size).Connected) :
    modeledPermutations modeling adjMat size ≠ [] := by
  have hthree := hpattern.three_le
  obtain ⟨order, hmem⟩ := List.exists_mem_of_ne_nil _ ((candidates_ne_nil_iff hpattern).mpr hconnected)
  obtain ⟨σ, rfl, hvalid, -⟩ := spec_of_mem_candidates hmem
  have hcandidate : vecOf σ ∈ removeInvalidPermutation adjMat size (fullPermutation size) :=
    mem_removeInvalidPermutation.mpr ⟨mem_fullPermutation.mpr ⟨σ, rfl⟩, hvalid⟩
  rw [modeledPermutations]
  simp only
  split_ifs
  · exact filter_max_ne_nil hcandidate (getVecOptimizeNum_pos (by omega) hvalid hpattern.symm)
  · exact List.ne_nil_of_mem hcandidate

include hpattern in
theorem reorder_one : reorder adjMat size (vecOf (1 : Perm (Fin size))) = adjMat := by
  apply List.ext_getElem
  · rw [length_reorder, hpattern.length]
  · intro k hk hk'
    rw [length_reorder] at hk
    have hthree := hpattern.three_le
    have hi : k / size < size := Nat.div_lt_of_lt_mul hk
    have hj : k % size < size := Nat.mod_lt k (by omega)
    have hcell : vecIndex (k / size) (k % size) size = k := by
      rw [vecIndex, mul_comm]
      exact Nat.div_add_mod k size
    have hentry := @getD_reorder size adjMat 1 ⟨k / size, hi⟩ ⟨k % size, hj⟩
    simp only [Perm.one_apply, hcell] at hentry
    rwa [List.getD_eq_getElem, List.getD_eq_getElem] at hentry

/-- An order is tried if the pattern is connected, and the order that is given is kept if it is valid. -/
def HasOrder (performanceModelingType : ℕ) (adjMat : List Char) (size : ℕ) : Prop :=
  if performanceModelingType ≠ 0 then (patternGraph adjMat size).Connected
  else ValidOrder adjMat (1 : Perm (Fin size))

/-- The pairs are those of a set for the order, or none where there is no set. -/
def PairsFrom (library : Graphmpi) (restrictsType : ℕ) (adjMat : List Char) (size : ℕ) (order : List ℕ)
    (pairs : List (ℕ × ℕ)) : Prop :=
  ∃ restricts, restrictsVector library restrictsType (reorder adjMat size order) size = some restricts
    ∧ (pairs ∈ restricts ∨ restricts = [] ∧ pairs = [])

include hpattern hsize

/-- The search finds a valid order with a set of pairs. -/
theorem chooseBest_of_search (hmodeling : modeling ≠ 0) (hconnected : (patternGraph adjMat size).Connected) :
    ∃ (σ : Perm (Fin size)) (pairs : List (ℕ × ℕ)),
      chooseBest estimate less library modeling restrictsType adjMat size
        = some (reorder adjMat size (vecOf σ), pairs)
      ∧ ValidOrder adjMat σ ∧ PairsFrom library restrictsType adjMat size (vecOf σ) pairs := by
  let P : List ℕ → List (ℕ × ℕ) → Prop := fun order pairs => order ∈ modeledPermutations modeling adjMat size
    ∧ PairsFrom library restrictsType adjMat size order pairs
  have hnone : ∀ found ∈ (none : Best α), P found.2.1 found.2.2 :=
    fun found hmem => absurd hmem (Option.not_mem_none found)
  have hstep : ∀ vec ∈ modeledPermutations modeling adjMat size, ∀ best : Best α,
      (∀ found ∈ best, P found.2.1 found.2.2) → ∃ found,
        (do
          let restricts ← restrictsVector library restrictsType (reorder adjMat size vec) size
          return tryVector estimate less modeling vec best restricts) = some (some found)
        ∧ P found.2.1 found.2.2 := by
    intro vec hvec best hbest
    obtain ⟨σ, rfl, hvalid⟩ := mem_modeledPermutations hvec
    obtain ⟨restricts, hrestricts, -⟩ := exists_restrictsVector library restrictsType hpattern hsize hvalid
    obtain ⟨found, hfound, hP⟩ := tryAll_spec (estimate modeling) less
      (fun pairs hpairs => (⟨hvec, restricts, hrestricts, hpairs⟩ : P (vecOf σ) pairs)) hbest
    refine ⟨found, ?_, hP⟩
    rw [hrestricts, ← hfound]
    rfl
  obtain ⟨best, hbest, hfound, hne⟩ := foldlM_best_spec hstep hnone
  obtain ⟨⟨val, order, pairs⟩, rfl⟩ :=
    Option.ne_none_iff_exists'.mp (hne (Or.inl (modeledPermutations_ne_nil hpattern hconnected)))
  obtain ⟨hmem, hpairs⟩ := hfound (val, order, pairs) rfl
  obtain ⟨σ, rfl, hvalid⟩ := mem_modeledPermutations hmem
  refine ⟨σ, pairs, ?_, hvalid, hpairs⟩
  have hguard : ordersCounted size = true := ordersCounted_iff.mpr hsize
  rw [chooseBest, if_pos hmodeling, hguard, hbest]
  rfl

/-- The order that is given is kept, with the best set of pairs for it. -/
theorem chooseBest_of_given (hvalid : ValidOrder adjMat (1 : Perm (Fin size))) :
    ∃ pairs, chooseBest estimate less library 0 restrictsType adjMat size = some (adjMat, pairs)
      ∧ (restrictsType ≠ 0 →
        PairsFrom library restrictsType adjMat size (vecOf (1 : Perm (Fin size))) pairs) := by
  rw [chooseBest, if_neg (not_not_intro rfl)]
  by_cases htype : restrictsType ≠ 0
  · obtain ⟨restricts, hrestricts, -⟩ := exists_restrictsVector library restrictsType hpattern hsize hvalid
    have hsame : restrictsVector library restrictsType adjMat size = some restricts := by
      rw [← hrestricts, reorder_one hpattern]
    let P : List ℕ → List (ℕ × ℕ) → Prop := fun _ pairs => pairs ∈ restricts
    have hnone : ∀ found ∈ (none : Best α), P found.2.1 found.2.2 :=
      fun found hmem => absurd hmem (Option.not_mem_none found)
    have hall : ∀ pairs ∈ restricts, P (List.range size) pairs := fun _ hpairs => hpairs
    obtain ⟨hfound, hne⟩ :=
      foldl_tryPairs_spec (estimate (if restrictsType = 1 then 1 else 2)) less hall hnone
    let best : Best α := restricts.foldl
      (tryPairs (estimate (if restrictsType = 1 then 1 else 2)) less (List.range size)) none
    refine ⟨(best.map fun found => found.2.2).getD [], ?_, fun _ => ⟨restricts, hrestricts, ?_⟩⟩
    · rw [if_pos htype, hsame]
      rfl
    · by_cases hempty : restricts = []
      · subst hempty
        exact Or.inr ⟨rfl, rfl⟩
      · obtain ⟨found, hbest⟩ : ∃ found, best = some found := Option.ne_none_iff_exists'.mp (hne (Or.inl hempty))
        rw [hbest]
        exact Or.inl (hfound found hbest)
  · refine ⟨[], ?_, fun hne => absurd hne htype⟩
    rw [if_neg htype]
    rfl

theorem chooseBest_spec (horder : HasOrder modeling adjMat size) :
    ∃ (σ : Perm (Fin size)) (pairs : List (ℕ × ℕ)),
      chooseBest estimate less library modeling restrictsType adjMat size
        = some (reorder adjMat size (vecOf σ), pairs)
      ∧ ValidOrder adjMat σ
      ∧ (restrictsType ≠ 0 → PairsFrom library restrictsType adjMat size (vecOf σ) pairs) := by
  by_cases hmodeling : modeling ≠ 0
  · rw [HasOrder, if_pos hmodeling] at horder
    obtain ⟨σ, pairs, hchoose, hvalid, hpairs⟩ :=
      chooseBest_of_search estimate less library restrictsType hpattern hsize hmodeling horder
    exact ⟨σ, pairs, hchoose, hvalid, fun _ => hpairs⟩
  · rw [HasOrder, if_neg hmodeling] at horder
    obtain rfl := not_not.mp hmodeling
    obtain ⟨pairs, hchoose, hpairs⟩ := chooseBest_of_given estimate less library restrictsType hpattern hsize horder
    refine ⟨1, pairs, ?_, horder, hpairs⟩
    rw [hchoose, reorder_one hpattern]

end

/-! ### The redundancy -/

section

variable {sc : Schedule}

theorem card_orderings_eq_mul {size : ℕ} {sc : GraphMini.Schedule} (hrep : sc.OneRepresentative size)
    (pair : ℕ → ℕ → Prop) [∀ a b, Decidable (pair a b)] {n : ℕ}
    (hn : ∀ σ ∈ Schedule.orderings size sc.Pair,
      (images (sc.automorphisms size) (Obeys pair) (σ : Fin size → Fin size)).card = n) :
    (Schedule.orderings size pair).card = n * (Schedule.orderings size sc.Pair).card := by
  have hperm : ∀ f : Fin size → Fin size, Function.Injective f → ∃ σ : Perm (Fin size), ⇑σ = f :=
    fun f hf => ⟨Equiv.ofBijective f (Finite.injective_iff_bijective.mp hf), rfl⟩
  rw [← card_orderings, ← card_orderings]
  apply card_filter_eq_mul (A := sc.automorphisms size)
  · intro f hf β _
    rw [Finset.mem_filter] at hf ⊢
    exact ⟨Finset.mem_univ _, hf.2.comp β.injective⟩
  · intro f hf
    obtain ⟨σ, rfl⟩ := hperm f (Finset.mem_filter.mp hf).2
    exact hrep σ
  · intro f hf hpairs
    obtain ⟨σ, rfl⟩ := hperm f (Finset.mem_filter.mp hf).2
    exact hn σ (mem_orderings.mpr hpairs)

theorem not_matchedPair_of_nil (hnil : sc.restrictPair = []) (a b : ℕ) : ¬ sc.MatchedPair a b := by
  intro hab
  have hmem := hab.1
  rw [hnil] at hmem
  exact absurd hmem List.not_mem_nil

theorem card_orderings_pos {size : ℕ} {sc : GraphMini.Schedule} (hbelow : Below size sc.restrictPair) :
    0 < (Schedule.orderings size sc.Pair).card := by
  apply Finset.card_pos.mpr
  refine ⟨Fin.revPerm, mem_orderings.mpr fun a b hab => ?_⟩
  exact Fin.rev_lt_rev.mpr (hbelow (a, b) hab).1

/-- The redundancy of the constructor is that of the pairs that the loops test. -/
theorem setInExclusionOptimizeRedundancy_eq (hbuilt : sc.Built) (hsize : sc.size ≤ 12)
    (hone : sc.inExclusionOptimizeNum ≠ 1) :
    sc.setInExclusionOptimizeRedundancy .mpi = some { sc with
      inExclusionOptimizeRedundancy := ((Schedule.orderings sc.size sc.MatchedPair).card
        / (Schedule.orderings sc.size sc.Pair).card : ℕ) } := by
  have hpos := card_orderings_pos hbuilt.below
  unfold Schedule.setInExclusionOptimizeRedundancy
  split_ifs with hle
  · have hsame : Schedule.orderings sc.size sc.MatchedPair = Schedule.orderings sc.size sc.Pair := by
      apply orderings_congr
      intro a b
      exact and_iff_left_of_imp fun _ => show b + sc.inExclusionOptimizeNum < sc.size by omega
    rw [hsame, Nat.div_self hpos, Nat.cast_one]
  · have hthree := hbuilt.connected.three_le
    obtain ⟨complete, hload, -⟩ := loadComplete_spec (n := sc.size) (by omega) (by omega)
    obtain ⟨hans, htrue⟩ := patternMatching_counts hbuilt hsize hload
    simp only [hload, Option.bind_eq_bind, Option.bind_some]
    rw [hans, htrue]
    simp only [Option.bind_some]
    rw [if_neg (Nat.cast_ne_zero.mpr hpos.ne'), ← Int.ofNat_tdiv]

/-- All orderings that keep the pairs keep those that the loops test. -/
theorem divisor_pos (hbelow : Below sc.size sc.restrictPair) :
    0 < (Schedule.orderings sc.size sc.MatchedPair).card / (Schedule.orderings sc.size sc.Pair).card := by
  apply Nat.div_pos _ (card_orderings_pos hbelow)
  apply Finset.card_le_card
  intro σ hσ
  exact mem_orderings.mpr fun a b hab => mem_orderings.mp hσ a b hab.1

variable {g : Graph} {threads : ℕ} (hbuilt : sc.Built) (hg : g.toGraph.Valid) (hloaded : g.Loaded)
  (hroom : sc.size ≤ g.maxIntersectionSize + 1)
  (hfew : (maps .edgeInduced g.toGraph sc.size sc.toSchedule).card < 2 ^ 63)
  (hredundancy : sc.inExclusionOptimizeRedundancy = ((Schedule.orderings sc.size sc.MatchedPair).card
    / (Schedule.orderings sc.size sc.Pair).card : ℕ))
  (schedule : ℕ → Fin threads)

include hbuilt hg hloaded hroom hfew hredundancy

/-- Where the maps are not too many what is counted is divided as natural numbers are. -/
theorem patternMatching_of_few : patternMatching g sc .mpi schedule
    = some (((((maps .edgeInduced g.toGraph sc.size sc.toSchedule).filter (Obeys sc.MatchedPair)).card
      / ((Schedule.orderings sc.size sc.MatchedPair).card / (Schedule.orderings sc.size sc.Pair).card) : ℕ)) : ℤ) := by
  have hpos := divisor_pos hbuilt.below
  have hcounted : ((maps .edgeInduced g.toGraph sc.size sc.toSchedule).filter (Obeys sc.MatchedPair)).card < 2 ^ 63 :=
    (Finset.card_filter_le _ _).trans_lt hfew
  rw [patternMatching_eq hbuilt hg hloaded hroom schedule, hredundancy, if_neg (Nat.cast_ne_zero.mpr hpos.ne'),
    longLong_natCast_iff.mpr hcounted, ← Int.ofNat_tdiv]

/-- Without pairs the matcher counts all maps. -/
theorem patternMatching_of_nil (hnil : sc.restrictPair = []) : patternMatching g sc .mpi schedule
    = some ((maps .edgeInduced g.toGraph sc.size sc.toSchedule).card : ℤ) := by
  have hnone := not_matchedPair_of_nil hnil
  have hsame : Schedule.orderings sc.size sc.MatchedPair = Schedule.orderings sc.size sc.Pair := by
    apply orderings_congr
    intro a b
    refine ⟨fun hab => absurd hab (hnone a b), fun hab => ?_⟩
    exact absurd (hnil ▸ hab : (a.val, b.val) ∈ ([] : List (ℕ × ℕ))) List.not_mem_nil
  have hall : ∀ f : Fin sc.size → ℕ, Obeys sc.MatchedPair f := fun f a b hab => absurd hab (hnone a b)
  rw [patternMatching_of_few hbuilt hg hloaded hroom hfew hredundancy schedule, hsame,
    Nat.div_self (card_orderings_pos hbuilt.below), Nat.div_one, Finset.filter_true_of_mem fun f _ => hall f]

/-- Where the pairs are evenly matched the matcher counts the embeddings. -/
theorem patternMatching_of_evenlyMatched (hrep : sc.toSchedule.OneRepresentative sc.size)
    (heven : sc.EvenlyMatched) : patternMatching g sc .mpi schedule
      = some ((embeddings .edgeInduced g.toGraph sc.size sc.toSchedule).card : ℤ) := by
  obtain ⟨n, hn⟩ := heven
  have hpos := orderings_card_pos hrep
  have horderings := card_orderings_eq_mul hrep sc.MatchedPair hn
  have hnpos : 0 < n := by
    have hdivisor := divisor_pos hbuilt.below
    rwa [horderings, Nat.mul_div_cancel _ hpos] at hdivisor
  rw [patternMatching_of_few hbuilt hg hloaded hroom hfew hredundancy schedule, horderings,
    Nat.mul_div_cancel _ hpos, card_kept_eq_mul hrep hn, Nat.mul_div_cancel_left _ hnpos]

end

/-! ### Evenly matched pairs -/

section

variable {sc : Schedule}

/-- Where a loop places each vertex all pairs are tested. -/
theorem evenlyMatched_of_zero (hrep : sc.toSchedule.OneRepresentative sc.size)
    (hzero : sc.inExclusionOptimizeNum = 0) : sc.EvenlyMatched := by
  refine ⟨1, fun σ _ => ?_⟩
  have hpairs : ∀ f : Fin sc.size → Fin sc.size, Obeys sc.MatchedPair f ↔ Obeys sc.Pair f := by
    intro f
    apply obeys_congr
    intro a b
    refine and_iff_left_of_imp fun _ => ?_
    rw [hzero]
    exact b.isLt
  calc (images (sc.toSchedule.automorphisms sc.size) (Obeys sc.MatchedPair) (σ : Fin sc.size → Fin sc.size)).card
      = (images (sc.toSchedule.automorphisms sc.size) (Obeys sc.Pair) (σ : Fin sc.size → Fin sc.size)).card := by
        congr 1
        ext β
        rw [mem_images, mem_images, hpairs]
    _ = 1 := picks_iff_card.mp (hrep σ)

theorem evenlyMatched_of_nil (hnil : sc.restrictPair = []) : sc.EvenlyMatched := by
  refine ⟨Nat.card (sc.toSchedule.automorphisms sc.size), fun σ _ => ?_⟩
  apply card_images_of_forall
  exact fun β _ a b hab => absurd hab (not_matchedPair_of_nil hnil a b)

/-- The divisor is the number of automorphisms at most. -/
theorem divisor_le (hrep : sc.toSchedule.OneRepresentative sc.size) :
    (Schedule.orderings sc.size sc.MatchedPair).card / (Schedule.orderings sc.size sc.Pair).card
      ≤ Nat.card (sc.toSchedule.automorphisms sc.size) := by
  have hall := card_orderings_eq_mul hrep (fun _ _ => False)
    fun σ _ => card_images_of_forall fun β _ a b hab => hab.elim
  apply Nat.div_le_of_le_mul
  rw [mul_comm, ← hall]
  apply Finset.card_le_card
  intro σ _
  exact mem_orderings.mpr fun a b hab => hab.elim

/-- A data graph, as the matcher holds it. `VertexSet::max_intersection_size` was `loaded` before. -/
def ofGraph (loaded : ℕ) (g : GraphMini.Graph) : Graph where
  vCnt := g.numVertex
  eCnt := g.numEdge
  edge := g.indices
  vertex := g.indptr
  maxDegree := (Finset.range g.numVertex).sup g.degree
  maxIntersectionSize := max loaded ((Finset.range g.numVertex).sup g.degree)

variable {loaded : ℕ}

theorem valid_ofGraph {g : GraphMini.Graph} (hg : g.Valid) : (ofGraph loaded g).toGraph.Valid where
  indptr_zero := hg.indptr_zero
  indptr_mono := hg.indptr_mono
  indptr_last := hg.indptr_last
  indices_length := hg.indices_length
  sorted := hg.sorted
  lt_numVertex := hg.lt_numVertex
  symm := hg.symm
  loopless := hg.loopless
  offset_eq v hv := by
    have hlt : v < (ofGraph loaded g).vCnt := hv
    rw [Graph.toGraph, List.getD_eq_getElem?_getD, List.getElem?_map, List.getElem?_range hlt]
    rfl
  numVertex_lt := hg.numVertex_lt

theorem loaded_ofGraph {g : GraphMini.Graph} (hvertices : g.numVertex < 2 ^ 31) (hedges : g.numEdge < 2 ^ 32) :
    (ofGraph loaded g).Loaded := by
  have hrow : ∀ v < g.numVertex, ((ofGraph loaded g).row v).length ≤ (Finset.range g.numVertex).sup g.degree := by
    intro v hv
    calc ((ofGraph loaded g).row v).length ≤ g.degree v := List.length_take_le _ _
      _ ≤ _ := Finset.le_sup (Finset.mem_range.mpr hv)
  refine ⟨hvertices, hedges, hrow, fun v hv _ _ _ => ?_⟩
  exact (min_le_left _ _).trans ((hrow v hv).trans (le_max_right _ _))

theorem maps_ofGraph {t : AdjMatType} {g : GraphMini.Graph} {size : ℕ} {sc : GraphMini.Schedule} :
    maps t (ofGraph loaded g).toGraph size sc = maps t g size sc := by
  ext f
  rw [mem_maps, mem_maps]
  constructor
  · exact fun ⟨hlt, h⟩ => ⟨hlt, h.injective, h.edge, h.nonEdge⟩
  · exact fun ⟨hlt, h⟩ => ⟨hlt, h.injective, h.edge, h.nonEdge⟩

/-- If the matcher always counts the embeddings, the pairs are evenly matched: so many copies of the pattern as
the redundancy says have as many embeddings. -/
theorem evenlyMatched_of_agree (hbuilt : sc.Built) (hsize : sc.size ≤ 12)
    (hrep : sc.toSchedule.OneRepresentative sc.size)
    (hredundancy : sc.inExclusionOptimizeRedundancy = ((Schedule.orderings sc.size sc.MatchedPair).card
      / (Schedule.orderings sc.size sc.Pair).card : ℕ))
    (hfits : Nat.card (sc.toSchedule.automorphisms sc.size) * (sc.size * sc.size) < 2 ^ 31)
    (hagree : ∀ g : Graph, g.toGraph.Valid → g.Loaded → sc.size ≤ g.maxIntersectionSize + 1 →
      (maps .edgeInduced g.toGraph sc.size sc.toSchedule).card < 2 ^ 63 → patternMatching g sc .mpi oneThread
        = some ((embeddings .edgeInduced g.toGraph sc.size sc.toSchedule).card : ℤ)) : sc.EvenlyMatched := by
  have hpos := divisor_pos hbuilt.below
  have hle := divisor_le hrep
  have hthree := hbuilt.connected.three_le
  set r := (Schedule.orderings sc.size sc.MatchedPair).card / (Schedule.orderings sc.size sc.Pair).card with hr
  refine ⟨r, fun σ _ => ?_⟩
  obtain ⟨copies, hcopies⟩ : ∃ copies, copies = patternCopies sc.toSchedule sc.size σ r := ⟨_, rfl⟩
  have hedges : copies.numEdge < 2 ^ 31 := by
    calc copies.numEdge ≤ r * sc.size * sc.size := hcopies ▸ numEdge_patternCopies_le
      _ = r * (sc.size * sc.size) := mul_assoc _ _ _
      _ ≤ _ := Nat.mul_le_mul_right _ hle
      _ < 2 ^ 31 := hfits
  have hvertices : copies.numVertex < 2 ^ 31 := by
    calc copies.numVertex = r * sc.size := by rw [hcopies]; rfl
      _ ≤ r * (sc.size * sc.size) := Nat.mul_le_mul_left _ (Nat.le_mul_self _)
      _ ≤ _ := Nat.mul_le_mul_right _ hle
      _ < 2 ^ 31 := hfits
  have hvalid : copies.Valid := by
    have hid : r * sc.size < invalidId := by
      have hnum : r * sc.size < 2 ^ 31 := by simpa [hcopies, patternCopies] using hvertices
      exact hnum.trans (by decide)
    rw [hcopies]
    exact valid_patternCopies hbuilt.connected hid
  let g : Graph := ofGraph sc.size copies
  have hcount : ∀ (pair : ℕ → ℕ → Prop) [∀ a b, Decidable (pair a b)],
      ((maps .edgeInduced g.toGraph sc.size sc.toSchedule).filter (Obeys pair)).card
        = r * (images (sc.toSchedule.automorphisms sc.size) (Obeys pair) (σ : Fin sc.size → Fin sc.size)).card := by
    intro pair _
    rw [maps_ofGraph, hcopies]
    exact card_maps_patternCopies hbuilt.connected
  have hfew : (maps .edgeInduced g.toGraph sc.size sc.toSchedule).card < 2 ^ 63 := by
    have hall : ∀ f ∈ maps .edgeInduced g.toGraph sc.size sc.toSchedule, Obeys (fun _ _ => False) f :=
      fun f _ a b hab => hab.elim
    have hautomorphisms : r ≤ sc.size.factorial := by
      calc r ≤ (Schedule.orderings sc.size sc.MatchedPair).card := Nat.div_le_self _ _
        _ ≤ sc.size.factorial := card_orderings_le _
    rw [← Finset.filter_true_of_mem hall, maps_ofGraph, hcopies]
    exact card_maps_patternCopies_lt hbuilt.connected hsize hautomorphisms
  have hembeddings : (embeddings .edgeInduced g.toGraph sc.size sc.toSchedule).card = r := by
    rw [card_embeddings_eq]
    exact (hcount sc.Pair).trans (by rw [picks_iff_card.mp (hrep σ), mul_one])
  have hgraph : g.toGraph.Valid := valid_ofGraph hvalid
  have hloaded : g.Loaded := loaded_ofGraph hvertices (hedges.trans (by decide))
  have hroom : sc.size ≤ g.maxIntersectionSize + 1 := Nat.le_succ_of_le (le_max_left _ _)
  have heq := hagree g hgraph hloaded hroom hfew
  rw [patternMatching_of_few hbuilt hgraph hloaded hroom hfew hredundancy oneThread, ← hr, hcount sc.MatchedPair,
    hembeddings, Nat.mul_div_cancel_left _ hpos, Option.some.injEq] at heq
  exact_mod_cast heq

end

/-! ### The schedule that is constructed -/

section

variable (estimate : ℕ → List ℕ → List (ℕ × ℕ) → α) (less : α → α → Bool) (restrictsType : ℕ)
  (useInExclusionOptimize : Bool) {modeling : ℕ} {adjMat mat : List Char} {size : ℕ}

/-- The groups are those of two or more last vertices without an edge. -/
theorem useInExclusionOptimize_spec
    (hmat : ({ adjMat := mat, restrictPair := [] } : GraphMini.Schedule).Connected size)
    (hfew : useInExclusionOptimize = true → getVecOptimizeNum mat size (List.range size) ≤ 8) :
    ∃ sc, (Schedule.ofMat mat size).useInExclusionOptimize useInExclusionOptimize = some sc
      ∧ sc.adjMat = mat ∧ sc.size = size ∧ sc.restrictPair = []
      ∧ sc.inExclusionOptimizeNum ≠ 1 ∧ (useInExclusionOptimize = false → sc.inExclusionOptimizeNum = 0)
      ∧ sc.Built := by
  have hplain : (Schedule.ofMat mat size).Built := built_ofMat hmat fun pair hpair => absurd hpair List.not_mem_nil
  unfold Schedule.useInExclusionOptimize
  simp only
  split_ifs with huse hle
  · exact ⟨_, rfl, rfl, rfl, rfl, Nat.zero_ne_one, fun _ => rfl, hplain.setInExclusion fun hne => absurd rfl hne⟩
  · have hmost : getVecOptimizeNum mat size (List.range size) ≤ 8 := hfew huse
    set num := getVecOptimizeNum mat size (List.range size) with hnum
    have hlt : 1 < num := not_le.mp hle
    have hmany : ((num.toNat : ℕ) : ℤ) = num := Int.toNat_of_nonneg (by omega)
    have htwo : 1 < num.toNat := by omega
    have hfits : num.toNat ≤ 8 := by omega
    obtain ⟨groups, hinit, hcoefficients⟩ := coefficients_init (Nat.zero_lt_of_lt htwo) hfits
    have hset : ({ Schedule.ofMat mat size with
        inExclusionOptimizeNum := num.toNat } : Schedule).initInExclusionOptimize
        = some { Schedule.ofMat mat size with
          inExclusionOptimizeNum := num.toNat
          inExclusionOptimizeGroup := groups.1
          inExclusionOptimizeVal := groups.2 } := by
      rw [Schedule.initInExclusionOptimize, hinit, Option.map_some]
    refine ⟨_, hset, rfl, rfl, rfl, htwo.ne', fun hfalse => absurd hfalse (by simp [huse]), ?_⟩
    apply hplain.setInExclusion
    intro _
    refine ⟨hcoefficients, ?_⟩
    apply lastApart_of_getVecOptimizeNum
    · exact connected_of_adjMat hmat rfl
    · exact htwo
    · exact hmany
  · exact ⟨_, rfl, rfl, rfl, rfl, Nat.zero_ne_one, fun _ => rfl, hplain.setInExclusion fun hne => absurd rfl hne⟩

/-- With the library the sets of pairs leave one of each class, those of the search and those of GraphZero. -/
theorem oneRepresentative_of_mem {sc : GraphMini.Schedule} {restricts : List (List (ℕ × ℕ))}
    {pairs : List (ℕ × ℕ)} (hsc : sc.Connected size) (hsize : size ≤ 12)
    (hrestricts : restrictsVector .mpi restrictsType sc.adjMat size = some restricts) (hmem : pairs ∈ restricts) :
    ({ sc with restrictPair := pairs } : GraphMini.Schedule).OneRepresentative size := by
  unfold restrictsVector at hrestricts
  split_ifs at hrestricts
  · rw [restrictsGenerate_mpi hsc hsize, Option.some.injEq] at hrestricts
    rw [← hrestricts, List.mem_filter, decide_eq_true_iff] at hmem
    exact hmem.2
  · rw [Option.some.injEq] at hrestricts
    rw [← hrestricts, List.mem_singleton] at hmem
    subst hmem
    exact fun τ => existsUnique_graphZero τ.injective

/-- With the pairs of a set for the order the schedule is complete. -/
theorem addRestrict_spec {sc : Schedule} {pairs : List (ℕ × ℕ)} {σ : Perm (Fin size)}
    (hpattern : IsPattern adjMat size) (htwelve : size ≤ 12) (hvalid : ValidOrder adjMat σ)
    (hpairs : PairsFrom .mpi restrictsType adjMat size (vecOf σ) pairs)
    (hmat : sc.adjMat = reorder adjMat size (vecOf σ)) (hsize : sc.size = size) (hbuilt : sc.Built) :
    (sc.addRestrict pairs).Built ∧ ((sc.addRestrict pairs).restrictPair = []
      ∨ (sc.addRestrict pairs).toSchedule.OneRepresentative size) := by
  have hconnected : sc.toSchedule.Connected size := connected_reorder hpattern hvalid hmat
  obtain ⟨restricts, hrestricts, hmem⟩ := hpairs
  obtain ⟨restricts', hrestricts', hall⟩ := exists_restrictsVector .mpi restrictsType hpattern htwelve hvalid
  obtain rfl := Option.some_injective _ (hrestricts'.symm.trans hrestricts)
  have hbelow : Below size pairs := by
    rcases hmem with hmem | ⟨-, rfl⟩
    · exact hall pairs hmem
    · exact fun pair hpair => absurd hpair List.not_mem_nil
  refine ⟨built_addRestrict hbuilt.connected hbuilt.prefixes hbuilt.groups (hsize.symm ▸ hbelow), ?_⟩
  rcases hmem with hmem | ⟨-, rfl⟩
  · right
    rw [← hmat] at hrestricts
    have hrep := oneRepresentative_of_mem restrictsType hconnected htwelve hrestricts hmem
    exact (oneRepresentative_eraseImplied hbelow rfl).mpr hrep
  · exact Or.inl rfl

variable (hpattern : IsPattern adjMat size) (hsize : size ≤ 12) (horder : HasOrder modeling adjMat size)
  (hlast : useInExclusionOptimize = true → FewLast adjMat size)

include hpattern hsize horder hlast

/-- With the library the constructor makes a schedule, and its pairs leave one of each class or there are none. -/
theorem ofPattern_spec :
    ∃ sc, Schedule.ofPattern estimate less .mpi modeling restrictsType useInExclusionOptimize adjMat size = some sc
      ∧ sc.size = size ∧ sc.Built ∧ (∃ σ : Perm (Fin size), sc.adjMat = reorder adjMat size (vecOf σ))
      ∧ (sc.restrictPair = [] ∨ sc.toSchedule.OneRepresentative size)
      ∧ (restrictsType = 0 → sc.restrictPair = [])
      ∧ (useInExclusionOptimize = false → sc.inExclusionOptimizeNum = 0)
      ∧ sc.inExclusionOptimizeRedundancy = ((Schedule.orderings sc.size sc.MatchedPair).card
        / (Schedule.orderings sc.size sc.Pair).card : ℕ) := by
  obtain ⟨σ, pairs, hchoose, hvalid, hpairs⟩ :=
    chooseBest_spec estimate less .mpi restrictsType hpattern hsize horder
  let mat := reorder adjMat size (vecOf σ)
  have hmatrix : ({ adjMat := mat, restrictPair := [] } : GraphMini.Schedule).Connected size :=
    connected_reorder hpattern hvalid rfl
  have hmost : useInExclusionOptimize = true → getVecOptimizeNum mat size (List.range size) ≤ 8 := by
    intro huse
    calc getVecOptimizeNum mat size (List.range size) = getVecOptimizeNum adjMat size (vecOf σ) :=
          getVecOptimizeNum_reorder.symm
      _ ≤ 8 := hlast huse σ
  obtain ⟨sc, hsc, hmat, hscSize, hnil, hone, huse, hbuilt⟩ :=
    useInExclusionOptimize_spec useInExclusionOptimize hmatrix hmost
  have hjoined : ((List.range' 1 (size - 1)).all fun i => (List.range i).any fun j =>
      decide (marked size mat i j)) = true := by
    rw [List.all_eq_true]
    intro i hi
    rw [List.mem_range'_1] at hi
    obtain ⟨j, hj, hmark⟩ := hmatrix.connected i (by omega) (by omega)
    rw [List.any_eq_true]
    exact ⟨j, List.mem_range.mpr hj, decide_eq_true hmark⟩
  let sc' : Schedule := if restrictsType ≠ 0 then sc.addRestrict pairs else sc
  have hfields : sc'.size = size ∧ sc'.adjMat = mat ∧ sc'.inExclusionOptimizeNum = sc.inExclusionOptimizeNum
      ∧ sc'.Built ∧ (sc'.restrictPair = [] ∨ sc'.toSchedule.OneRepresentative size)
      ∧ (restrictsType = 0 → sc'.restrictPair = []) := by
    by_cases htype : restrictsType ≠ 0
    · have hcase : sc' = sc.addRestrict pairs := if_pos htype
      rw [hcase]
      obtain ⟨hbuilt', hrep⟩ := addRestrict_spec restrictsType hpattern hsize hvalid (hpairs htype) hmat hscSize
        hbuilt
      exact ⟨hscSize, hmat, rfl, hbuilt', hrep, fun hzero => absurd hzero htype⟩
    · have hcase : sc' = sc := if_neg htype
      rw [hcase]
      exact ⟨hscSize, hmat, rfl, hbuilt, Or.inl hnil, fun _ => hnil⟩
  obtain ⟨hsize', hmat', hnum', hbuilt', hrep', htype'⟩ := hfields
  have hredundancy := setInExclusionOptimizeRedundancy_eq hbuilt' (hsize'.le.trans hsize) (hnum'.symm ▸ hone)
  have hresult : Schedule.ofPattern estimate less .mpi modeling restrictsType useInExclusionOptimize adjMat size
      = sc'.setInExclusionOptimizeRedundancy .mpi := by
    rw [Schedule.ofPattern, hchoose]
    simp only [Option.bind_eq_bind, Option.bind_some]
    rw [hsc, Option.bind_some, if_pos hjoined]
  rw [hresult, hredundancy]
  refine ⟨_, rfl, hsize', hbuilt'.setInExclusion hbuilt'.groups, ⟨σ, hmat'⟩, hrep', htype', fun hfalse => ?_, rfl⟩
  exact hnum'.trans (huse hfalse)

/-- Whatever is chosen, the matcher finds each subgraph that is isomorphic to the pattern, once if there are pairs
and as often as the pattern has automorphisms if there are none. With inclusion and exclusion the pairs must be
evenly matched. -/
theorem ofPattern_counts :
    ∃ sc, Schedule.ofPattern estimate less .mpi modeling restrictsType useInExclusionOptimize adjMat size = some sc
      ∧ ((useInExclusionOptimize = true → restrictsType ≠ 0 → sc.EvenlyMatched) →
        ∀ g : Graph, g.toGraph.Valid → g.Loaded → size ≤ g.maxIntersectionSize + 1 →
          (maps .edgeInduced g.toGraph size (patternOf adjMat)).card < 2 ^ 63 →
          ∀ {V : Type} [Fintype V] (G : SimpleGraph V), Names g.toGraph G →
          ∀ {threads : ℕ} (schedule : ℕ → Fin threads), patternMatching g sc .mpi schedule
            = some (((if sc.restrictPair.length = 0 then
                Nat.card (patternGraph adjMat size ≃g patternGraph adjMat size) else 1)
              * G.copyCount (patternGraph adjMat size) : ℕ) : ℤ)) := by
  obtain ⟨sc, hsc, rfl, hbuilt, ⟨σ, hmat⟩, hrep, htype, huse, hredundancy⟩ :=
    ofPattern_spec estimate less restrictsType useInExclusionOptimize hpattern hsize horder hlast
  refine ⟨sc, hsc, fun heven g hg hloaded hroom hfew V _ G names threads schedule => ?_⟩
  have hmaps : (maps .edgeInduced g.toGraph sc.size sc.toSchedule).card
      = Nat.card (patternGraph adjMat sc.size ≃g patternGraph adjMat sc.size)
        * G.copyCount (patternGraph adjMat sc.size) := by
    rw [card_maps_reorder hmat, card_maps_eq_mul hpattern names, card_automorphisms_eq hpattern]
    rfl
  rw [← card_maps_reorder hmat] at hfew
  by_cases hnil : sc.restrictPair = []
  · rw [patternMatching_of_nil hbuilt hg hloaded hroom hfew hredundancy schedule hnil, hmaps, hnil,
      List.length_nil, if_pos rfl]
  · replace hrep := hrep.resolve_left hnil
    have hmatched : sc.EvenlyMatched := by
      cases huse' : useInExclusionOptimize with
      | false => exact evenlyMatched_of_zero hrep (huse huse')
      | true => exact heven huse' fun hzero => hnil (htype hzero)
    have hclasses := @card_mul_embeddings_eq .edgeInduced g.toGraph sc.toSchedule sc.size hrep
    have hpos : 0 < Nat.card ((patternOf adjMat).automorphisms sc.size) := Nat.card_pos
    rw [hmaps, card_automorphisms_reorder hmat] at hclasses
    rw [card_automorphisms_eq hpattern] at hclasses hpos
    rw [patternMatching_of_evenlyMatched hbuilt hg hloaded hroom hfew hredundancy schedule hrep hmatched,
      if_neg (fun hlength => hnil (List.length_eq_zero_iff.mp hlength)), one_mul,
      Nat.eq_of_mul_eq_mul_left hpos hclasses]

/-- With inclusion and exclusion the matcher returns on all graphs what the loops return exactly when the pairs are
evenly matched, provided that as many copies of the pattern as it has automorphisms are not too large. -/
theorem ofPattern_groups_iff
    (hfits : Nat.card ((patternOf adjMat).automorphisms size) * (size * size) < 2 ^ 31) :
    ∃ sc, Schedule.ofPattern estimate less .mpi modeling restrictsType useInExclusionOptimize adjMat size = some sc
      ∧ ((∀ g : Graph, g.toGraph.Valid → g.Loaded → size ≤ g.maxIntersectionSize + 1 →
          (maps .edgeInduced g.toGraph size (patternOf adjMat)).card < 2 ^ 63 →
          ∀ {threads threads' : ℕ} (schedule : ℕ → Fin threads) (schedule' : ℕ → Fin threads'),
            patternMatching g sc .mpi schedule = patternMatching g
              { sc with inExclusionOptimizeNum := 0, inExclusionOptimizeRedundancy := 1 } .mpi schedule')
        ↔ sc.EvenlyMatched) := by
  obtain ⟨sc, hsc, rfl, hbuilt, ⟨σ, hmat⟩, hrep, -, -, hredundancy⟩ :=
    ofPattern_spec estimate less restrictsType useInExclusionOptimize hpattern hsize horder hlast
  refine ⟨sc, hsc, ?_⟩
  have hloops : ∀ g : Graph, g.toGraph.Valid → g.Loaded → sc.size ≤ g.maxIntersectionSize + 1 →
      (maps .edgeInduced g.toGraph sc.size sc.toSchedule).card < 2 ^ 63 →
      ∀ {threads : ℕ} (schedule : ℕ → Fin threads), patternMatching g
          { sc with inExclusionOptimizeNum := 0, inExclusionOptimizeRedundancy := 1 } .mpi schedule
        = some ((embeddings .edgeInduced g.toGraph sc.size sc.toSchedule).card : ℤ) := by
    intro g hg hloaded hroom hfew threads schedule
    have hcounted : (embeddings .edgeInduced g.toGraph sc.size sc.toSchedule).card < 2 ^ 63 := by
      rw [card_embeddings_eq]
      exact (Finset.card_filter_le _ _).trans_lt hfew
    rw [patternMatching_loops hbuilt hg hloaded hroom schedule, longLong_natCast_iff.mpr hcounted]
  by_cases hnil : sc.restrictPair = []
  · refine iff_of_true (fun g hg hloaded hroom hfew threads threads' schedule schedule' => ?_)
      (evenlyMatched_of_nil hnil)
    rw [← card_maps_reorder hmat] at hfew
    rw [patternMatching_of_nil hbuilt hg hloaded hroom hfew hredundancy schedule hnil,
      hloops g hg hloaded hroom hfew schedule', card_embeddings_eq, hnil,
      Finset.filter_true_of_mem fun f _ a b hab => absurd hab List.not_mem_nil]
  · replace hrep := hrep.resolve_left hnil
    constructor
    · intro hall
      rw [← card_automorphisms_reorder hmat] at hfits
      apply evenlyMatched_of_agree hbuilt hsize hrep hredundancy hfits
      intro g hg hloaded hroom hfew
      rw [← hloops g hg hloaded hroom hfew oneThread]
      rw [card_maps_reorder hmat] at hfew
      exact hall g hg hloaded hroom hfew oneThread oneThread
    · intro heven g hg hloaded hroom hfew threads threads' schedule schedule'
      rw [← card_maps_reorder hmat] at hfew
      rw [patternMatching_of_evenlyMatched hbuilt hg hloaded hroom hfew hredundancy schedule hrep heven,
        hloops g hg hloaded hroom hfew schedule']

end

/-- The complete graph on four vertices has the names of its vertices. -/
def tetrahedronNames : Names tetrahedron.toGraph (⊤ : SimpleGraph (Fin 4)) where
  number := Equiv.refl _
  adj_iff := by decide

theorem ofPattern_counts_triangle : ∃ sc,
    Schedule.ofPattern (fun _ _ _ => 0) (fun a b : ℕ => decide (a < b)) .mpi 1 2 false "011101110".toList 3 = some sc
    ∧ patternMatching tetrahedron sc .mpi (fun v => Fin.ofNat 2 v)
      = some (((if sc.restrictPair.length = 0 then
          Nat.card (patternGraph "011101110".toList 3 ≃g patternGraph "011101110".toList 3) else 1)
        * (⊤ : SimpleGraph (Fin 4)).copyCount (patternGraph "011101110".toList 3) : ℕ) : ℤ) := by
  have hfew : (maps .edgeInduced tetrahedron.toGraph 3 (patternOf "011101110".toList)).card < 2 ^ 63 := by
    decide +kernel
  obtain ⟨sc, hsc, hall⟩ := ofPattern_counts (fun _ _ _ => 0) (fun a b : ℕ => decide (a < b)) 2 false
    isPattern_triangle (by decide) (show HasOrder 1 _ _ from connected_triangle)
    (fun huse => absurd huse Bool.false_ne_true)
  refine ⟨sc, hsc, ?_⟩
  exact hall (fun huse => absurd huse Bool.false_ne_true) tetrahedron valid_tetrahedron loaded_tetrahedron
    (by decide) hfew _ tetrahedronNames _

theorem ofPattern_groups_iff_fork : ∃ sc,
    Schedule.ofPattern (fun _ _ _ => 0) (fun a b : ℕ => decide (a < b)) .mpi 1 1 true "011100100".toList 3 = some sc
    ∧ ((∀ g : Graph, g.toGraph.Valid → g.Loaded → 3 ≤ g.maxIntersectionSize + 1 →
        (maps .edgeInduced g.toGraph 3 (patternOf "011100100".toList)).card < 2 ^ 63 →
        ∀ {threads threads' : ℕ} (schedule : ℕ → Fin threads) (schedule' : ℕ → Fin threads'),
          patternMatching g sc .mpi schedule = patternMatching g
            { sc with inExclusionOptimizeNum := 0, inExclusionOptimizeRedundancy := 1 } .mpi schedule')
      ↔ sc.EvenlyMatched) := by
  have hfits : Nat.card ((patternOf "011100100".toList).automorphisms 3) * (3 * 3) < 2 ^ 31 := by
    rw [Nat.card_eq_fintype_card]
    decide +kernel
  exact ofPattern_groups_iff (fun _ _ _ => 0) (fun a b : ℕ => decide (a < b)) 1 true isPattern_fork (by decide)
    (show HasOrder 1 _ _ from connected_fork) (fun _ => fewLast_of_le (by decide)) hfits

end GraphPi

end GraphMini
