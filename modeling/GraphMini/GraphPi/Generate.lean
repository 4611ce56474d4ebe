import GraphMini.GraphPi.MatchingSpec

/-!
# The sets of pairs that are kept

`restricts_generate` runs the matcher on the complete graph with one vertex more than the pattern, and keeps
the sets of pairs with which it counts a whole class of automorphic maps once. The maps into that graph are
the orderings of the pattern vertices, for each vertex that is left out. So a set is kept exactly when it
leaves one representative of each class; but with the stubs nothing is ever counted and each set is kept.
From 13 vertices on the number of the orders is none that the assertions accept, and nothing is generated.
-/

namespace GraphMini

namespace GraphPi

open Equiv SymmetryBreaking

/-- The pairs are tried by one thread. -/
def oneThread (_ : ℕ) : Fin 1 := 0

/-- `restricts_generate`. The loop erases the sets with another answer. -/
def restrictsGenerate (library : Graphmpi) (curAdjMat : List Char) (size : ℕ) :
    Option (List (List (ℕ × ℕ))) := do
  let schedule := Schedule.ofMat curAdjMat size
  -- the isomorphisms are listed for the sets of pairs, and once more for the multiplicity
  guard (ordersCounted schedule.size)
  let complete ← loadComplete (size + 1)
  let total ← patternMatching complete schedule library oneThread
  let ans := total.tdiv schedule.getMultiplicity
  (aggressiveOptimizeGetAllPairs schedule.adjMat schedule.size).filterM fun restricts => do
    let curSchedule := (Schedule.ofMat schedule.adjMat schedule.size).addRestrict restricts
    let curAns ← patternMatching complete curSchedule library oneThread
    some (curAns == ans)

/-! ### The maps into a complete graph -/

section

variable {n : ℕ} (pair : ℕ → ℕ → Prop) [∀ a b, Decidable (pair a b)]

/-- An injective map into one vertex more leaves a vertex out and orders the pattern vertices. -/
theorem card_injective_succ :
    (({f | Function.Injective f} : Finset (Fin n → Fin (n + 1))).filter (Obeys pair)).card
      = (n + 1) * (Schedule.orderings n pair).card := by
  have hobeys : ∀ (m : Fin (n + 1)) (σ : Perm (Fin n)),
      Obeys pair (fun i => m.succAbove (σ i)) ↔ Obeys pair σ := by
    intro m σ
    apply obeys_iff_of_order
    intro i j
    exact Fin.succAbove_lt_succAbove_iff
  symm
  calc (n + 1) * (Schedule.orderings n pair).card
      = ((Finset.univ : Finset (Fin (n + 1))) ×ˢ Schedule.orderings n pair).card := by
        rw [Finset.card_product, Finset.card_univ, Fintype.card_fin]
    _ = _ := by
        apply Finset.card_nbij fun (p : Fin (n + 1) × Perm (Fin n)) i => p.1.succAbove (p.2 i)
        · rintro ⟨m, σ⟩ hp
          rw [Finset.coe_product, Set.mem_prod, Finset.mem_coe, Finset.mem_coe, mem_orderings] at hp
          rw [Finset.mem_coe, Finset.mem_filter, Finset.mem_filter]
          refine ⟨⟨Finset.mem_univ _, ?_⟩, (hobeys m σ).mpr hp.2⟩
          exact Fin.succAbove_right_injective.comp σ.injective
        · rintro ⟨m, σ⟩ - ⟨m', σ'⟩ - heq
          have hleft : m = m' := by
            by_contra hne
            obtain ⟨i, hi⟩ := Fin.exists_succAbove_eq hne
            have hm : m.succAbove (σ (σ'.symm i)) = m'.succAbove i := by
              simpa using congrFun heq (σ'.symm i)
            exact Fin.succAbove_ne m _ (hm.trans hi)
          subst hleft
          apply Prod.ext
          · rfl
          · apply Equiv.ext
            intro i
            exact Fin.succAbove_right_injective (congrFun heq i)
        · intro f hf
          rw [Finset.mem_coe, Finset.mem_filter, Finset.mem_filter] at hf
          obtain ⟨⟨-, hinj⟩, hf⟩ := hf
          obtain ⟨m, hm⟩ : ∃ m, ∀ i, f i ≠ m := by
            by_contra hall
            push Not at hall
            have hle := Fintype.card_le_of_surjective f hall
            rw [Fintype.card_fin, Fintype.card_fin] at hle
            omega
          choose place hplace using fun i => Fin.exists_succAbove_eq (hm i)
          have hinjective : Function.Injective place := by
            intro i j hij
            apply hinj
            rw [← hplace i, ← hplace j, hij]
          refine ⟨(m, Equiv.ofBijective place (Finite.injective_iff_bijective.mp hinjective)), ?_, funext hplace⟩
          rw [Finset.coe_product, Set.mem_prod, Finset.mem_coe, Finset.mem_coe, mem_orderings]
          refine ⟨Finset.mem_univ _, (hobeys m _).mp ?_⟩
          have hsame : (fun i => m.succAbove (place i)) = f := funext hplace
          simpa [hsame] using hf

/-- In a complete graph each injective map is a map of the pattern. -/
theorem card_maps_complete {g : GraphMini.Graph} {sc : GraphMini.Schedule} {size : ℕ} (hsc : sc.Connected size)
    (hsize : g.numVertex = n) (hadj : ∀ v < n, ∀ w, g.Adj v w ↔ w < n ∧ w ≠ v) :
    ((maps .edgeInduced g size sc).filter (Obeys pair)).card
      = (({f | Function.Injective f} : Finset (Fin size → Fin n)).filter (Obeys pair)).card := by
  symm
  apply Finset.card_nbij fun (f : Fin size → Fin n) i => (f i).val
  · intro f hf
    rw [Finset.mem_coe, Finset.mem_filter, Finset.mem_filter] at hf
    rw [Finset.mem_coe, Finset.mem_filter, mem_maps]
    refine ⟨⟨fun i => hsize ▸ (f i).isLt, Fin.val_injective.comp hf.1.2, ?_, fun hv => absurd hv (by decide)⟩,
      fun a b hab => hf.2 a b hab⟩
    intro i j hmark
    rw [hadj _ (f i).isLt]
    refine ⟨(f j).isLt, fun heq => hsc.loopless i i.isLt ?_⟩
    rwa [hf.1.2 (Fin.val_injective heq)] at hmark
  · intro f _ f' _ heq
    funext i
    exact Fin.val_injective (congrFun heq i)
  · intro f hf
    rw [Finset.mem_coe, Finset.mem_filter, mem_maps] at hf
    obtain ⟨⟨hlt, hmaps⟩, hobeys⟩ := hf
    refine ⟨fun i => ⟨f i, hsize ▸ hlt i⟩, ?_, rfl⟩
    rw [Finset.mem_coe, Finset.mem_filter, Finset.mem_filter]
    refine ⟨⟨Finset.mem_univ _, fun i j heq => hmaps.injective (congrArg Fin.val heq)⟩, ?_⟩
    exact fun a b hab => hobeys a b hab

end

/-! ### The schedules that are tried -/

section

variable {sc : GraphMini.Schedule} {size : ℕ} {restricts : List (ℕ × ℕ)}

/-- `add_restrict` completes a schedule for the matcher. -/
theorem built_addRestrict {sc : Schedule} (hconnected : sc.toSchedule.Connected sc.size)
    (hprefixes : BuildsPrefixes sc.adjMat sc.size (sc.prefixes, sc.loopSetPrefixId))
    (hgroups : sc.inExclusionOptimizeNum ≠ 0 →
      InclusionExclusion.Coefficients sc.inExclusionOptimizeNum sc.inExclusionOptimizeVal
        sc.inExclusionOptimizeGroup ∧ sc.toSchedule.LastApart sc.size)
    (hbelow : Below sc.size restricts) : (sc.addRestrict restricts).Built where
  connected :=
    ⟨hconnected.three_le, hconnected.le_maxSize, hconnected.length, hconnected.symm, hconnected.loopless,
      hconnected.connected⟩
  prefixes := hprefixes
  restrictLast _ _ := mem_restrictLast
  restrictNone := List.length_eq_zero_iff.mp
  below := below_addRestrict hbelow
  groups := hgroups

/-- No set is generated for a pattern whose orders are too many for an `unsigned int`. -/
theorem restrictsGenerate_none (library : Graphmpi) (adjMat : List Char) (hsize : 12 < size) :
    restrictsGenerate library adjMat size = none := by
  have hnot : ¬ ordersCounted size = true := by
    rw [ordersCounted_iff]
    omega
  rw [restrictsGenerate]
  simp only [Schedule.ofMat, guard, hnot]
  rfl

variable (hsc : sc.Connected size)

include hsc

theorem built_ofMat (hbelow : Below size restricts) :
    ((Schedule.ofMat sc.adjMat size).addRestrict restricts).Built := by
  apply built_addRestrict
  · exact ⟨hsc.three_le, hsc.le_maxSize, hsc.length, hsc.symm, hsc.loopless, hsc.connected⟩
  · exact buildsPrefixes sc.adjMat size
  · exact fun hne => absurd rfl hne
  · exact hbelow

variable (hsize : size ≤ 12)

include hsize

/-- The matcher counts on the complete graph with one vertex more. -/
theorem patternMatching_complete {complete : Graph} (hload : loadComplete (size + 1) = some complete)
    (hbelow : Below size restricts) :
    patternMatching complete ((Schedule.ofMat sc.adjMat size).addRestrict restricts) .mpi oneThread
      = some (((size + 1) * (Schedule.orderings size fun a b => (a, b) ∈ restricts).card : ℕ) : ℤ) := by
  have hthree := hsc.three_le
  obtain ⟨g, hg, hvertices, hvalid, hadj, hloaded, hroom⟩ := loadComplete_spec (n := size + 1) (by omega) (by omega)
  obtain rfl := Option.some_injective _ (hg.symm.trans hload)
  have hbuilt := built_ofMat hsc hbelow
  have hkept : ∀ f : Fin size → ℕ,
      Obeys ((Schedule.ofMat sc.adjMat size).addRestrict restricts).MatchedPair f
        ↔ Obeys (fun a b => (a, b) ∈ restricts) f := by
    intro f
    rw [← ObeysAll, ← obeysAll_addRestrict (Schedule.ofMat sc.adjMat size) hbelow, ObeysAll]
    apply obeys_congr
    intro a b
    apply and_iff_left_of_imp
    intro hmem
    exact (below_addRestrict hbelow (a, b) hmem).2
  have hconnected : ((Schedule.ofMat sc.adjMat size).addRestrict restricts).Connected size := hbuilt.connected
  have hcard : ((maps .edgeInduced g.toGraph size
      ((Schedule.ofMat sc.adjMat size).addRestrict restricts).toSchedule).filter
      (Obeys ((Schedule.ofMat sc.adjMat size).addRestrict restricts).MatchedPair)).card
        = (size + 1) * (Schedule.orderings size fun a b => (a, b) ∈ restricts).card := by
    rw [Finset.filter_congr fun f _ => hkept f, card_maps_complete _ hconnected hvertices hadj,
      card_injective_succ]
  have hfew : (size + 1) * (Schedule.orderings size fun a b => (a, b) ∈ restricts).card < 2 ^ 63 := by
    calc _ ≤ (12 + 1) * Nat.factorial 12 := Nat.mul_le_mul (by omega)
          ((card_orderings_le _).trans (Nat.factorial_le hsize))
      _ < 2 ^ 63 := by decide
  refine patternMatching_of_one hbuilt hvalid hloaded ?_ oneThread rfl hcard hfew
  rw [hroom]
  exact Nat.le_add_right size 1

/-- What is kept, when the matcher counts each time. -/
theorem restrictsGenerate_of_counts {library : Graphmpi} {complete : Graph} {total : ℤ}
    {count : List (ℕ × ℕ) → ℤ} (hload : loadComplete (size + 1) = some complete)
    (htotal : patternMatching complete (Schedule.ofMat sc.adjMat size) library oneThread = some total)
    (hcount : ∀ restricts ∈ aggressiveOptimizeGetAllPairs sc.adjMat size,
      patternMatching complete ((Schedule.ofMat sc.adjMat size).addRestrict restricts) library oneThread
        = some (count restricts)) :
    restrictsGenerate library sc.adjMat size = some ((aggressiveOptimizeGetAllPairs sc.adjMat size).filter
      fun restricts => count restricts == total.tdiv (Nat.card (sc.automorphisms size))) := by
  have hguard : ordersCounted (Schedule.ofMat sc.adjMat size).size = true := ordersCounted_iff.mpr hsize
  have hmultiplicity : ((Schedule.ofMat sc.adjMat size).getMultiplicity : ℤ)
      = Nat.card (sc.automorphisms size) := by
    rw [← length_getIsomorphismVec hsc.symm hsc.loopless]
    rfl
  rw [restrictsGenerate]
  simp only [guard, hguard, hload, htotal, hmultiplicity, Option.bind_eq_bind, if_true, Option.pure_def,
    Option.bind_some]
  apply Loop.filterM_some
  intro restricts hmem
  calc _ = (patternMatching complete ((Schedule.ofMat sc.adjMat size).addRestrict restricts) library
        oneThread).bind _ := rfl
    _ = _ := by rw [hcount restricts hmem, Option.bind_some]

/-- With the library a set is kept when it leaves one representative of each class. -/
theorem restrictsGenerate_mpi : restrictsGenerate .mpi sc.adjMat size
    = some ((aggressiveOptimizeGetAllPairs sc.adjMat size).filter fun restricts =>
      decide (({ sc with restrictPair := restricts } : GraphMini.Schedule).OneRepresentative size)) := by
  have hthree := hsc.three_le
  obtain ⟨complete, hload, -⟩ := loadComplete_spec (n := size + 1) (by omega) (by omega)
  have hpos : 0 < Nat.card (sc.automorphisms size) := Nat.card_pos
  have hdvd : Nat.card (sc.automorphisms size) ∣ size.factorial := by
    have hperm : Nat.card (Perm (Fin size)) = size.factorial := by
      rw [Nat.card_eq_fintype_card, Fintype.card_perm, Fintype.card_fin]
    rw [← hperm]
    exact Subgroup.card_subgroup_dvd_card _
  have hall : (Schedule.orderings size fun a b => (a, b) ∈ ([] : List (ℕ × ℕ))).card = size.factorial := by
    rw [← card_injective, ← card_orderings]
    congr 1
    exact Finset.filter_true_of_mem fun f _ a b hab => absurd hab List.not_mem_nil
  have htotal : patternMatching complete (Schedule.ofMat sc.adjMat size) .mpi oneThread
      = some (((size + 1) * size.factorial : ℕ) : ℤ) := by
    have hbelow : Below size [] := fun pair hpair => absurd hpair List.not_mem_nil
    have hcount := patternMatching_complete hsc hsize hload hbelow
    rwa [hall] at hcount
  have hans : (((size + 1) * size.factorial : ℕ) : ℤ).tdiv (Nat.card (sc.automorphisms size))
      = ((size + 1) * (size.factorial / Nat.card (sc.automorphisms size)) : ℕ) := by
    rw [← Int.ofNat_tdiv, Nat.mul_div_assoc _ hdvd]
  rw [restrictsGenerate_of_counts hsc hsize hload htotal fun restricts hmem =>
    patternMatching_complete hsc hsize hload (leavesOne_of_mem hsc.symm hsc.loopless hmem).1, hans]
  congr 1
  apply List.filter_congr
  intro restricts hmem
  let cur : GraphMini.Schedule := { sc with restrictPair := restricts }
  have hcur : LeavesOne cur size cur.restrictPair := leavesOne_of_mem hsc.symm hsc.loopless hmem
  rw [Bool.eq_iff_iff, beq_iff_eq, decide_eq_true_iff]
  calc _ ↔ (size + 1) * (Schedule.orderings size fun a b => (a, b) ∈ restricts).card
        = (size + 1) * (size.factorial / Nat.card (sc.automorphisms size)) := Nat.cast_inj
    _ ↔ (Schedule.orderings size fun a b => (a, b) ∈ restricts).card
        = size.factorial / Nat.card (sc.automorphisms size) := Nat.mul_right_inj (Nat.succ_ne_zero size)
    _ ↔ Nat.card (sc.automorphisms size) * (Schedule.orderings size cur.Pair).card = size.factorial := by
        rw [Nat.eq_div_iff_mul_eq_left hpos.ne' hdvd, mul_comm]
        exact eq_comm
    _ ↔ cur.OneRepresentative size := card_mul_orderings_eq_iff hcur

/-- With the stubs nothing is counted, and every set is kept. -/
theorem restrictsGenerate_stubs :
    restrictsGenerate .stubs sc.adjMat size = some (aggressiveOptimizeGetAllPairs sc.adjMat size) := by
  have hthree := hsc.three_le
  obtain ⟨complete, hload, -, -, -, -, hroom⟩ := loadComplete_spec (n := size + 1) (by omega) (by omega)
  have hzero : ∀ sched : Schedule, BuildsPrefixes sched.adjMat sched.size (sched.prefixes, sched.loopSetPrefixId) →
      sched.size = size → sched.inExclusionOptimizeNum = 0 → sched.inExclusionOptimizeRedundancy = 1 →
      patternMatching complete sched .stubs oneThread = some 0 := by
    intro sched hprefixes hsched hnum hone
    exact patternMatching_stubs hprefixes (by omega) (by omega) (by omega) hone oneThread
  have hbuilds := buildsPrefixes sc.adjMat size
  rw [restrictsGenerate_of_counts hsc hsize hload (hzero _ hbuilds rfl rfl rfl) fun restricts _ =>
    hzero _ hbuilds rfl rfl rfl, Int.zero_tdiv]
  congr 1
  exact List.filter_eq_self.mpr fun restricts _ => rfl

/-- The sets that are kept are sets of the search. -/
theorem exists_restrictsGenerate (library : Graphmpi) :
    ∃ kept, restrictsGenerate library sc.adjMat size = some kept
      ∧ ∀ restricts ∈ kept, LeavesOne sc size restricts := by
  cases library with
  | mpi =>
      refine ⟨_, restrictsGenerate_mpi hsc hsize, fun restricts hmem => ?_⟩
      exact leavesOne_of_mem hsc.symm hsc.loopless (List.mem_filter.mp hmem).1
  | stubs =>
      refine ⟨_, restrictsGenerate_stubs hsc hsize, fun restricts hmem => ?_⟩
      exact leavesOne_of_mem hsc.symm hsc.loopless hmem

end

/-! ### The embeddings in any graph -/

section

variable {t : AdjMatType} {g : GraphMini.Graph} {sc : GraphMini.Schedule} {size : ℕ}

/-- With one representative of each class the embeddings are counted once for each automorphism less. -/
theorem card_mul_embeddings_eq (hrep : sc.OneRepresentative size) :
    Nat.card (sc.automorphisms size) * (embeddings t g size sc).card = (maps t g size sc).card := by
  have hpicks : ∀ f ∈ maps t g size sc, Picks (sc.automorphisms size) (Obeys sc.Pair) f := by
    intro f hf
    exact picks_of_injective hrep (mem_maps.mp hf).2.injective
  rw [card_embeddings_eq]
  apply (card_mul_filter_eq_iff (P := Obeys sc.Pair) (fun f hf β hβ => maps_comp hf hβ) ?_).mpr hpicks
  intro f hf
  exact (picks_iff_card.mp (hpicks f hf)).le

/-- The complete graph with the vertices of the pattern tells whether the pairs leave one of each class. -/
theorem oneRepresentative_of_card (hsc : sc.Connected size) (h : LeavesOne sc size sc.restrictPair)
    (hall : ∀ g : GraphMini.Graph, g.Valid →
      Nat.card (sc.automorphisms size) * (embeddings .edgeInduced g size sc).card
        = (maps .edgeInduced g size sc).card) : sc.OneRepresentative size := by
  have hmax := hsc.le_maxSize
  have hthree := hsc.three_le
  obtain ⟨complete, -, hvertices, hvalid, hadj, -⟩ := loadComplete_spec (n := size) (by omega)
    (lt_of_le_of_lt hmax (by decide))
  have hevery := hall complete.toGraph hvalid
  have hnone : ∀ f : Fin size → ℕ, Obeys (fun _ _ => False) f := fun f a b hab => hab.elim
  have hnone' : ∀ f : Fin size → Fin size, Obeys (fun _ _ => False) f := fun f a b hab => hab.elim
  rw [card_embeddings_eq, card_maps_complete _ hsc hvertices hadj, card_orderings,
    ← Finset.filter_true_of_mem (p := Obeys fun _ _ => False) (s := maps _ _ _ _) fun f _ => hnone f,
    card_maps_complete _ hsc hvertices hadj, Finset.filter_true_of_mem fun f _ => hnone' f,
    card_injective] at hevery
  exact (card_mul_orderings_eq_iff h).mp hevery

/-- With the library a set of pairs is kept exactly when it breaks the symmetry of the pattern in every graph. -/
theorem kept_iff_breaks_symmetry (hsc : sc.Connected size) (hsize : size ≤ 12) :
    ∃ kept, restrictsGenerate .mpi sc.adjMat size = some kept
      ∧ ∀ restricts, restricts ∈ kept ↔ restricts ∈ aggressiveOptimizeGetAllPairs sc.adjMat size
        ∧ ∀ g : GraphMini.Graph, g.Valid →
          Nat.card (sc.automorphisms size)
              * (embeddings .edgeInduced g size { sc with restrictPair := restricts }).card
            = (maps .edgeInduced g size { sc with restrictPair := restricts }).card := by
  refine ⟨_, restrictsGenerate_mpi hsc hsize, fun restricts => ?_⟩
  rw [List.mem_filter, decide_eq_true_iff]
  apply and_congr_right
  intro hmem
  let cur : GraphMini.Schedule := { sc with restrictPair := restricts }
  have hcur : cur.Connected size :=
    ⟨hsc.three_le, hsc.le_maxSize, hsc.length, hsc.symm, hsc.loopless, hsc.connected⟩
  have hleaves : LeavesOne cur size cur.restrictPair := leavesOne_of_mem hsc.symm hsc.loopless hmem
  constructor
  · exact fun hrep g _ => @card_mul_embeddings_eq _ g cur _ hrep
  · exact oneRepresentative_of_card hcur hleaves

end

theorem kept_iff_breaks_symmetry_triangle : ∃ kept, restrictsGenerate .mpi orderedTriangle.adjMat 3 = some kept
    ∧ ∀ restricts, restricts ∈ kept ↔ restricts ∈ aggressiveOptimizeGetAllPairs orderedTriangle.adjMat 3
      ∧ ∀ g : GraphMini.Graph, g.Valid →
        Nat.card (orderedTriangle.automorphisms 3)
            * (embeddings .edgeInduced g 3 { orderedTriangle with restrictPair := restricts }).card
          = (maps .edgeInduced g 3 { orderedTriangle with restrictPair := restricts }).card :=
  kept_iff_breaks_symmetry inOrder_orderedTriangle.connects (by decide)

end GraphPi

end GraphMini
