import GraphMini.GraphPi.Dag
import GraphMini.GraphPi.Permutation

/-!
# The restrictions of a pattern

`Schedule::aggressive_optimize_get_all_pairs`: a pair is put down for an isomorphism that exchanges two
vertices, and the isomorphisms that cannot lead from one ordering that keeps the pairs to another are
erased, until one is left. Each way to choose the pairs gives one set of restrictions, and no set leaves two
orderings that an automorphism takes to each other. That it leaves one of them is not promised here.
-/

namespace GraphMini

namespace GraphPi

open Equiv SymmetryBreaking

/-- The entries of `isomorphism_vec` and `permutation_groups` at one place. -/
abbrev Isomorphism := List ℕ × List (List ℕ)

/-- The cycles of two vertices are counted and the last one is found; a longer cycle ends the loop. -/
def countTwo : List (List ℕ) → ℤ → ℕ × ℕ → ℤ × (ℕ × ℕ)
  | [], twoElementNumber, foundPair => (twoElementNumber, foundPair)
  | v :: rest, twoElementNumber, foundPair =>
      if v.length = 2 then countTwo rest (twoElementNumber + 1) (v.getD 0 0, v.getD 1 0)
      else if v.length ≠ 1 then (-1, foundPair)
      else countTwo rest twoElementNumber foundPair

/-- The isomorphisms that exchange two vertices and no others become pairs. -/
def takeExchanges (isos : List Isomorphism) : List Isomorphism × List (ℕ × ℕ) :=
  isos.foldl
    (fun state iso =>
      let (twoElementNumber, foundPair) := countTwo iso.2 0 (0, 0)
      if twoElementNumber = 1 then (state.1, state.2 ++ [foundPair]) else (state.1 ++ [iso], state.2))
    ([], [])

/-- The pairs and their images are the edges. -/
def testDag (baseDag : Pattern) (iso : List ℕ) (orderedPairs : List (ℕ × ℕ)) : Pattern :=
  orderedPairs.foldl (fun dag pair => dag.addOrderedEdge (iso.getD pair.1 0) (iso.getD pair.2 0)) baseDag

/-- `aggressive_optimize_dfs`. Every call has one isomorphism less. -/
def aggressiveOptimizeDfs : ℕ → Pattern → List Isomorphism → List (ℕ × ℕ) → List (List (ℕ × ℕ))
  | 0, _, _, _ => []
  | fuel + 1, baseDag, isos, orderedPairs =>
      let isos := isos.filter fun iso => (testDag baseDag iso.1 orderedPairs).isDag
      if isos.length = 1 then [orderedPairs]
      else
        match isos.findIdx? fun iso => iso.2.any fun v => v.length == 2 with
        | none => []
        | some i =>
            ((isos.getD i ([], [])).2.filter fun v => v.length == 2).flatMap fun v =>
              let foundPair := (v.getD 0 0, v.getD 1 0)
              aggressiveOptimizeDfs fuel (baseDag.addOrderedEdge foundPair.1 foundPair.2) (isos.eraseIdx i)
                (orderedPairs ++ [foundPair])

def aggressiveOptimizeGetAllPairs (adjMat : List Char) (size : ℕ) : List (List (ℕ × ℕ)) :=
  let isos := (getIsomorphismVec adjMat size).map fun v => (v, calcPermutationGroup v size)
  let (isos, orderedPairs) := takeExchanges isos
  let baseDag := orderedPairs.foldl (fun dag pair => dag.addOrderedEdge pair.1 pair.2) (Pattern.init size)
  aggressiveOptimizeDfs (isos.length + 1) baseDag isos orderedPairs

/-- What the loop has put down as pairs is kept. -/
def ObeysAll {α : Type} [LT α] {size : ℕ} (pairs : List (ℕ × ℕ)) (f : Fin size → α) : Prop :=
  Obeys (fun a b => (a, b) ∈ pairs) f

/-- No ordering keeps the pairs together with its image. -/
def Excluded {size : ℕ} (pairs : List (ℕ × ℕ)) (β : Perm (Fin size)) : Prop :=
  ∀ σ : Perm (Fin size), ObeysAll pairs σ → ¬ ObeysAll pairs (σ ∘ β)

/-- A pair is of two vertices in their order. -/
def Below (size : ℕ) (pairs : List (ℕ × ℕ)) : Prop := ∀ pair ∈ pairs, pair.1 < pair.2 ∧ pair.2 < size

section

variable {size : ℕ} {pairs pairs' : List (ℕ × ℕ)} {β : Perm (Fin size)} {a b : Fin size}

theorem ObeysAll.mono {α : Type} [LT α] {f : Fin size → α} (h : ObeysAll pairs' f)
    (hsub : ∀ pair ∈ pairs, pair ∈ pairs') : ObeysAll pairs f :=
  fun a b hab => h a b (hsub _ hab)

theorem Excluded.mono (h : Excluded pairs β) (hsub : ∀ pair ∈ pairs, pair ∈ pairs') : Excluded pairs' β :=
  fun σ hσ hβ => h σ (hσ.mono hsub) (hβ.mono hsub)

/-- A pair excludes what exchanges its vertices. -/
theorem excluded_of_exchanges (hab : β a = b) (hba : β b = a) (hpair : (a.val, b.val) ∈ pairs) :
    Excluded pairs β := by
  intro σ hσ hβ
  have hforth : σ b < σ a := hσ a b hpair
  have hback : σ (β b) < σ (β a) := hβ a b hpair
  rw [hab, hba] at hback
  exact lt_asymm hforth hback

theorem Below.append (h : Below size pairs) (hab : a < b) : Below size (pairs ++ [(a.val, b.val)]) := by
  intro pair hpair
  rcases List.mem_append.mp hpair with hpair | hpair
  · exact h pair hpair
  · rw [List.mem_singleton.mp hpair]
    exact ⟨hab, b.isLt⟩

end

/-! ### The test -/

section

variable {size : ℕ} {p : Pattern} {pairs : List (ℕ × ℕ)} {β : Perm (Fin size)}

theorem size_foldl_addOrderedEdge (place : ℕ → ℕ) :
    (pairs.foldl (fun dag pair => dag.addOrderedEdge (place pair.1) (place pair.2)) p).size = p.size := by
  induction pairs generalizing p with
  | nil => rfl
  | cons pair pairs ih => exact ih

theorem edge_foldl_addOrderedEdge (place : ℕ → ℕ) {i j : ℕ} (hplace : ∀ x < p.size, place x < p.size)
    (hpairs : ∀ pair ∈ pairs, pair.1 < p.size ∧ pair.2 < p.size) (hj : j < p.size) :
    (pairs.foldl (fun dag pair => dag.addOrderedEdge (place pair.1) (place pair.2)) p).Edge i j ↔
      p.Edge i j ∨ ∃ pair ∈ pairs, place pair.1 = i ∧ place pair.2 = j := by
  induction pairs generalizing p with
  | nil => simp
  | cons pair pairs ih =>
      obtain ⟨hfirst, hsecond⟩ := hpairs pair List.mem_cons_self
      rw [List.foldl_cons, ih (p := p.addOrderedEdge (place pair.1) (place pair.2)) hplace
        (fun pair' hpair' => hpairs pair' (List.mem_cons_of_mem pair hpair')) hj,
        Pattern.edge_addOrderedEdge (hplace _ hfirst) (hplace _ hsecond) hj]
      simp only [List.mem_cons, exists_eq_or_imp]
      tauto

/-- An isomorphism that fails the test is excluded: two orderings would give ranks along the edges. -/
theorem excluded_of_not_isDag (hsize : p.size = size)
    (hedge : ∀ i j, j < size → (p.Edge i j ↔ (i, j) ∈ pairs)) (hpairs : Below size pairs)
    (htest : (testDag p (vecOf β) pairs).isDag = false) : Excluded pairs β := by
  intro σ hσ hβ
  have hbound : ∀ pair ∈ pairs, pair.1 < p.size ∧ pair.2 < p.size := by
    intro pair hpair
    obtain ⟨hlt, hsecond⟩ := hpairs pair hpair
    exact ⟨by omega, by omega⟩
  have hplace : ∀ x < p.size, (vecOf β).getD x 0 < p.size := by
    intro x hx
    rw [hsize]
    exact vecOf_lt (by omega)
  have hsame : (testDag p (vecOf β) pairs).size = size :=
    (size_foldl_addOrderedEdge fun x => (vecOf β).getD x 0).trans hsize
  apply Bool.eq_false_iff.mp htest
  rw [isDag_iff]
  refine ⟨fun i => if hi : i < size then size - σ ⟨i, hi⟩ else 0, fun i hi j hj h => ?_⟩
  rw [hsame] at hi hj
  rw [testDag, edge_foldl_addOrderedEdge _ hplace hbound (by omega), hedge i j hj] at h
  simp only [hi, hj, dif_pos]
  have hlt : σ ⟨j, hj⟩ < σ ⟨i, hi⟩ := by
    rcases h with hpair | ⟨pair, hpair, rfl, rfl⟩
    · exact hσ ⟨i, hi⟩ ⟨j, hj⟩ hpair
    · obtain ⟨hfirst, hsecond⟩ := hpairs pair hpair
      have hback := hβ ⟨pair.1, hfirst.trans hsecond⟩ ⟨pair.2, hsecond⟩ hpair
      simp only [Function.comp_apply] at hback
      convert hback using 2
      · exact Fin.ext (vecOf_getD (σ := β) ⟨pair.2, hsecond⟩)
      · exact Fin.ext (vecOf_getD (σ := β) ⟨pair.1, hfirst.trans hsecond⟩)
  have hbelow := (σ ⟨i, hi⟩).isLt
  rw [Fin.lt_def] at hlt
  omega

end

/-! ### The sets of restrictions -/

section

variable {sc : GraphMini.Schedule} {size fuel : ℕ} {isos : List Isomorphism} {pairs pairs' : List (ℕ × ℕ)}
  {baseDag : Pattern} {found : ℕ × ℕ}

/-- The cycles are those of an automorphism. -/
def OfAutomorphism (sc : GraphMini.Schedule) (size : ℕ) (iso : Isomorphism) : Prop :=
  ∃ β ∈ sc.automorphisms size, iso = (vecOf β, calcPermutationGroup (vecOf β) size)

/-- An automorphism is still there or the pairs exclude it. -/
def Covers (sc : GraphMini.Schedule) (size : ℕ) (isos : List Isomorphism) (pairs : List (ℕ × ℕ)) : Prop :=
  ∀ β ∈ sc.automorphisms size, (vecOf β, calcPermutationGroup (vecOf β) size) ∈ isos ∨ Excluded pairs β

/-- The edges of the graph are the pairs. -/
structure HasPairs (size : ℕ) (baseDag : Pattern) (pairs : List (ℕ × ℕ)) : Prop where
  size_eq : baseDag.size = size
  edge : ∀ i j, j < size → (baseDag.Edge i j ↔ (i, j) ∈ pairs)

/-- All automorphisms but one are excluded. -/
def LeavesOne (sc : GraphMini.Schedule) (size : ℕ) (pairs : List (ℕ × ℕ)) : Prop :=
  Below size pairs ∧ ∃ δ : Perm (Fin size), ∀ β ∈ sc.automorphisms size, β = δ ∨ Excluded pairs β

/-- An exchange of two vertices that the cycles show is put down as a pair that excludes it. -/
theorem OfAutomorphism.excluded {iso : Isomorphism} (h : OfAutomorphism sc size iso) {v : List ℕ}
    (hv : v ∈ iso.2) (hlength : v.length = 2) :
    ∃ a b : Fin size, a < b ∧ (v.getD 0 0, v.getD 1 0) = (a.val, b.val) ∧
      ∀ pairs, (a.val, b.val) ∈ pairs → ∀ β : Perm (Fin size),
        (vecOf β, calcPermutationGroup (vecOf β) size) = iso → Excluded pairs β := by
  obtain ⟨β, hβ, rfl⟩ := h
  obtain ⟨a, b, hlt, rfl, hab, hba⟩ := exchanges_of_mem hv hlength
  refine ⟨a, b, hlt, rfl, fun pairs hpair γ hγ => ?_⟩
  have hsame : γ = β := vecOf_injective (congrArg Prod.fst hγ)
  rw [hsame]
  exact excluded_of_exchanges hab hba hpair

theorem HasPairs.append (h : HasPairs size baseDag pairs) {a b : Fin size} :
    HasPairs size (baseDag.addOrderedEdge a b) (pairs ++ [(a.val, b.val)]) where
  size_eq := h.size_eq
  edge i j hj := by
    rw [Pattern.edge_addOrderedEdge (h.size_eq.symm ▸ a.isLt) (h.size_eq.symm ▸ b.isLt) (h.size_eq.symm ▸ hj),
      h.edge i j hj, List.mem_append, List.mem_singleton, Prod.mk.injEq, or_comm]
    tauto

/-- What the test erases is excluded. -/
theorem Covers.filter (h : Covers sc size isos pairs) (hdag : HasPairs size baseDag pairs)
    (hpairs : Below size pairs) :
    Covers sc size (isos.filter fun iso => (testDag baseDag iso.1 pairs).isDag) pairs := by
  intro β hβ
  rcases h β hβ with hin | hexcluded
  · cases htest : (testDag baseDag (vecOf β) pairs).isDag with
    | true => exact Or.inl (List.mem_filter.mpr ⟨hin, htest⟩)
    | false => exact Or.inr (excluded_of_not_isDag hdag.size_eq hdag.edge hpairs htest)
  · exact Or.inr hexcluded

theorem mem_eraseIdx_or {α : Type} {l : List α} {x : α} (hx : x ∈ l) (i : ℕ) :
    x ∈ l.eraseIdx i ∨ l[i]? = some x := by
  obtain ⟨j, hj, rfl⟩ := List.mem_iff_getElem.mp hx
  rcases eq_or_ne j i with rfl | hne
  · exact Or.inr (List.getElem?_eq_getElem hj)
  · left
    rw [List.mem_eraseIdx_iff_getElem]
    exact ⟨j, hj, hne, rfl⟩

/-- An isomorphism that the new pair excludes is erased. -/
theorem Covers.erase (h : Covers sc size isos pairs) {iso : Isomorphism} {i : ℕ} (hi : isos[i]? = some iso)
    (hexcluded : ∀ β : Perm (Fin size), (vecOf β, calcPermutationGroup (vecOf β) size) = iso →
      Excluded (pairs ++ [found]) β) :
    Covers sc size (isos.eraseIdx i) (pairs ++ [found]) := by
  intro β hβ
  rcases h β hβ with hin | hβ
  · rcases mem_eraseIdx_or hin i with hin | hat
    · exact Or.inl hin
    · rw [hi, Option.some_inj] at hat
      exact Or.inr (hexcluded β hat.symm)
  · exact Or.inr (hβ.mono fun pair hpair => List.mem_append_left _ hpair)

/-- Each set of restrictions that the search finds excludes all automorphisms but one. -/
theorem leavesOne_of_mem_dfs (hcovers : Covers sc size isos pairs)
    (hisos : ∀ iso ∈ isos, OfAutomorphism sc size iso) (hdag : HasPairs size baseDag pairs)
    (hpairs : Below size pairs) (hmem : pairs' ∈ aggressiveOptimizeDfs fuel baseDag isos pairs) :
    LeavesOne sc size pairs' := by
  induction fuel generalizing baseDag isos pairs with
  | zero => simp [aggressiveOptimizeDfs] at hmem
  | succ fuel ih =>
      rw [aggressiveOptimizeDfs] at hmem
      have hcovers' := hcovers.filter hdag hpairs
      have hisos' : ∀ iso ∈ isos.filter fun iso => (testDag baseDag iso.1 pairs).isDag,
          OfAutomorphism sc size iso := fun iso hiso => hisos iso (List.mem_filter.mp hiso).1
      generalize isos.filter (fun iso => (testDag baseDag iso.1 pairs).isDag) = left at hmem hcovers' hisos'
      split at hmem
      · rename_i hone
        rw [List.mem_singleton] at hmem
        subst hmem
        obtain ⟨iso, hleft⟩ := List.length_eq_one_iff.mp hone
        obtain ⟨δ, hδ, heq⟩ := hisos' iso (hleft ▸ List.mem_singleton_self iso)
        refine ⟨hpairs, δ, fun β hβ => ?_⟩
        rcases hcovers' β hβ with hin | hexcluded
        · rw [hleft, List.mem_singleton, heq] at hin
          exact Or.inl (vecOf_injective (congrArg Prod.fst hin))
        · exact Or.inr hexcluded
      · split at hmem
        · simp at hmem
        · rename_i i hfound
          obtain ⟨hi, -⟩ := List.findIdx?_eq_some_iff_getElem.mp hfound
          have hget : left[i]? = some left[i] := List.getElem?_eq_getElem hi
          obtain ⟨v, hv, hmem⟩ := List.mem_flatMap.mp hmem
          rw [List.mem_filter, List.getD_eq_getElem _ _ hi, beq_iff_eq] at hv
          obtain ⟨a, b, hlt, hpair, hexcludes⟩ :=
            (hisos' left[i] (List.getElem_mem hi)).excluded hv.1 hv.2
          obtain ⟨hfirst, hsecond⟩ := Prod.mk.inj hpair
          simp only [hfirst, hsecond] at hmem
          apply ih (hcovers'.erase hget (hexcludes _ (by simp))) _ hdag.append (hpairs.append hlt) hmem
          exact fun iso hiso => hisos' iso (List.mem_of_mem_eraseIdx hiso)

/-- The pair found is that of the last cycle of two vertices. -/
theorem countTwo_spec {group : List (List ℕ)} {number : ℤ} (h : (countTwo group number found).1 ≠ -1) :
    ((countTwo group number found).1 = number ∧ (countTwo group number found).2 = found) ∨
      ∃ v ∈ group, v.length = 2 ∧ (countTwo group number found).2 = (v.getD 0 0, v.getD 1 0) := by
  induction group generalizing number found with
  | nil => exact Or.inl ⟨rfl, rfl⟩
  | cons v rest ih =>
      rw [countTwo] at h ⊢
      split_ifs at h ⊢ with htwo hone
      · right
        rcases ih h with ⟨-, hsecond⟩ | ⟨w, hw, hlength, hsecond⟩
        · exact ⟨v, List.mem_cons_self, htwo, hsecond⟩
        · exact ⟨w, List.mem_cons_of_mem v hw, hlength, hsecond⟩
      · exact absurd rfl h
      · rcases ih h with hnone | ⟨w, hw, hlength, hsecond⟩
        · exact Or.inl hnone
        · exact Or.inr ⟨w, List.mem_cons_of_mem v hw, hlength, hsecond⟩

/-- What is erased at first is excluded by its pair. -/
theorem takeExchanges_spec (hcovers : Covers sc size isos []) (hisos : ∀ iso ∈ isos, OfAutomorphism sc size iso) :
    Covers sc size (takeExchanges isos).1 (takeExchanges isos).2
      ∧ (∀ iso ∈ (takeExchanges isos).1, OfAutomorphism sc size iso) ∧ Below size (takeExchanges isos).2 := by
  let step : List Isomorphism × List (ℕ × ℕ) → Isomorphism → List Isomorphism × List (ℕ × ℕ) :=
    fun state iso =>
      let (twoElementNumber, foundPair) := countTwo iso.2 0 (0, 0)
      if twoElementNumber = 1 then (state.1, state.2 ++ [foundPair]) else (state.1 ++ [iso], state.2)
  have hfold : ∀ (rest : List Isomorphism) (state : List Isomorphism × List (ℕ × ℕ)),
      Covers sc size (state.1 ++ rest) state.2 → (∀ iso ∈ state.1 ++ rest, OfAutomorphism sc size iso) →
      Below size state.2 →
      Covers sc size (rest.foldl step state).1 (rest.foldl step state).2
        ∧ (∀ iso ∈ (rest.foldl step state).1, OfAutomorphism sc size iso)
        ∧ Below size (rest.foldl step state).2 := by
    intro rest
    induction rest with
    | nil =>
        intro state hcovers hisos hbelow
        rw [List.append_nil] at hcovers hisos
        exact ⟨hcovers, hisos, hbelow⟩
    | cons iso rest ih =>
        intro state hcovers hisos hbelow
        rw [List.foldl_cons]
        by_cases hone : (countTwo iso.2 0 (0, 0)).1 = 1
        · rw [show step state iso = (state.1, state.2 ++ [(countTwo iso.2 0 (0, 0)).2]) from if_pos hone]
          have hiso : OfAutomorphism sc size iso :=
            hisos iso (List.mem_append_right _ List.mem_cons_self)
          obtain ⟨v, hv, hlength, hsecond⟩ : ∃ v ∈ iso.2, v.length = 2 ∧
              (countTwo iso.2 0 (0, 0)).2 = (v.getD 0 0, v.getD 1 0) := by
            have hfound : (countTwo iso.2 0 (0, 0)).1 ≠ -1 := by omega
            rcases countTwo_spec hfound with hnone | hsome
            · omega
            · exact hsome
          obtain ⟨a, b, hlt, hpair, hexcludes⟩ := hiso.excluded hv hlength
          rw [hsecond, hpair]
          apply ih
          · intro β hβ
            rcases hcovers β hβ with hin | hexcluded
            · rcases List.mem_append.mp hin with hin | hin
              · exact Or.inl (List.mem_append_left _ hin)
              · rcases List.mem_cons.mp hin with heq | hin
                · exact Or.inr (hexcludes _ (by simp) β heq)
                · exact Or.inl (List.mem_append_right _ hin)
            · exact Or.inr (hexcluded.mono fun pair hpair => List.mem_append_left _ hpair)
          · intro iso' hiso'
            apply hisos
            rcases List.mem_append.mp hiso' with hin | hin
            · exact List.mem_append_left _ hin
            · exact List.mem_append_right _ (List.mem_cons_of_mem iso hin)
          · exact hbelow.append hlt
        · rw [show step state iso = (state.1 ++ [iso], state.2) from if_neg hone]
          apply ih
          · rwa [List.append_assoc]
          · rwa [List.append_assoc]
          · exact hbelow
  exact hfold isos ([], []) hcovers hisos fun pair hpair => absurd hpair List.not_mem_nil

variable (hsymm : ∀ i < size, ∀ j < size, marked size sc.adjMat i j → marked size sc.adjMat j i)
  (hloopless : ∀ i < size, ¬ marked size sc.adjMat i i)

include hsymm hloopless

/-- Each set of restrictions of the pattern excludes all automorphisms but one. -/
theorem leavesOne_of_mem (hmem : pairs ∈ aggressiveOptimizeGetAllPairs sc.adjMat size) :
    LeavesOne sc size pairs := by
  have hisos : ∀ iso ∈ (getIsomorphismVec sc.adjMat size).map fun v => (v, calcPermutationGroup v size),
      OfAutomorphism sc size iso := by
    intro iso hiso
    obtain ⟨v, hv, rfl⟩ := List.mem_map.mp hiso
    obtain ⟨β, hβ, rfl⟩ := (mem_getIsomorphismVec hsymm hloopless).mp hv
    exact ⟨β, hβ, rfl⟩
  have hcovers : Covers sc size
      ((getIsomorphismVec sc.adjMat size).map fun v => (v, calcPermutationGroup v size)) [] := by
    intro β hβ
    apply Or.inl
    apply List.mem_map_of_mem (f := fun v => (v, calcPermutationGroup v size))
    exact (mem_getIsomorphismVec hsymm hloopless).mpr ⟨β, hβ, rfl⟩
  obtain ⟨hcovers', hisos', hbelow⟩ := takeExchanges_spec hcovers hisos
  rw [aggressiveOptimizeGetAllPairs] at hmem
  refine leavesOne_of_mem_dfs hcovers' hisos' ⟨?_, ?_⟩ hbelow hmem
  · exact size_foldl_addOrderedEdge fun x => x
  · intro i j hj
    rw [edge_foldl_addOrderedEdge (fun x => x) (fun x hx => hx) (fun pair hpair => by
      obtain ⟨hlt, hsecond⟩ := hbelow pair hpair
      exact ⟨hlt.trans hsecond, hsecond⟩) hj]
    constructor
    · rintro (hedge | ⟨pair, hpair, rfl, rfl⟩)
      · exact absurd hedge Pattern.edge_init
      · exact hpair
    · intro hpair
      exact Or.inr ⟨(i, j), hpair, rfl, rfl⟩

end

section

variable {sc : GraphMini.Schedule} {size : ℕ}

/-- Where all automorphisms but one are excluded, no two images of an ordering keep the pairs. -/
theorem LeavesOne.card_images_le (h : LeavesOne sc size sc.restrictPair) (σ : Perm (Fin size)) :
    (images (sc.automorphisms size) (Obeys sc.Pair) (σ : Fin size → Fin size)).card ≤ 1 := by
  obtain ⟨-, δ, hδ⟩ := h
  rw [Finset.card_le_one]
  intro β hβ γ hγ
  rw [mem_images] at hβ hγ
  have hσβ : ObeysAll sc.restrictPair (σ * β : Perm (Fin size)) := hβ.2
  have hback : (σ * β : Perm (Fin size)) ∘ (β⁻¹ * γ : Perm (Fin size)) = σ ∘ γ := by
    funext i
    simp
  have hone : (1 : Perm (Fin size)) = δ := by
    rcases hδ 1 (Subgroup.one_mem _) with h | hexcluded
    · exact h
    · exact absurd hσβ (hexcluded _ hσβ)
  have hsame : β⁻¹ * γ = δ := by
    rcases hδ (β⁻¹ * γ) (Subgroup.mul_mem _ (Subgroup.inv_mem _ hβ.1) hγ.1) with h | hexcluded
    · exact h
    · exact absurd (hback ▸ hγ.2) (hexcluded _ hσβ)
  rw [← hone] at hsame
  exact (inv_mul_eq_one.mp hsame)

/-- The orderings as maps. -/
theorem card_orderings (pair : ℕ → ℕ → Prop) [∀ a b, Decidable (pair a b)] :
    (({f | Function.Injective f} : Finset (Fin size → Fin size)).filter (Obeys pair)).card
      = (Schedule.orderings size pair).card := by
  symm
  apply Finset.card_nbij fun (σ : Perm (Fin size)) => (σ : Fin size → Fin size)
  · intro σ hσ
    simp only [Finset.coe_filter, Finset.mem_filter, Finset.mem_univ, true_and, Set.mem_ofPred_eq]
    exact ⟨σ.injective, mem_orderings.mp hσ⟩
  · intro σ _ τ _ h
    exact Equiv.coe_fn_injective h
  · intro f hf
    simp only [Finset.coe_filter, Finset.mem_filter, Finset.mem_univ, true_and, Set.mem_ofPred_eq] at hf
    refine ⟨Equiv.ofBijective f (Finite.injective_iff_bijective.mp hf.1), ?_, rfl⟩
    exact mem_orderings.mpr hf.2

theorem card_injective : ({f | Function.Injective f} : Finset (Fin size → Fin size)).card = size.factorial := by
  have hall := @card_orderings size (fun _ _ => False) _
  have htrue : ∀ f : Fin size → Fin size, Obeys (fun _ _ => False) f := fun f a b h => h.elim
  rw [Finset.filter_true_of_mem fun f _ => htrue f] at hall
  have huniv : Schedule.orderings size (fun _ _ => False) = Finset.univ :=
    Finset.filter_true_of_mem fun σ _ => htrue σ
  rw [hall, huniv, Finset.card_univ, Fintype.card_perm, Fintype.card_fin]

variable (h : LeavesOne sc size sc.restrictPair)

include h

/-- Whether the pairs leave one of each class shows in the number of orderings that keep them. -/
theorem card_mul_orderings_eq_iff :
    Nat.card (sc.automorphisms size) * (Schedule.orderings size sc.Pair).card = size.factorial
      ↔ sc.OneRepresentative size := by
  rw [← card_injective, ← card_orderings, card_mul_filter_eq_iff]
  · constructor
    · intro hall σ
      exact hall σ (Finset.mem_filter.mpr ⟨Finset.mem_univ _, σ.injective⟩)
    · intro hall f hf
      exact hall (Equiv.ofBijective f (Finite.injective_iff_bijective.mp (Finset.mem_filter.mp hf).2))
  · intro f hf β _
    rw [Finset.mem_filter] at hf ⊢
    exact ⟨Finset.mem_univ _, hf.2.comp β.injective⟩
  · intro f hf
    exact h.card_images_le (Equiv.ofBijective f (Finite.injective_iff_bijective.mp (Finset.mem_filter.mp hf).2))

end

/-- Each set of pairs of the search is of vertices in their order, and of the automorphic images of a labelling
of the pattern vertices at most one keeps it. -/
theorem keeps_one_at_most (sc : GraphMini.Schedule) {size : ℕ} {restricts : List (ℕ × ℕ)}
    (hsymm : ∀ i < size, ∀ j < size, marked size sc.adjMat i j → marked size sc.adjMat j i)
    (hloopless : ∀ i < size, ¬ marked size sc.adjMat i i)
    (hmem : restricts ∈ aggressiveOptimizeGetAllPairs sc.adjMat size) :
    Below size restricts ∧ ∀ {α : Type} [LinearOrder α] {f : Fin size → α}, Function.Injective f →
      ∀ β ∈ sc.automorphisms size, ∀ γ ∈ sc.automorphisms size,
        ObeysAll restricts (f ∘ β) → ObeysAll restricts (f ∘ γ) → β = γ := by
  have hleaves := leavesOne_of_mem hsymm hloopless hmem
  refine ⟨hleaves.1, fun {α} _ {f} hf β hβ γ hγ hfβ hfγ => ?_⟩
  obtain ⟨σ, horder⟩ := exists_orderType hf
  let cur : GraphMini.Schedule := { sc with restrictPair := restricts }
  have hone : (images (cur.automorphisms size) (Obeys cur.Pair) (σ : Fin size → Fin size)).card ≤ 1 :=
    LeavesOne.card_images_le hleaves σ
  have hin : ∀ δ ∈ sc.automorphisms size, ObeysAll restricts (f ∘ δ) →
      δ ∈ images (cur.automorphisms size) (Obeys cur.Pair) (σ : Fin size → Fin size) := by
    intro δ hδ hfδ
    refine mem_images.mpr ⟨hδ, ?_⟩
    exact (obeys_iff_of_order fun i j => horder (δ i) (δ j)).mpr hfδ
  exact Finset.card_le_one.mp hone β (hin β hβ hfβ) γ (hin γ hγ hfγ)

/-- Four vertices, each joined to the next. -/
def square : GraphMini.Schedule := { adjMat := "0101101001011010".toList, restrictPair := [] }

theorem keeps_one_at_most_square :
    Below 4 [(1, 3), (0, 2), (0, 1)] ∧ ∀ {α : Type} [LinearOrder α] {f : Fin 4 → α}, Function.Injective f →
      ∀ β ∈ square.automorphisms 4, ∀ γ ∈ square.automorphisms 4,
        ObeysAll [(1, 3), (0, 2), (0, 1)] (f ∘ β) → ObeysAll [(1, 3), (0, 2), (0, 1)] (f ∘ γ) → β = γ :=
  keeps_one_at_most square (by decide) (by decide) (by decide +kernel)

end GraphPi

end GraphMini
