import GraphMini.Spec.Redundancy

/-!
# The permutations of the pattern vertices

`get_full_permutation`, `get_isomorphism_vec` and `calc_permutation_group` of `Schedule`. An order is the
vector of its vertices. The isomorphisms of a pattern are its automorphisms, each listed once, and a cycle
of two vertices exchanges them.
-/

namespace GraphMini

namespace GraphPi

open Equiv

/-- `get_full_permutation`: every vertex that is not in use comes next. -/
def getFullPermutation (size : ℕ) : ℕ → Finset ℕ → List ℕ → List (List ℕ)
  | 0, _, tmpVec => [tmpVec]
  | left + 1, use, tmpVec =>
      ((List.range size).filter fun i => decide (i ∉ use)).flatMap fun i =>
        getFullPermutation size left (insert i use) (tmpVec ++ [i])

/-- All orders of the vertices. -/
def fullPermutation (size : ℕ) : List (List ℕ) := getFullPermutation size size ∅ []

/-- `pow`, an `unsigned int`. -/
def orderCount (size : ℕ) : ℕ := (List.range' 2 (size - 1)).foldl (fun pow i => pow * i % 2 ^ 32) 1

/-- The assertion that there are `pow` orders. -/
def ordersCounted (size : ℕ) : Bool := (fullPermutation size).length == orderCount size

/-- `get_isomorphism_vec`, where its assertion, `ordersCounted`, holds. -/
def getIsomorphismVec (adjMat : List Char) (size : ℕ) : List (List ℕ) :=
  (fullPermutation size).filter fun v =>
    (List.range size).all fun i => (List.range' (i + 1) (size - (i + 1))).all fun j =>
      !decide (marked size adjMat i j) || decide (marked size adjMat (v.getD i 0) (v.getD j 0))

/-- The vertices that follow from `x` on, up to the first that is in use. -/
def followCycle (vec : List ℕ) : ℕ → Finset ℕ → ℕ → List ℕ → List ℕ × Finset ℕ
  | 0, use, _, tmpVec => (tmpVec, use)
  | fuel + 1, use, x, tmpVec =>
      if x ∈ use then (tmpVec, use)
      else followCycle vec fuel (insert x use) (vec.getD x 0) (tmpVec ++ [x])

/-- `calc_permutation_group`, the cycles of a permutation. -/
def calcPermutationGroup (vec : List ℕ) (size : ℕ) : List (List ℕ) :=
  ((List.range vec.length).foldl
    (fun (state : List (List ℕ) × Finset ℕ) i =>
      if i ∈ state.2 then state
      else
        let (tmpVec, use) := followCycle vec size (insert i state.2) (vec.getD i 0) [i]
        (state.1 ++ [tmpVec], use))
    ([], ∅)).1

/-- The vector of a permutation. -/
def vecOf {size : ℕ} (σ : Perm (Fin size)) : List ℕ := List.ofFn fun i => (σ i : ℕ)

/-! ### Orders -/

section

variable {size left : ℕ} {use : Finset ℕ} {tmpVec v : List ℕ} {σ τ : Perm (Fin size)}

@[simp] theorem length_vecOf : (vecOf σ).length = size := List.length_ofFn

theorem vecOf_getD (i : Fin size) : (vecOf σ).getD i 0 = σ i := by
  rw [List.getD_eq_getElem _ _ (by simp)]
  exact List.getElem_ofFn _

theorem vecOf_injective : Function.Injective (vecOf : Perm (Fin size) → List ℕ) := by
  intro σ τ h
  ext i
  rw [← vecOf_getD i, ← vecOf_getD i, h]

theorem mem_vecOf {x : ℕ} : x ∈ vecOf σ ↔ x < size := by
  rw [vecOf, List.mem_ofFn]
  constructor
  · rintro ⟨i, rfl⟩
    exact (σ i).isLt
  · intro hx
    exact ⟨σ⁻¹ ⟨x, hx⟩, by simp⟩

theorem nodup_vecOf : (vecOf σ).Nodup := by
  apply List.nodup_ofFn_ofInjective
  intro i j h
  exact σ.injective (Fin.val_injective h)

/-- A vector of all vertices is that of a permutation. -/
theorem exists_vecOf (hlength : v.length = size) (hnodup : v.Nodup) (hlt : ∀ x ∈ v, x < size) :
    ∃ σ : Perm (Fin size), vecOf σ = v := by
  have hbound : ∀ i : Fin size, i < v.length := fun i => hlength ▸ i.isLt
  let f : Fin size → Fin size := fun i => ⟨v.get ⟨i, hbound i⟩, hlt _ (List.get_mem _ _)⟩
  have hf : Function.Injective f := by
    intro i j h
    have hval := hnodup.get_inj_iff.mp (congrArg Fin.val h)
    exact Fin.ext (Fin.mk.inj hval)
  refine ⟨Equiv.ofBijective f (Finite.injective_iff_bijective.mp hf), ?_⟩
  apply List.ext_getElem
  · simp [hlength]
  · intro i hi hi'
    simp [vecOf, f]

theorem mem_getFullPermutation : v ∈ getFullPermutation size left use tmpVec ↔
    ∃ rest, v = tmpVec ++ rest ∧ rest.length = left ∧ rest.Nodup ∧ ∀ x ∈ rest, x < size ∧ x ∉ use := by
  induction left generalizing use tmpVec with
  | zero =>
      rw [getFullPermutation, List.mem_singleton]
      constructor
      · rintro rfl
        exact ⟨[], by simp⟩
      · rintro ⟨rest, rfl, hlength, -⟩
        rw [List.length_eq_zero_iff.mp hlength, List.append_nil]
  | succ left ih =>
      rw [getFullPermutation, List.mem_flatMap]
      simp only [List.mem_filter, List.mem_range, decide_eq_true_eq, ih]
      constructor
      · rintro ⟨i, ⟨hi, hfree⟩, rest, rfl, hlength, hnodup, hrest⟩
        refine ⟨i :: rest, by simp, by simp [hlength], ?_, ?_⟩
        · rw [List.nodup_cons]
          exact ⟨fun hin => (hrest i hin).2 (Finset.mem_insert_self i use), hnodup⟩
        · intro x hx
          rcases List.mem_cons.mp hx with rfl | hx
          · exact ⟨hi, hfree⟩
          · exact ⟨(hrest x hx).1, fun hin => (hrest x hx).2 (Finset.mem_insert_of_mem hin)⟩
      · rintro ⟨rest, rfl, hlength, hnodup, hrest⟩
        cases rest with
        | nil => simp at hlength
        | cons i rest =>
            rw [List.nodup_cons] at hnodup
            refine ⟨i, hrest i List.mem_cons_self, rest, by simp, by simpa using hlength, hnodup.2, ?_⟩
            intro x hx
            have hx' := hrest x (List.mem_cons_of_mem i hx)
            refine ⟨hx'.1, fun hin => ?_⟩
            rcases Finset.mem_insert.mp hin with rfl | hin
            · exact hnodup.1 hx
            · exact hx'.2 hin

theorem nodup_getFullPermutation : (getFullPermutation size left use tmpVec).Nodup := by
  induction left generalizing use tmpVec with
  | zero => exact List.nodup_singleton _
  | succ left ih =>
      rw [getFullPermutation, List.nodup_flatMap]
      constructor
      · intro i _
        exact ih
      · apply (List.nodup_range.filter _).pairwise_of_forall_ne
        intro i _ j _ hne v hi hj
        obtain ⟨rest, rfl, -⟩ := mem_getFullPermutation.mp hi
        obtain ⟨rest', heq, -⟩ := mem_getFullPermutation.mp hj
        rw [List.append_assoc, List.append_assoc] at heq
        have hcons := List.append_cancel_left heq
        simp only [List.singleton_append, List.cons.injEq] at hcons
        exact hne hcons.1

/-- The orders are the permutations. -/
theorem mem_fullPermutation : v ∈ fullPermutation size ↔ ∃ σ : Perm (Fin size), vecOf σ = v := by
  rw [fullPermutation, mem_getFullPermutation]
  constructor
  · rintro ⟨rest, rfl, hlength, hnodup, hrest⟩
    exact exists_vecOf hlength hnodup fun x hx => (hrest x hx).1
  · rintro ⟨σ, rfl⟩
    refine ⟨vecOf σ, rfl, length_vecOf, nodup_vecOf, fun x hx => ⟨mem_vecOf.mp hx, ?_⟩⟩
    exact Finset.notMem_empty x

end

/-! ### The number of the orders -/

section

variable {size : ℕ}

theorem length_fullPermutation : (fullPermutation size).length = size.factorial := by
  have hnodup : (fullPermutation size).Nodup := nodup_getFullPermutation
  have himage : (fullPermutation size).toFinset = Finset.univ.image (vecOf : Perm (Fin size) → List ℕ) := by
    ext v
    rw [List.mem_toFinset, mem_fullPermutation]
    simp
  rw [← List.toFinset_card_of_nodup hnodup, himage, Finset.card_image_of_injective _ vecOf_injective,
    Finset.card_univ, Fintype.card_perm, Fintype.card_fin]

theorem orderCount_eq : orderCount size = size.factorial % 2 ^ 32 := by
  have hrun : ∀ n, (List.range' 2 n).foldl (fun pow i => pow * i % 2 ^ 32) 1 = (n + 1).factorial % 2 ^ 32 := by
    intro n
    induction n with
    | zero => rfl
    | succ n ih =>
        rw [List.range'_1_concat, List.foldl_append, ih, List.foldl_cons, List.foldl_nil, Nat.mod_mul_mod,
          Nat.factorial_succ (n + 1), mul_comm, show 2 + n = n + 1 + 1 by omega]
  cases size with
  | zero => rfl
  | succ n => exact hrun n

/-- From thirteen vertices on the number of orders is too large for `pow`. -/
theorem ordersCounted_iff : ordersCounted size = true ↔ size ≤ 12 := by
  rw [ordersCounted, beq_iff_eq, length_fullPermutation, orderCount_eq]
  constructor
  · intro heq
    by_contra hlarge
    have hfactorial : Nat.factorial 13 ≤ size.factorial := Nat.factorial_le (by omega)
    have hbound : (2 : ℕ) ^ 32 < Nat.factorial 13 := by decide
    have hlt : size.factorial % 2 ^ 32 < 2 ^ 32 := Nat.mod_lt _ (by norm_num)
    omega
  · intro hle
    have hfactorial : size.factorial ≤ Nat.factorial 12 := Nat.factorial_le hle
    exact (Nat.mod_eq_of_lt (hfactorial.trans_lt (by decide))).symm

end

/-! ### Isomorphisms -/

section

variable {sc : GraphMini.Schedule} {size : ℕ} {v : List ℕ} {β : Perm (Fin size)}

/-- A permutation that keeps the edges keeps what is no edge: going on with it ends where it began. -/
theorem mem_automorphisms_iff :
    β ∈ sc.automorphisms size ↔
      ∀ i j : Fin size, marked size sc.adjMat i j → marked size sc.adjMat (β i) (β j) := by
  constructor
  · intro h i j
    exact (h i j).mp
  · intro h i j
    have hpow : ∀ (k : ℕ) (i j : Fin size), marked size sc.adjMat i j →
        marked size sc.adjMat ((β ^ k) i) ((β ^ k) j) := by
      intro k
      induction k with
      | zero => exact fun _ _ hmark => hmark
      | succ k ih =>
          intro i j hmark
          rw [pow_succ', Perm.mul_apply, Perm.mul_apply]
          exact h _ _ (ih i j hmark)
    refine ⟨h i j, fun hmark => ?_⟩
    have hback : β ^ (orderOf β - 1) * β = 1 := by
      rw [← pow_succ, Nat.sub_add_cancel (orderOf_pos β), pow_orderOf_eq_one]
    have hi : ∀ i, (β ^ (orderOf β - 1)) (β i) = i := by
      intro i
      rw [← Perm.mul_apply, hback, Perm.one_apply]
    have hmark' := hpow (orderOf β - 1) _ _ hmark
    rwa [hi, hi] at hmark'

variable (hsymm : ∀ i < size, ∀ j < size, marked size sc.adjMat i j → marked size sc.adjMat j i)
  (hloopless : ∀ i < size, ¬ marked size sc.adjMat i i)

include hsymm hloopless

/-- The isomorphisms of the pattern are its automorphisms. -/
theorem mem_getIsomorphismVec : v ∈ getIsomorphismVec sc.adjMat size ↔
    ∃ β ∈ sc.automorphisms size, vecOf β = v := by
  have hkeeps : ∀ β : Perm (Fin size),
      ((List.range size).all fun i => (List.range' (i + 1) (size - (i + 1))).all fun j =>
        !decide (marked size sc.adjMat i j)
          || decide (marked size sc.adjMat ((vecOf β).getD i 0) ((vecOf β).getD j 0))) = true
      ↔ β ∈ sc.automorphisms size := by
    intro β
    simp only [List.all_eq_true, List.mem_range, List.mem_range'_1, Bool.or_eq_true, Bool.not_eq_true',
      decide_eq_false_iff_not, decide_eq_true_eq, ← imp_iff_not_or]
    rw [mem_automorphisms_iff]
    have hforward : (∀ x < size, ∀ y, x + 1 ≤ y ∧ y < x + 1 + (size - (x + 1)) → marked size sc.adjMat x y →
        marked size sc.adjMat ((vecOf β).getD x 0) ((vecOf β).getD y 0)) ↔
        ∀ i j : Fin size, i < j → marked size sc.adjMat i j → marked size sc.adjMat (β i) (β j) := by
      constructor
      · intro h i j hij hmark
        have hmark' := h i i.isLt j (by omega) hmark
        rwa [vecOf_getD, vecOf_getD] at hmark'
      · intro h x hx y hy hmark
        have hmark' := h ⟨x, hx⟩ ⟨y, by omega⟩ (by simp only [Fin.mk_lt_mk]; omega) hmark
        rwa [← vecOf_getD, ← vecOf_getD] at hmark'
    rw [hforward]
    constructor
    · intro h i j hmark
      rcases lt_trichotomy i j with hlt | rfl | hlt
      · exact h i j hlt hmark
      · exact absurd hmark (hloopless i i.isLt)
      · apply hsymm _ (β j).isLt _ (β i).isLt
        exact h j i hlt (hsymm i i.isLt j j.isLt hmark)
    · intro h i j _
      exact h i j
  rw [getIsomorphismVec, List.mem_filter, mem_fullPermutation]
  constructor
  · rintro ⟨⟨β, rfl⟩, h⟩
    exact ⟨β, (hkeeps β).mp h, rfl⟩
  · rintro ⟨β, hβ, rfl⟩
    exact ⟨⟨β, rfl⟩, (hkeeps β).mpr hβ⟩

/-- `get_multiplicity` is the number of automorphisms. -/
theorem length_getIsomorphismVec :
    (getIsomorphismVec sc.adjMat size).length = Nat.card (sc.automorphisms size) := by
  have hnodup : (getIsomorphismVec sc.adjMat size).Nodup := nodup_getFullPermutation.filter _
  rw [← List.toFinset_card_of_nodup hnodup, Nat.card_eq_fintype_card, Fintype.card_subtype,
    ← Finset.card_image_of_injective _ (@vecOf_injective size)]
  congr 1
  ext v
  rw [List.mem_toFinset, mem_getIsomorphismVec hsymm hloopless, Finset.mem_image]
  simp only [Finset.mem_filter, Finset.mem_univ, true_and]

end

/-! ### Cycles -/

section

variable {size fuel : ℕ} {use : Finset ℕ} {x : ℕ} {tmpVec : List ℕ} {σ : Perm (Fin size)}

theorem vecOf_lt (hsize : 0 < size) : (vecOf σ).getD x 0 < size := by
  by_cases hx : x < size
  · rw [vecOf_getD ⟨x, hx⟩]
    exact (σ ⟨x, hx⟩).isLt
  · rw [List.getD_eq_default _ _ (by simpa using hx)]
    exact hsize

/-- All vertices that are in use are followed by vertices in use. -/
def Closed (vec : List ℕ) (use : Finset ℕ) : Prop := ∀ y ∈ use, vec.getD y 0 ∈ use

/-- What is in use after a cycle is closed again, where only the end of the way is still open. -/
theorem followCycle_closed (hsize : 0 < size) (huse : ∀ y ∈ use, y < size) (hx : x < size)
    (hopen : ∀ y ∈ use, (vecOf σ).getD y 0 ∈ use ∨ (vecOf σ).getD y 0 = x)
    (hfuel : size < use.card + fuel) :
    use ⊆ (followCycle (vecOf σ) fuel use x tmpVec).2
      ∧ (∀ y ∈ (followCycle (vecOf σ) fuel use x tmpVec).2, y < size)
      ∧ Closed (vecOf σ) (followCycle (vecOf σ) fuel use x tmpVec).2 := by
  induction fuel generalizing use x tmpVec with
  | zero =>
      have hcard : use.card ≤ size := by
        calc use.card ≤ (Finset.range size).card :=
              Finset.card_le_card fun y hy => Finset.mem_range.mpr (huse y hy)
          _ = size := Finset.card_range size
      omega
  | succ fuel ih =>
      rw [followCycle]
      split
      · rename_i hin
        refine ⟨subset_rfl, huse, fun y hy => ?_⟩
        rcases hopen y hy with h | h
        · exact h
        · exact h ▸ hin
      · rename_i hnot
        obtain ⟨hsub, hlt, hclosed⟩ := @ih (insert x use) ((vecOf σ).getD x 0) (tmpVec ++ [x])
          (fun y hy => by
            rcases Finset.mem_insert.mp hy with rfl | hy
            · exact hx
            · exact huse y hy)
          (vecOf_lt hsize)
          (fun y hy => by
            rcases Finset.mem_insert.mp hy with rfl | hy
            · exact Or.inr rfl
            · rcases hopen y hy with h | h
              · exact Or.inl (Finset.mem_insert_of_mem h)
              · exact Or.inl (h ▸ Finset.mem_insert_self _ _))
          (by rw [Finset.card_insert_of_notMem hnot]; omega)
        exact ⟨(Finset.subset_insert x use).trans hsub, hlt, hclosed⟩

theorem prefix_followCycle (vec : List ℕ) : tmpVec <+: (followCycle vec fuel use x tmpVec).1 := by
  induction fuel generalizing use x tmpVec with
  | zero => exact List.prefix_rfl
  | succ fuel ih =>
      rw [followCycle]
      split
      · exact List.prefix_rfl
      · exact (List.prefix_append tmpVec [x]).trans ih

/-- What follows from outside a closed set does not lead into it. -/
theorem Closed.mem_of_getD_mem (hclosed : Closed (vecOf σ) use) (huse : ∀ y ∈ use, y < size) (hx : x < size)
    (hin : (vecOf σ).getD x 0 ∈ use) : x ∈ use := by
  have hinj : Set.InjOn (fun y => (vecOf σ).getD y 0) {y | y < size} := by
    intro y hy z hz h
    have hval : ((σ ⟨y, hy⟩ : Fin size) : ℕ) = σ ⟨z, hz⟩ := by
      rw [← vecOf_getD, ← vecOf_getD]
      exact h
    exact congrArg Fin.val (σ.injective (Fin.ext hval))
  have himage : use.image (fun y => (vecOf σ).getD y 0) = use := by
    apply Finset.eq_of_subset_of_card_le
    · intro y hy
      obtain ⟨z, hz, rfl⟩ := Finset.mem_image.mp hy
      exact hclosed z hz
    · rw [Finset.card_image_of_injOn fun y hy z hz h => hinj (huse y hy) (huse z hz) h]
  obtain ⟨y, hy, heq⟩ := Finset.mem_image.mp (himage.symm ▸ hin)
  have hsame : y = x := hinj (huse y hy) hx heq
  exact hsame ▸ hy

/-- A cycle of two vertices ends at the vertex where it began. -/
theorem followCycle_two {i : ℕ} (hclosed : Closed (vecOf σ) use) (huse : ∀ y ∈ use, y < size) (hi : i < size)
    (hfuel : size ≤ fuel)
    (hlength : (followCycle (vecOf σ) fuel (insert i use) ((vecOf σ).getD i 0) [i]).1.length = 2) :
    ∃ b < size, (followCycle (vecOf σ) fuel (insert i use) ((vecOf σ).getD i 0) [i]).1 = [i, b]
      ∧ b ∉ insert i use ∧ (vecOf σ).getD i 0 = b ∧ (vecOf σ).getD b 0 = i := by
  have hsize : 0 < size := Nat.zero_lt_of_lt hi
  have hb : (vecOf σ).getD i 0 < size := vecOf_lt hsize
  obtain ⟨fuel, rfl⟩ : ∃ left, fuel = left + 1 := ⟨fuel - 1, by omega⟩
  generalize hsteps : followCycle (vecOf σ) (fuel + 1) (insert i use) ((vecOf σ).getD i 0) [i] = result at *
  generalize hbdef : (vecOf σ).getD i 0 = b at *
  rw [followCycle] at hsteps
  split at hsteps
  · subst hsteps
    simp at hlength
  · rename_i hfresh
    cases fuel with
    | zero =>
        have hsame : b = i := by omega
        exact absurd (hsame ▸ Finset.mem_insert_self i use) hfresh
    | succ fuel =>
        rw [followCycle] at hsteps
        split at hsteps
        · rename_i hin
          subst hsteps
          refine ⟨b, hb, rfl, hfresh, rfl, ?_⟩
          rcases Finset.mem_insert.mp hin with hself | hin
          · -- the vertex before a fixed one is that one
            have hval : σ ⟨i, hi⟩ = σ ⟨b, hb⟩ := by
              apply Fin.ext
              rw [← vecOf_getD, ← vecOf_getD]
              exact hbdef.trans hself.symm
            have hsame : i = b := congrArg Fin.val (σ.injective hval)
            exact absurd (hsame ▸ Finset.mem_insert_self i use) hfresh
          · rcases Finset.mem_insert.mp hin with h | hin
            · exact h
            · have hmem := hclosed.mem_of_getD_mem huse hb hin
              exact absurd (Finset.mem_insert_of_mem hmem) hfresh
        · have hbegins := (@prefix_followCycle fuel (insert ((vecOf σ).getD b 0) (insert b (insert i use)))
            ((vecOf σ).getD ((vecOf σ).getD b 0) 0) ([i] ++ [b] ++ [(vecOf σ).getD b 0]) (vecOf σ)).length_le
          rw [hsteps, hlength] at hbegins
          simp at hbegins

/-- A cycle of two vertices exchanges them. -/
theorem exchanges_of_mem {cycle : List ℕ} (hcycle : cycle ∈ calcPermutationGroup (vecOf σ) size)
    (hlength : cycle.length = 2) :
    ∃ a b : Fin size, a < b ∧ cycle = [a.val, b.val] ∧ σ a = b ∧ σ b = a := by
  let Exchanges : List ℕ → Prop := fun cycle => cycle.length = 2 →
    ∃ a b : Fin size, a < b ∧ cycle = [a.val, b.val] ∧ σ a = b ∧ σ b = a
  let step : List (List ℕ) × Finset ℕ → ℕ → List (List ℕ) × Finset ℕ := fun state i =>
    if i ∈ state.2 then state
    else
      let (tmpVec, use) := followCycle (vecOf σ) size (insert i state.2) ((vecOf σ).getD i 0) [i]
      (state.1 ++ [tmpVec], use)
  have hrun : ∀ n ≤ size, ((∀ j < n, j ∈ ((List.range n).foldl step ([], ∅)).2)
      ∧ (∀ y ∈ ((List.range n).foldl step ([], ∅)).2, y < size)
      ∧ Closed (vecOf σ) ((List.range n).foldl step ([], ∅)).2
      ∧ ∀ cycle ∈ ((List.range n).foldl step ([], ∅)).1, Exchanges cycle) := by
    intro n
    induction n with
    | zero => simp [Closed]
    | succ n ih =>
        intro hn
        obtain ⟨hbefore, hlt, hclosed, hcycles⟩ := ih (by omega)
        rw [List.range_succ, List.foldl_append, List.foldl_cons, List.foldl_nil]
        generalize (List.range n).foldl step ([], ∅) = state at *
        by_cases hin : n ∈ state.2
        · rw [show step state n = state from if_pos hin]
          refine ⟨fun j hj => ?_, hlt, hclosed, hcycles⟩
          rcases Nat.lt_succ_iff_lt_or_eq.mp hj with hj | rfl
          · exact hbefore j hj
          · exact hin
        · rw [show step state n = _ from if_neg hin]
          obtain ⟨hsub, hlt', hclosed'⟩ := @followCycle_closed size size (insert n state.2)
            ((vecOf σ).getD n 0) [n] σ (by omega)
            (fun y hy => by
              rcases Finset.mem_insert.mp hy with rfl | hy
              · omega
              · exact hlt y hy)
            (vecOf_lt (by omega))
            (fun y hy => by
              rcases Finset.mem_insert.mp hy with rfl | hy
              · exact Or.inr rfl
              · exact Or.inl (Finset.mem_insert_of_mem (hclosed y hy)))
            (by rw [Finset.card_insert_of_notMem hin]; omega)
          refine ⟨fun j hj => ?_, hlt', hclosed', fun cycle hcycle => ?_⟩
          · apply hsub
            rcases Nat.lt_succ_iff_lt_or_eq.mp hj with hj | rfl
            · exact Finset.mem_insert_of_mem (hbefore j hj)
            · exact Finset.mem_insert_self j _
          · rcases List.mem_append.mp hcycle with hcycle | hcycle
            · exact hcycles cycle hcycle
            · rw [List.mem_singleton] at hcycle
              intro hlength
              rw [hcycle] at hlength
              obtain ⟨b, hb, heq, hfresh, hforth, hback⟩ := followCycle_two hclosed hlt (by omega) le_rfl hlength
              have hne : n ≠ b := fun h => hfresh (h ▸ Finset.mem_insert_self n _)
              have hle : n ≤ b := by
                by_contra hgt
                exact hfresh (Finset.mem_insert_of_mem (hbefore b (by omega)))
              refine ⟨⟨n, by omega⟩, ⟨b, hb⟩, ?_, hcycle.trans heq, ?_, ?_⟩
              · rw [Fin.mk_lt_mk]
                omega
              · exact Fin.ext ((vecOf_getD ⟨n, by omega⟩).symm.trans hforth)
              · exact Fin.ext ((vecOf_getD ⟨b, hb⟩).symm.trans hback)
  have hall := (hrun size le_rfl).2.2.2
  rw [calcPermutationGroup, length_vecOf] at hcycle
  exact hall cycle hcycle hlength

end

end GraphPi

end GraphMini
