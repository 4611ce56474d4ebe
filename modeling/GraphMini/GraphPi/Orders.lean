import GraphMini.Codegen.IepSets
import GraphMini.GraphPi.Permutation
import GraphMini.Lib.ConnectedOrder
import GraphMini.Lib.WeakOrder
import Mathlib.Data.List.Find
import Mathlib.Data.List.Lex
import Mathlib.Data.Char

/-!
# The orders that are tried

`remove_automorphisms` and `remove_invalid_permutation` of `Schedule`, and the choice of the orders with the
most vertices for inclusion and exclusion. Two orders give the same matrix when an automorphism of the
pattern takes one to the other, so one order of each class is tried. A connected pattern has an order in
which each vertex is joined to one before it, and only a connected pattern has.
-/

namespace GraphMini

namespace GraphPi

open Equiv StdAlgorithm

/-- The array `rank`, the place of each vertex. -/
def rankOf (order : List ℕ) (size : ℕ) : ℕ → ℕ :=
  (List.range size).foldl (fun rank i => Function.update rank (order.getD i 0) i) fun _ => 0

/-- The matrix of the pattern in an order of its vertices. -/
def reorder (adjMat : List Char) (size : ℕ) (order : List ℕ) : List Char :=
  let rank := rankOf order size
  (List.range size ×ˢ List.range size).foldl
    (fun mat cell =>
      mat.set (vecIndex (rank cell.1) (rank cell.2) size) (adjMat.getD (vecIndex cell.1 cell.2 size) '0'))
    (List.replicate (size * size) '0')

/-- `remove_automorphisms`: for each matrix the first order that has it. -/
def removeAutomorphisms (adjMat : List Char) (size : ℕ) (orders : List (List ℕ)) : List (List ℕ) :=
  let orgAllMat := orders.map (reorder adjMat size)
  let allMat := unique (fun a b => a == b) (orgAllMat.insertionSort fun a b => ¬ a < b)
  allMat.map fun uniqueMat => orders.getD (orgAllMat.idxOf uniqueMat) []

/-- `remove_invalid_permutation`: each vertex has to be joined to one before it. -/
def removeInvalidPermutation (adjMat : List Char) (size : ℕ) (orders : List (List ℕ)) : List (List ℕ) :=
  orders.filter fun vec => (List.range' 1 (size - 1)).all fun x => (List.range x).any fun y =>
    decide (marked size adjMat (vec.getD x 0) (vec.getD y 0))

/-- The orders with the most vertices for inclusion and exclusion, where `get_schedule` does not stop at the
assertion `ordersCounted`. -/
def candidatePermutations (adjMat : List Char) (size : ℕ) : List (List ℕ) :=
  let candidates := removeInvalidPermutation adjMat size
    (removeAutomorphisms adjMat size (fullPermutation size))
  let maxVal := candidates.foldl (fun maxVal vec => max maxVal (getVecOptimizeNum adjMat size vec)) 0
  candidates.filter fun vec => getVecOptimizeNum adjMat size vec == maxVal

/-- The text of a pattern: zeros and ones, symmetric and without loops. -/
structure IsPattern (adjMat : List Char) (size : ℕ) : Prop where
  three_le : 3 ≤ size
  le_maxSize : size ≤ 64
  length : adjMat.length = size * size
  digits : ∀ c ∈ adjMat, c = '0' ∨ c = '1'
  symm : ∀ i < size, ∀ j < size, marked size adjMat i j → marked size adjMat j i
  loopless : ∀ i < size, ¬ marked size adjMat i i

def patternGraph (adjMat : List Char) (size : ℕ) : SimpleGraph (Fin size) :=
  SimpleGraph.fromRel fun i j => marked size adjMat i j

/-- No order leaves more than eight vertices for inclusion and exclusion, so that a mask of the pairs of these
fits an `int`. -/
def FewLast (adjMat : List Char) (size : ℕ) : Prop :=
  ∀ σ : Perm (Fin size), getVecOptimizeNum adjMat size (vecOf σ) ≤ 8

instance (adjMat : List Char) (size : ℕ) : Decidable (FewLast adjMat size) :=
  inferInstanceAs (Decidable (∀ σ : Perm (Fin size), getVecOptimizeNum adjMat size (vecOf σ) ≤ 8))

/-- A pattern that `get_schedule` can work on: the number of its orders fits an `unsigned int`. -/
structure Schedulable (adjMat : List Char) (size : ℕ) : Prop extends IsPattern adjMat size where
  le_twelve : size ≤ 12
  connected : (patternGraph adjMat size).Connected
  fewLast : FewLast adjMat size

/-- Each vertex but the first is joined to one before it. -/
def ValidOrder (adjMat : List Char) {size : ℕ} (σ : Perm (Fin size)) : Prop :=
  ∀ i : Fin size, 0 < i.val → ∃ j < i, marked size adjMat (σ i) (σ j)

/-! ### The matrix in an order -/

section

variable {size : ℕ} {adjMat : List Char} {σ τ : Perm (Fin size)}

/-- What is written to a place, when all that is written there is the same. -/
theorem getD_foldl_set {ι : Type} {l : List ι} {key : ι → ℕ} {val : ι → Char} {mat : List Char} {k : ℕ}
    {c d : Char} (hk : k < mat.length) (hval : ∀ x ∈ l, key x = k → val x = c)
    (hsome : mat.getD k d = c ∨ ∃ x ∈ l, key x = k) :
    (l.foldl (fun mat x => mat.set (key x) (val x)) mat).getD k d = c := by
  induction l generalizing mat with
  | nil => exact hsome.resolve_right (by simp)
  | cons x l ih =>
      rw [List.foldl_cons]
      apply ih
      · rwa [List.length_set]
      · exact fun y hy => hval y (List.mem_cons_of_mem x hy)
      · rcases eq_or_ne (key x) k with heq | hne
        · left
          rw [List.getD_eq_getElem _ _ (by rwa [List.length_set]), List.getElem_set, if_pos heq]
          exact hval x List.mem_cons_self heq
        · rcases hsome with hmat | ⟨y, hy, hkey⟩
          · left
            rw [List.getD_eq_getElem _ _ (by rwa [List.length_set]), List.getElem_set, if_neg hne,
              ← List.getD_eq_getElem _ d hk]
            exact hmat
          · rcases List.mem_cons.mp hy with rfl | hy
            · exact absurd hkey hne
            · exact Or.inr ⟨y, hy, hkey⟩

theorem length_foldl_set {ι : Type} {l : List ι} {key : ι → ℕ} {val : ι → Char} {mat : List Char} :
    (l.foldl (fun mat x => mat.set (key x) (val x)) mat).length = mat.length := by
  induction l generalizing mat with
  | nil => rfl
  | cons x l ih => rw [List.foldl_cons, ih, List.length_set]

@[simp] theorem length_reorder (order : List ℕ) : (reorder adjMat size order).length = size * size := by
  rw [reorder, length_foldl_set, List.length_replicate]

theorem rankOf_vecOf (i : Fin size) : rankOf (vecOf σ) size (σ i) = i := by
  have hwrite : ∀ (n : ℕ), n ≤ size → ∀ i : Fin size, i.val < n →
      (List.range n).foldl (fun rank i => Function.update rank ((vecOf σ).getD i 0) i) (fun _ => 0) (σ i)
        = i.val := by
    intro n
    induction n with
    | zero => exact fun _ i hi => absurd hi (Nat.not_lt_zero _)
    | succ n ih =>
        intro hn i hi
        rw [List.range_succ, List.foldl_append, List.foldl_cons, List.foldl_nil]
        have hlast : (vecOf σ).getD n 0 = σ ⟨n, hn⟩ := vecOf_getD ⟨n, hn⟩
        rw [hlast]
        rcases Nat.lt_succ_iff_lt_or_eq.mp hi with hlt | heq
        · rw [Function.update_of_ne, ih (by omega) i hlt]
          intro hsame
          have hival := congrArg Fin.val (σ.injective (Fin.val_injective hsame))
          exact hlt.ne hival
        · obtain rfl : i = ⟨n, hn⟩ := Fin.ext heq
          rw [Function.update_self]
  exact hwrite size le_rfl i i.isLt

theorem getD_reorder (i j : Fin size) : (reorder adjMat size (vecOf σ)).getD (vecIndex i j size) '0'
    = adjMat.getD (vecIndex (σ i) (σ j) size) '0' := by
  have hrank : ∀ (v : ℕ) (hv : v < size), rankOf (vecOf σ) size v = σ.symm ⟨v, hv⟩ := by
    intro v hv
    have hback := rankOf_vecOf (σ := σ) (σ.symm ⟨v, hv⟩)
    rwa [σ.apply_symm_apply] at hback
  rw [reorder]
  apply getD_foldl_set
  · rw [List.length_replicate]
    exact vecIndex_lt i.isLt j.isLt
  · rintro ⟨v, w⟩ hmem hkey
    obtain ⟨hv, hw⟩ := List.pair_mem_product.mp hmem
    rw [List.mem_range] at hv hw
    simp only [hrank v hv, hrank w hw] at hkey
    obtain ⟨hfirst, hsecond⟩ := (vecIndex_inj (σ.symm ⟨w, hw⟩).isLt j.isLt).mp hkey
    rw [← Fin.val_injective hfirst, ← Fin.val_injective hsecond, σ.apply_symm_apply, σ.apply_symm_apply]
  · right
    refine ⟨(σ i, σ j), List.pair_mem_product.mpr ⟨?_, ?_⟩, ?_⟩
    · exact List.mem_range.mpr (σ i).isLt
    · exact List.mem_range.mpr (σ j).isLt
    · simp only [rankOf_vecOf]

/-- In the matrix the vertices are in the order. -/
theorem marked_reorder (i j : Fin size) :
    marked size (reorder adjMat size (vecOf σ)) i j ↔ marked size adjMat (σ i) (σ j) := by
  rw [marked, getD_reorder]
  exact Iff.rfl

/-- The matrix tells the class of an order under the automorphisms. -/
theorem reorder_eq_iff {sc : GraphMini.Schedule} (hdigits : ∀ c ∈ sc.adjMat, c = '0' ∨ c = '1') :
    reorder sc.adjMat size (vecOf τ) = reorder sc.adjMat size (vecOf σ)
      ↔ ∃ β ∈ sc.automorphisms size, τ = β * σ := by
  constructor
  · intro heq
    refine ⟨τ * σ⁻¹, fun i j => ?_, (inv_mul_cancel_right τ σ).symm⟩
    rw [Perm.mul_apply, Perm.mul_apply, ← marked_reorder, heq, marked_reorder]
    simp
  · rintro ⟨β, hβ, rfl⟩
    have hdigit : ∀ k, sc.adjMat.getD k '0' = '0' ∨ sc.adjMat.getD k '0' = '1' := by
      intro k
      rcases lt_or_ge k sc.adjMat.length with hk | hk
      · rw [List.getD_eq_getElem _ _ hk]
        exact hdigits _ (List.getElem_mem hk)
      · exact Or.inl (List.getD_eq_default _ _ hk)
    apply List.ext_getElem
    · rw [length_reorder, length_reorder]
    · intro k hk hk'
      rw [length_reorder] at hk hk'
      have hsize : 0 < size := by
        by_contra hzero
        simp_all
      have hi : k / size < size := Nat.div_lt_of_lt_mul hk
      have hj : k % size < size := Nat.mod_lt k hsize
      have hcell : vecIndex (k / size) (k % size) size = k := by
        rw [vecIndex, mul_comm]
        exact Nat.div_add_mod k size
      have hmark := (hβ (σ ⟨k / size, hi⟩) (σ ⟨k % size, hj⟩)).symm
      have hentry := fun (ρ : Perm (Fin size)) => @getD_reorder size sc.adjMat ρ ⟨k / size, hi⟩ ⟨k % size, hj⟩
      simp only [hcell] at hentry
      rw [← List.getD_eq_getElem _ '0', ← List.getD_eq_getElem _ '0', hentry, hentry]
      simp only [marked] at hmark
      rcases hdigit (vecIndex ((β * σ) ⟨k / size, hi⟩) ((β * σ) ⟨k % size, hj⟩) size) with hzero | hone
      · rcases hdigit (vecIndex (σ ⟨k / size, hi⟩) (σ ⟨k % size, hj⟩) size) with hzero' | hone'
        · rw [hzero, hzero']
        · rw [hone', ← hmark.mpr hone']
          rfl
      · rw [hone, ← hmark.mp hone]

/-! ### One order for each matrix -/

variable {orders : List (List ℕ)}

theorem nodup_unique_insertionSort (l : List (List Char)) :
    (unique (fun a b => a == b) (l.insertionSort fun a b => ¬ a < b)).Nodup := by
  have horder : StrictWeakOrderOn (fun a b : List Char => decide (b < a)) (fun a b => a == b) Set.univ :=
    StrictWeakOrderOn.of_key (fun a => OrderDual.toDual a)
      (fun a _ b _ => by rw [decide_eq_true_iff, OrderDual.toDual_lt_toDual]) fun a _ b _ => by simp
  have hsorted : Sorted (fun a b : List Char => decide (b < a)) (l.insertionSort fun a b => ¬ a < b) := by
    have htotal : Std.Total fun a b : List Char => ¬ a < b := ⟨fun a b => by
      rw [← not_and_or]
      exact fun h => lt_asymm h.1 h.2⟩
    have htrans : IsTrans (List Char) fun a b => ¬ a < b := ⟨fun a b c hab hbc => by
      rw [not_lt] at hab hbc ⊢
      exact hbc.trans hab⟩
    apply (List.pairwise_insertionSort (fun a b : List Char => ¬ a < b) l).imp
    intro a b hab
    rwa [decide_eq_false_iff_not]
  apply (horder.pairwise_unique (fun a _ => Set.mem_univ a) hsorted).imp
  intro a b hab
  simpa using hab

/-- The matrices of the orders that are left are the matrices, each once. -/
theorem map_removeAutomorphisms : (removeAutomorphisms adjMat size orders).map (reorder adjMat size)
    = unique (fun a b => a == b) ((orders.map (reorder adjMat size)).insertionSort fun a b => ¬ a < b) := by
  have hmem : ∀ m ∈ unique (fun a b => a == b) ((orders.map (reorder adjMat size)).insertionSort fun a b => ¬ a < b),
      m ∈ orders.map (reorder adjMat size) := by
    intro m hm
    exact (List.perm_insertionSort _ _).mem_iff.mp ((unique_sublist _).subset hm)
  rw [removeAutomorphisms, List.map_map]
  nth_rewrite 2 [← List.map_id (unique _ _)]
  apply List.map_congr_left
  intro m hm
  have hlt := List.idxOf_lt_length_of_mem (hmem m hm)
  have hfound := List.getElem_idxOf hlt
  rw [List.getElem_map] at hfound
  rw [List.length_map] at hlt
  rw [Function.comp_apply, List.getD_eq_getElem _ _ hlt]
  exact hfound

/-- An order is tried, up to an automorphism. -/
theorem exists_mem_removeAutomorphisms (adjMat : List Char) {order : List ℕ} (hmem : order ∈ orders) :
    ∃ order' ∈ removeAutomorphisms adjMat size orders, reorder adjMat size order' = reorder adjMat size order := by
  have hmat : reorder adjMat size order ∈ (removeAutomorphisms adjMat size orders).map (reorder adjMat size) := by
    rw [map_removeAutomorphisms, mem_unique fun a _ b _ hab => beq_iff_eq.mp hab,
      (List.perm_insertionSort _ _).mem_iff]
    exact List.mem_map_of_mem hmem
  exact List.mem_map.mp hmat

theorem mem_of_mem_removeAutomorphisms {order : List ℕ} (hmem : order ∈ removeAutomorphisms adjMat size orders) :
    order ∈ orders := by
  obtain ⟨m, hm, rfl⟩ := List.mem_map.mp hmem
  have hmat := (List.perm_insertionSort _ _).mem_iff.mp ((unique_sublist _).subset hm)
  have hlt := List.idxOf_lt_length_of_mem hmat
  rw [List.length_map] at hlt
  rw [List.getD_eq_getElem _ _ hlt]
  exact List.getElem_mem hlt

/-- Two orders that are left have different matrices. -/
theorem eq_of_reorder_eq {order order' : List ℕ} (hmem : order ∈ removeAutomorphisms adjMat size orders)
    (hmem' : order' ∈ removeAutomorphisms adjMat size orders)
    (heq : reorder adjMat size order = reorder adjMat size order') : order = order' := by
  have hnodup : ((removeAutomorphisms adjMat size orders).map (reorder adjMat size)).Nodup := by
    rw [map_removeAutomorphisms]
    exact nodup_unique_insertionSort _
  exact List.inj_on_of_nodup_map hnodup hmem hmem' heq

end

/-! ### The orders with the most vertices for inclusion and exclusion -/

section

variable {size : ℕ} {adjMat : List Char} {σ : Perm (Fin size)}

theorem validOrder_iff {adj : ℕ → ℕ → Bool} :
    ((List.range' 1 (size - 1)).all fun i => (List.range i).any fun j => adj i j) = true
      ↔ ∀ i : Fin size, 0 < i.val → ∃ j < i, adj i j = true := by
  simp only [List.all_eq_true, List.any_eq_true, List.mem_range'_1, List.mem_range]
  constructor
  · intro h i hpos
    obtain ⟨j, hj, hadj⟩ := h i ⟨hpos, by omega⟩
    exact ⟨⟨j, hj.trans i.isLt⟩, hj, hadj⟩
  · intro h i hi
    obtain ⟨j, hj, hadj⟩ := h ⟨i, by omega⟩ hi.1
    exact ⟨j, hj, hadj⟩

/-- The number of the vertices for inclusion and exclusion is read off the matrix in the order. -/
theorem getVecOptimizeNum_reorder : getVecOptimizeNum adjMat size (vecOf σ)
    = getVecOptimizeNum (reorder adjMat size (vecOf σ)) size (List.range size) := by
  have hadj : ∀ i < size, ∀ j < size,
      (adjMat.getD (vecIndex ((vecOf σ).getD i 0) ((vecOf σ).getD j 0) size) '0' == '1')
        = ((reorder adjMat size (vecOf σ)).getD
          (vecIndex ((List.range size).getD i 0) ((List.range size).getD j 0) size) '0' == '1') := by
    intro i hi j hj
    have hrow : (vecOf σ).getD i 0 = σ ⟨i, hi⟩ := vecOf_getD ⟨i, hi⟩
    have hcol : (vecOf σ).getD j 0 = σ ⟨j, hj⟩ := vecOf_getD ⟨j, hj⟩
    rw [List.getD_eq_getElem _ _ (show i < (List.range size).length by simpa using hi),
      List.getD_eq_getElem _ _ (show j < (List.range size).length by simpa using hj), List.getElem_range,
      List.getElem_range, hrow, hcol]
    exact congrArg (· == '1') (getD_reorder ⟨i, hi⟩ ⟨j, hj⟩).symm
  unfold getVecOptimizeNum
  have hvalid : ((List.range' 1 (size - 1)).all fun i => (List.range i).any fun j =>
      (adjMat.getD (vecIndex ((vecOf σ).getD i 0) ((vecOf σ).getD j 0) size) '0' == '1'))
        = (List.range' 1 (size - 1)).all fun i => (List.range i).any fun j =>
          ((reorder adjMat size (vecOf σ)).getD
            (vecIndex ((List.range size).getD i 0) ((List.range size).getD j 0) size) '0' == '1') := by
    rw [Bool.eq_iff_iff, validOrder_iff, validOrder_iff]
    apply forall_congr'
    intro i
    apply imp_congr_right
    intro _
    apply exists_congr
    intro j
    rw [hadj i i.isLt j j.isLt]
  have hfind : ((List.range' 2 (size - 1)).find? fun k => (List.range' (size - k + 1) (k - 1)).any fun i =>
      (adjMat.getD (vecIndex ((vecOf σ).getD (size - k) 0) ((vecOf σ).getD i 0) size) '0' == '1'))
        = (List.range' 2 (size - 1)).find? fun k => (List.range' (size - k + 1) (k - 1)).any fun i =>
          ((reorder adjMat size (vecOf σ)).getD
            (vecIndex ((List.range size).getD (size - k) 0) ((List.range size).getD i 0) size) '0' == '1') := by
    apply List.find?_congr
    intro k hk
    rw [List.mem_range'_1] at hk
    rw [Bool.eq_iff_iff, List.any_eq_true, List.any_eq_true]
    apply exists_congr
    intro i
    apply and_congr_right
    intro hi
    rw [List.mem_range'_1] at hi
    rw [hadj (size - k) (by omega) i (by omega)]
  simp only [hvalid, hfind]

theorem mem_removeInvalidPermutation {orders : List (List ℕ)} :
    vecOf σ ∈ removeInvalidPermutation adjMat size orders ↔ vecOf σ ∈ orders ∧ ValidOrder adjMat σ := by
  rw [removeInvalidPermutation, List.mem_filter, validOrder_iff]
  apply and_congr_right
  intro _
  apply forall_congr'
  intro i
  apply imp_congr_right
  intro _
  apply exists_congr
  intro j
  rw [vecOf_getD, vecOf_getD, decide_eq_true_iff]

/-- In a valid order a vertex is left for inclusion and exclusion. -/
theorem getVecOptimizeNum_pos (hsize : 2 ≤ size) (hvalid : ValidOrder adjMat σ)
    (hsymm : ∀ i < size, ∀ j < size, marked size adjMat i j → marked size adjMat j i) :
    1 ≤ getVecOptimizeNum adjMat size (vecOf σ) := by
  unfold getVecOptimizeNum
  have hall : ((List.range' 1 (size - 1)).all fun i => (List.range i).any fun j =>
      (adjMat.getD (vecIndex ((vecOf σ).getD i 0) ((vecOf σ).getD j 0) size) '0' == '1')) = true := by
    rw [validOrder_iff]
    intro i hpos
    obtain ⟨j, hj, hmark⟩ := hvalid i hpos
    refine ⟨j, hj, ?_⟩
    rw [vecOf_getD, vecOf_getD, beq_iff_eq]
    exact hmark
  simp only [hall, Bool.not_true, Bool.false_eq_true, if_false]
  split
  · rename_i k hfind
    have hk := List.mem_range'_1.mp (List.mem_of_find?_eq_some hfind)
    omega
  · rename_i hnone
    -- the second vertex is joined to the first
    rw [List.find?_eq_none] at hnone
    have hlast := hnone size (List.mem_range'_1.mpr ⟨hsize, by omega⟩)
    obtain ⟨j, hj, hmark⟩ := hvalid ⟨1, hsize⟩ Nat.one_pos
    have hzero : j = ⟨0, by omega⟩ := Fin.ext (Nat.lt_one_iff.mp hj)
    rw [hzero] at hmark
    refine absurd (List.any_eq_true.mpr ⟨1, List.mem_range'_1.mpr ⟨by omega, by omega⟩, ?_⟩) hlast
    have hfirst : (vecOf σ).getD (size - size) 0 = σ ⟨0, by omega⟩ := by
      rw [Nat.sub_self]
      exact vecOf_getD ⟨0, by omega⟩
    have hsecond : (vecOf σ).getD 1 0 = σ ⟨1, hsize⟩ := vecOf_getD ⟨1, hsize⟩
    rw [hfirst, hsecond, beq_iff_eq]
    exact hsymm _ (σ _).isLt _ (σ _).isLt hmark

/-- The largest value is reached, or none is above the start. -/
theorem foldl_max_mem (l : List (List ℕ)) (value : List ℕ → ℤ) (start : ℤ) :
    l.foldl (fun maxVal vec => max maxVal (value vec)) start = start
      ∨ ∃ vec ∈ l, l.foldl (fun maxVal vec => max maxVal (value vec)) start = value vec := by
  induction l generalizing start with
  | nil => exact Or.inl rfl
  | cons vec l ih =>
      rw [List.foldl_cons]
      rcases ih (max start (value vec)) with heq | ⟨vec', hmem, heq⟩
      · rcases max_choice start (value vec) with hstart | hvec
        · exact Or.inl (heq.trans hstart)
        · exact Or.inr ⟨vec, List.mem_cons_self, heq.trans hvec⟩
      · exact Or.inr ⟨vec', List.mem_cons_of_mem vec hmem, heq⟩

theorem le_foldl_max (l : List (List ℕ)) (value : List ℕ → ℤ) (start : ℤ) :
    start ≤ l.foldl (fun maxVal vec => max maxVal (value vec)) start
      ∧ ∀ vec ∈ l, value vec ≤ l.foldl (fun maxVal vec => max maxVal (value vec)) start := by
  induction l generalizing start with
  | nil => simp
  | cons vec l ih =>
      obtain ⟨hstart, hall⟩ := ih (max start (value vec))
      rw [List.foldl_cons]
      refine ⟨(le_max_left _ _).trans hstart, fun vec' hmem => ?_⟩
      rcases List.mem_cons.mp hmem with rfl | hmem
      · exact (le_max_right _ _).trans hstart
      · exact hall vec' hmem

/-- Something reaches the greatest value, if one is positive. -/
theorem filter_max_ne_nil {l : List (List ℕ)} {value : List ℕ → ℤ} {vec : List ℕ} (hvec : vec ∈ l)
    (hpos : 0 < value vec) :
    (l.filter fun vec => value vec == l.foldl (fun maxVal vec => max maxVal (value vec)) 0) ≠ [] := by
  rcases foldl_max_mem l value 0 with hzero | ⟨vec', hvec', hmax⟩
  · have hle := (le_foldl_max l value 0).2 vec hvec
    omega
  · apply List.ne_nil_of_mem
    exact List.mem_filter.mpr ⟨hvec', by rw [hmax, beq_self_eq_true]⟩

/-- What the search tries are valid orders with the most vertices for inclusion and exclusion. -/
theorem spec_of_mem_candidates {order : List ℕ} (hmem : order ∈ candidatePermutations adjMat size) :
    ∃ σ : Perm (Fin size), vecOf σ = order ∧ ValidOrder adjMat σ ∧
      ∀ τ : Perm (Fin size), getVecOptimizeNum adjMat size (vecOf τ) ≤ getVecOptimizeNum adjMat size order := by
  obtain ⟨hmem, hmax⟩ := List.mem_filter.mp hmem
  rw [beq_iff_eq] at hmax
  have hfull := mem_of_mem_removeAutomorphisms (List.mem_filter.mp hmem).1
  obtain ⟨σ, rfl⟩ := mem_fullPermutation.mp hfull
  have hvalid := (mem_removeInvalidPermutation.mp hmem).2
  refine ⟨σ, rfl, hvalid, fun τ => ?_⟩
  rw [hmax]
  by_cases hτ : ValidOrder adjMat τ
  · obtain ⟨order', hmem', heq⟩ := exists_mem_removeAutomorphisms adjMat
      (mem_fullPermutation.mpr ⟨τ, rfl⟩)
    obtain ⟨ρ, rfl⟩ := mem_fullPermutation.mp (mem_of_mem_removeAutomorphisms hmem')
    have hρ : ValidOrder adjMat ρ := by
      intro i hpos
      obtain ⟨j, hj, hmark⟩ := hτ i hpos
      refine ⟨j, hj, ?_⟩
      rwa [← marked_reorder, heq, marked_reorder]
    rw [getVecOptimizeNum_reorder, ← heq, ← getVecOptimizeNum_reorder]
    exact (le_foldl_max _ _ 0).2 _ (mem_removeInvalidPermutation.mpr ⟨hmem', hρ⟩)
  · have hinvalid : getVecOptimizeNum adjMat size (vecOf τ) = -1 := by
      unfold getVecOptimizeNum
      rw [if_pos]
      rw [Bool.not_eq_true', ← Bool.not_eq_true, validOrder_iff]
      refine fun h => hτ fun i hpos => ?_
      obtain ⟨j, hj, hmark⟩ := h i hpos
      rw [vecOf_getD, vecOf_getD, beq_iff_eq] at hmark
      exact ⟨j, hj, hmark⟩
    rw [hinvalid]
    exact le_trans (by norm_num) (le_foldl_max _ _ 0).1

theorem IsPattern.adj_iff (hpattern : IsPattern adjMat size) {i j : Fin size} :
    (patternGraph adjMat size).Adj i j ↔ marked size adjMat i j := by
  rw [patternGraph, SimpleGraph.fromRel_adj]
  constructor
  · rintro ⟨-, hmark | hmark⟩
    · exact hmark
    · exact hpattern.symm j j.isLt i i.isLt hmark
  · intro hmark
    refine ⟨fun heq => hpattern.loopless i i.isLt ?_, Or.inl hmark⟩
    rwa [← heq] at hmark

/-- There is something to try exactly when the pattern is connected. -/
theorem candidates_ne_nil_iff (hpattern : IsPattern adjMat size) :
    candidatePermutations adjMat size ≠ [] ↔ (patternGraph adjMat size).Connected := by
  have hthree := hpattern.three_le
  rw [ConnectedOrder.connected_iff_exists_perm (by omega)]
  simp only [hpattern.adj_iff]
  constructor
  · intro hne
    obtain ⟨order, hmem⟩ := List.exists_mem_of_ne_nil _ hne
    obtain ⟨σ, -, hvalid, -⟩ := spec_of_mem_candidates hmem
    exact ⟨σ, hvalid⟩
  · rintro ⟨σ, hσ⟩
    obtain ⟨order, hmem, heq⟩ := exists_mem_removeAutomorphisms adjMat
      (mem_fullPermutation.mpr ⟨σ, rfl⟩)
    obtain ⟨τ, rfl⟩ := mem_fullPermutation.mp (mem_of_mem_removeAutomorphisms hmem)
    have hτ : ValidOrder adjMat τ := by
      intro i hpos
      obtain ⟨j, hj, hmark⟩ := hσ i hpos
      refine ⟨j, hj, ?_⟩
      rwa [← marked_reorder, heq, marked_reorder]
    have hvalid := mem_removeInvalidPermutation.mpr ⟨hmem, hτ⟩
    exact filter_max_ne_nil hvalid (getVecOptimizeNum_pos (by omega) hτ hpattern.symm)

/-- No order of a pattern with at most nine vertices leaves more than eight. -/
theorem fewLast_of_le (hsize : size ≤ 9) : FewLast adjMat size := by
  intro σ
  unfold getVecOptimizeNum
  simp only
  split_ifs
  · norm_num
  · split
    · rename_i k hfind
      have hk := List.mem_range'_1.mp (List.mem_of_find?_eq_some hfind)
      omega
    · norm_num

/-- Where the search is not stopped, of the orders that an automorphism takes to a valid one with the most vertices
for inclusion and exclusion exactly one is tried. -/
theorem existsUnique_candidate (sc : GraphMini.Schedule) (σ : Perm (Fin size)) (hpattern : IsPattern sc.adjMat size)
    (hsize : size ≤ 12) (hvalid : ValidOrder sc.adjMat σ)
    (hmax : ∀ τ : Perm (Fin size),
      getVecOptimizeNum sc.adjMat size (vecOf τ) ≤ getVecOptimizeNum sc.adjMat size (vecOf σ)) :
    ordersCounted size = true
      ∧ ∃! order, order ∈ candidatePermutations sc.adjMat size
        ∧ ∃ β ∈ sc.automorphisms size, order = vecOf (β * σ) := by
  have hthree := hpattern.three_le
  refine ⟨ordersCounted_iff.mpr hsize, ?_⟩
  obtain ⟨order, hmem, heq⟩ := exists_mem_removeAutomorphisms sc.adjMat
    (mem_fullPermutation.mpr ⟨σ, rfl⟩)
  obtain ⟨τ, rfl⟩ := mem_fullPermutation.mp (mem_of_mem_removeAutomorphisms hmem)
  have hτ : ValidOrder sc.adjMat τ := by
    intro i hpos
    obtain ⟨j, hj, hmark⟩ := hvalid i hpos
    refine ⟨j, hj, ?_⟩
    rwa [← marked_reorder, heq, marked_reorder]
  have hvalidτ := mem_removeInvalidPermutation.mpr ⟨hmem, hτ⟩
  have hsame : getVecOptimizeNum sc.adjMat size (vecOf τ) = getVecOptimizeNum sc.adjMat size (vecOf σ) := by
    rw [getVecOptimizeNum_reorder, heq, ← getVecOptimizeNum_reorder]
  have hcandidate : vecOf τ ∈ candidatePermutations sc.adjMat size := by
    refine List.mem_filter.mpr ⟨hvalidτ, ?_⟩
    rw [beq_iff_eq, hsame]
    apply le_antisymm
    · rw [← hsame]
      exact (le_foldl_max _ _ 0).2 _ hvalidτ
    · rcases foldl_max_mem (removeInvalidPermutation sc.adjMat size (removeAutomorphisms sc.adjMat size
        (fullPermutation size))) (getVecOptimizeNum sc.adjMat size) 0 with hzero | ⟨vec, hvec, hvalue⟩
      · rw [hzero]
        exact le_trans (by norm_num) (getVecOptimizeNum_pos (by omega) hvalid hpattern.symm)
      · obtain ⟨ρ, rfl⟩ := mem_fullPermutation.mp
          (mem_of_mem_removeAutomorphisms (List.mem_filter.mp hvec).1)
        rw [hvalue]
        exact hmax ρ
  obtain ⟨β, hβ, rfl⟩ := (reorder_eq_iff hpattern.digits).mp heq
  refine ⟨_, ⟨hcandidate, β, hβ, rfl⟩, ?_⟩
  rintro _ ⟨hother, γ, hγ, rfl⟩
  have hleft := (List.mem_filter.mp (List.mem_filter.mp hother).1).1
  apply eq_of_reorder_eq hleft hmem
  rw [heq]
  exact (reorder_eq_iff hpattern.digits).mpr ⟨γ, hγ, rfl⟩

end

theorem digits_of_all {adjMat : List Char} (h : (adjMat.all fun c => c == '0' || c == '1') = true) :
    ∀ c ∈ adjMat, c = '0' ∨ c = '1' := by
  intro c hc
  have hdigit := List.all_eq_true.mp h c hc
  simpa using hdigit

theorem isPattern_triangle : IsPattern "011101110".toList 3 := by
  refine ⟨by decide, by decide, by decide, digits_of_all (by decide), by decide, by decide⟩

theorem existsUnique_candidate_triangle : ordersCounted 3 = true
    ∧ ∃! order, order ∈ candidatePermutations "011101110".toList 3
      ∧ ∃ β ∈ ({ adjMat := "011101110".toList, restrictPair := [] } : GraphMini.Schedule).automorphisms 3,
        order = vecOf (β * 1) := by
  apply existsUnique_candidate { adjMat := "011101110".toList, restrictPair := [] } 1 isPattern_triangle
  · norm_num
  · unfold ValidOrder
    decide
  · decide

end GraphPi

end GraphMini
