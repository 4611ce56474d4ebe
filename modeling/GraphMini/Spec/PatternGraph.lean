import GraphMini.Spec.Redundancy

/-!
# A pattern as a data graph

A symmetric relation without loops is the adjacency of a valid graph. In a graph of copies of a pattern,
whose vertices may be numbered anew, the maps of the pattern are its automorphisms, once for each copy.
-/

namespace GraphMini

open Equiv SymmetryBreaking

section

variable (n : ℕ) (adj : ℕ → ℕ → Bool)

/-- The rows of a relation on the first `n` numbers, one after the other. -/
def adjRows (v : ℕ) : List ℕ := (List.range v).flatMap fun u => (List.range n).filter (adj u)

/-- The graph of a relation. -/
def graphOf : Graph where
  indices := adjRows n adj n
  indptr := (List.range (n + 1)).map fun v => (adjRows n adj v).length
  offset := (List.range n).map fun v => ((List.range n).filter (adj v)).countP fun x => decide (x < v)
  numVertex := n
  numEdge := (adjRows n adj n).length

variable {n adj} {v : ℕ}

theorem adjRows_succ : adjRows n adj (v + 1) = adjRows n adj v ++ (List.range n).filter (adj v) := by
  rw [adjRows, List.range_succ, List.flatMap_append, List.flatMap_singleton, adjRows]

theorem prefix_adjRows {w : ℕ} (hle : v ≤ w) : ∃ rest, adjRows n adj w = adjRows n adj v ++ rest := by
  induction w, hle using Nat.le_induction with
  | base => exact ⟨[], (List.append_nil _).symm⟩
  | succ w _ ih =>
      obtain ⟨rest, hrest⟩ := ih
      exact ⟨rest ++ (List.range n).filter (adj w), by rw [adjRows_succ, hrest, List.append_assoc]⟩

theorem length_adjRows_le {k : ℕ} (hk : ∀ u < v, ((List.range n).filter (adj u)).length ≤ k) :
    (adjRows n adj v).length ≤ v * k := by
  induction v with
  | zero => exact Nat.zero_le _
  | succ v ih =>
      rw [adjRows_succ, List.length_append, Nat.succ_mul]
      exact Nat.add_le_add (ih fun u hu => hk u (Nat.lt_succ_of_lt hu)) (hk v (Nat.lt_succ_self v))

theorem indptr_graphOf (hv : v ≤ n) : (graphOf n adj).indptr.getD v 0 = (adjRows n adj v).length := by
  have hlt : v < n + 1 := Nat.lt_succ_of_le hv
  simp [graphOf, List.getD, hlt]

/-- The row of a vertex. -/
theorem N_graphOf (hv : v < n) : ((graphOf n adj).N v).data = (List.range n).filter (adj v) := by
  obtain ⟨rest, hrest⟩ : ∃ rest, adjRows n adj n = adjRows n adj (v + 1) ++ rest :=
    prefix_adjRows (Nat.succ_le_of_lt hv)
  have hindices : (graphOf n adj).indices = adjRows n adj v ++ ((List.range n).filter (adj v) ++ rest) := by
    rw [← List.append_assoc, ← adjRows_succ]
    exact hrest
  have hdegree : (graphOf n adj).degree v = ((List.range n).filter (adj v)).length := by
    rw [Graph.degree, indptr_graphOf hv.le, indptr_graphOf hv, adjRows_succ, List.length_append,
      Nat.add_sub_cancel_left]
  rw [Graph.N, Graph.row, hdegree, indptr_graphOf hv.le, hindices, List.drop_left, List.take_left]

theorem adj_graphOf {x y : ℕ} (hx : x < n) : (graphOf n adj).Adj x y ↔ y < n ∧ adj x y = true := by
  rw [Graph.Adj, N_graphOf hx, List.mem_filter, List.mem_range]

@[simp] theorem numVertex_graphOf : (graphOf n adj).numVertex = n := rfl

theorem valid_graphOf (hsymm : ∀ x y, adj x y = true → adj y x = true) (hloop : ∀ x, adj x x = false)
    (hn : n < invalidId) : (graphOf n adj).Valid := by
  constructor
  · exact indptr_graphOf (Nat.zero_le n)
  · intro v hv
    rw [numVertex_graphOf] at hv
    rw [indptr_graphOf hv.le, indptr_graphOf hv, adjRows_succ, List.length_append]
    exact Nat.le_add_right _ _
  · exact indptr_graphOf le_rfl
  · rfl
  · intro v hv
    rw [numVertex_graphOf] at hv
    rw [N_graphOf hv]
    exact SortedList.filter (List.sortedLT_range n) _
  · intro x hx y hy
    exact ((adj_graphOf hx).mp hy).1
  · intro x hx y hy
    obtain ⟨hlt, hadj⟩ := (adj_graphOf hx).mp hy
    exact (adj_graphOf hlt).mpr ⟨hx, hsymm x y hadj⟩
  · intro x hx hadj
    rw [numVertex_graphOf] at hx
    rw [adj_graphOf hx, hloop] at hadj
    exact absurd hadj.2 Bool.false_ne_true
  · intro v hv
    rw [numVertex_graphOf] at hv
    have hoffset : (graphOf n adj).offset.getD v 0
        = ((List.range n).filter (adj v)).countP fun x => decide (x < v) := by
      simp [graphOf, List.getD, hv]
    rw [hoffset, N_graphOf hv]
  · exact hn

end

/-- Two numbers stand for joined pattern vertices of one copy. -/
def joinedAs (sc : Schedule) (pSize : ℕ) (σ : Perm (Fin pSize)) (x y : ℕ) : Bool :=
  decide (x / pSize = y / pSize ∧ ∃ i j : Fin pSize,
    (σ i).val = x % pSize ∧ (σ j).val = y % pSize ∧ marked pSize sc.adjMat i j)

/-- Copies of the pattern, the vertices of each numbered by `σ`. -/
def patternCopies (sc : Schedule) (pSize : ℕ) (σ : Perm (Fin pSize)) (copies : ℕ) : Graph :=
  graphOf (copies * pSize) (joinedAs sc pSize σ)

/-- The number of a pattern vertex in a copy. -/
def copyVertex {pSize : ℕ} (σ : Perm (Fin pSize)) (c : ℕ) (i : Fin pSize) : ℕ := c * pSize + (σ i).val

section

variable {sc : Schedule} {pSize copies c : ℕ} {σ : Perm (Fin pSize)}

theorem copyVertex_div (i : Fin pSize) : copyVertex σ c i / pSize = c := by
  rw [copyVertex, Nat.mul_comm, Nat.mul_add_div (Fin.pos i), Nat.div_eq_of_lt (σ i).isLt, Nat.add_zero]

theorem copyVertex_mod (i : Fin pSize) : copyVertex σ c i % pSize = (σ i).val := by
  rw [copyVertex, Nat.mul_comm, Nat.mul_add_mod, Nat.mod_eq_of_lt (σ i).isLt]

theorem copyVertex_lt (hc : c < copies) (i : Fin pSize) : copyVertex σ c i < copies * pSize := by
  calc copyVertex σ c i < c * pSize + pSize := Nat.add_lt_add_left (σ i).isLt _
    _ = (c + 1) * pSize := (Nat.succ_mul c pSize).symm
    _ ≤ copies * pSize := Nat.mul_le_mul_right _ hc

theorem adj_patternCopies (hc : c < copies) (i j : Fin pSize) :
    (patternCopies sc pSize σ copies).Adj (copyVertex σ c i) (copyVertex σ c j) ↔ marked pSize sc.adjMat i j := by
  rw [patternCopies, adj_graphOf (copyVertex_lt hc i), joinedAs, decide_eq_true_eq]
  simp only [copyVertex_div, copyVertex_mod, copyVertex_lt hc, true_and]
  constructor
  · rintro ⟨i', j', hi, hj, hmark⟩
    obtain rfl := σ.injective (Fin.ext hi)
    obtain rfl := σ.injective (Fin.ext hj)
    exact hmark
  · exact fun hmark => ⟨i, j, rfl, rfl, hmark⟩

/-- A vertex has neighbours in its own copy only. -/
theorem numEdge_patternCopies_le : (patternCopies sc pSize σ copies).numEdge ≤ copies * pSize * pSize := by
  apply length_adjRows_le
  intro u _
  have hsub : (List.range (copies * pSize)).filter (joinedAs sc pSize σ u)
      ⊆ List.range' (u / pSize * pSize) pSize := by
    intro x hx
    have hjoined := (List.mem_filter.mp hx).2
    rw [joinedAs, decide_eq_true_eq] at hjoined
    obtain ⟨hcopy, i, -⟩ := hjoined
    have hmod := Nat.div_add_mod' x pSize
    have hlt := Nat.mod_lt x (Fin.pos i)
    rw [List.mem_range'_1, hcopy]
    omega
  exact (List.Subperm.length_le (List.Nodup.subperm (List.nodup_range.filter _) hsub)).trans_eq List.length_range'

variable (hsc : sc.Connected pSize)

include hsc

theorem valid_patternCopies (hfits : copies * pSize < invalidId) : (patternCopies sc pSize σ copies).Valid := by
  apply valid_graphOf _ _ hfits
  · intro x y hadj
    rw [joinedAs, decide_eq_true_eq] at hadj ⊢
    obtain ⟨hcopy, i, j, hi, hj, hmark⟩ := hadj
    exact ⟨hcopy.symm, j, i, hj, hi, hsc.symm i i.isLt j j.isLt hmark⟩
  · intro x
    rw [joinedAs, decide_eq_false_iff_not]
    rintro ⟨-, i, j, hi, hj, hmark⟩
    obtain rfl := σ.injective (Fin.ext (hi.trans hj.symm))
    exact hsc.loopless i i.isLt hmark

omit hsc in
/-- A permutation of finitely many vertices that keeps all edges keeps all non-edges. -/
theorem mem_automorphisms_of_edge {β : Perm (Fin pSize)}
    (hβ : ∀ i j : Fin pSize, marked pSize sc.adjMat i j → marked pSize sc.adjMat (β i) (β j)) :
    β ∈ sc.automorphisms pSize := by
  have hpow : ∀ (n : ℕ) (i j : Fin pSize), marked pSize sc.adjMat i j →
      marked pSize sc.adjMat ((β ^ n) i) ((β ^ n) j) := by
    intro n
    induction n with
    | zero => exact fun i j hmark => hmark
    | succ n ih =>
        intro i j hmark
        rw [pow_succ']
        exact hβ _ _ (ih i j hmark)
  have hinv : β ^ (orderOf β - 1) = β⁻¹ := by
    apply eq_inv_of_mul_eq_one_left
    rw [← pow_succ, Nat.sub_add_cancel (orderOf_pos β), pow_orderOf_eq_one]
  intro i j
  constructor
  · exact hβ i j
  · intro hmark
    have hback := hpow (orderOf β - 1) (β i) (β j) hmark
    rw [hinv] at hback
    simpa using hback

/-- The pattern is connected, so it is mapped into one copy. -/
theorem exists_copy {t : AdjMatType} {f : Fin pSize → ℕ} (hf : f ∈ maps t (patternCopies sc pSize σ copies) pSize sc) :
    ∃ c < copies, ∃ β ∈ sc.automorphisms pSize, f = fun i => copyVertex σ c (β i) := by
  obtain ⟨hlt, hmaps⟩ := mem_maps.mp hf
  rw [patternCopies, numVertex_graphOf] at hlt
  have hpos : 0 < pSize := lt_of_lt_of_le (by norm_num) hsc.three_le
  have hjoined : ∀ i j : Fin pSize, marked pSize sc.adjMat i j → joinedAs sc pSize σ (f i) (f j) = true := by
    intro i j hmark
    have hadj := hmaps.edge i j hmark
    rw [patternCopies, adj_graphOf (hlt i)] at hadj
    exact hadj.2
  have hcopy : ∀ i : Fin pSize, f i / pSize = f ⟨0, hpos⟩ / pSize := by
    rintro ⟨i, hi⟩
    induction i using Nat.strong_induction_on with
    | _ i ih =>
        rcases Nat.eq_zero_or_pos i with rfl | hbefore
        · rfl
        · obtain ⟨j, hj, hmark⟩ := hsc.connected i hi hbefore
          have hsame := hjoined ⟨i, hi⟩ ⟨j, hj.trans hi⟩ hmark
          rw [joinedAs, decide_eq_true_eq] at hsame
          exact hsame.1.trans (ih j hj (hj.trans hi))
  have hmod : ∀ i, f i % pSize < pSize := fun i => Nat.mod_lt _ hpos
  have hinj : Function.Injective fun i => σ⁻¹ ⟨f i % pSize, hmod i⟩ := by
    intro i j heq
    have hrest : f i % pSize = f j % pSize := Fin.mk.inj (σ⁻¹.injective heq)
    apply hmaps.injective
    rw [← Nat.div_add_mod (f i) pSize, ← Nat.div_add_mod (f j) pSize, hcopy i, hcopy j, hrest]
  set β : Perm (Fin pSize) := Equiv.ofBijective _ (Finite.injective_iff_bijective.mp hinj) with hβ
  set c := f ⟨0, hpos⟩ / pSize with hc
  have hback : ∀ i, f i = copyVertex σ c (β i) := by
    intro i
    rw [copyVertex, ← hcopy i]
    simp [hβ, Nat.div_add_mod']
  have hclt : c < copies := Nat.div_lt_of_lt_mul (by rw [Nat.mul_comm]; exact hlt _)
  refine ⟨c, hclt, β, mem_automorphisms_of_edge fun i j hmark => ?_, funext hback⟩
  have hadj := hmaps.edge i j hmark
  rwa [hback i, hback j, adj_patternCopies hclt] at hadj

/-- The maps of the pattern into its copies are its automorphisms, once for each copy. -/
theorem card_maps_patternCopies {t : AdjMatType} {pair : ℕ → ℕ → Prop} [∀ a b, Decidable (pair a b)] :
    ((maps t (patternCopies sc pSize σ copies) pSize sc).filter (Obeys pair)).card
      = copies * (images (sc.automorphisms pSize) (Obeys pair) (σ : Fin pSize → Fin pSize)).card := by
  have hobeys : ∀ (c : ℕ) (β : Perm (Fin pSize)), Obeys pair (fun i => copyVertex σ c (β i)) ↔
      Obeys pair ((σ : Fin pSize → Fin pSize) ∘ β) := by
    intro c β
    apply obeys_iff_of_order
    exact fun i j => Nat.add_lt_add_iff_left
  rw [← Finset.card_range copies, ← Finset.card_product, Finset.card_range]
  symm
  apply Finset.card_nbij fun (copy : ℕ × Perm (Fin pSize)) i => copyVertex σ copy.1 (copy.2 i)
  · rintro ⟨c, β⟩ hin
    obtain ⟨hc, hβ⟩ := Finset.mem_product.mp hin
    obtain ⟨hmem, hpairs⟩ := mem_images.mp hβ
    rw [Finset.mem_range] at hc
    refine Finset.mem_filter.mpr ⟨mem_maps.mpr ⟨fun i => copyVertex_lt hc (β i), ?_, ?_, ?_⟩,
      (hobeys c β).mpr hpairs⟩
    · intro i j heq
      exact β.injective (σ.injective (Fin.ext (Nat.add_left_cancel heq)))
    · intro i j hmark
      exact (adj_patternCopies hc (β i) (β j)).mpr ((hmem i j).mp hmark)
    · intro _ i j _ hmark hadj
      exact hmark ((hmem i j).mpr ((adj_patternCopies hc (β i) (β j)).mp hadj))
  · rintro ⟨c, β⟩ _ ⟨c', β'⟩ _ heq
    have hpos : 0 < pSize := lt_of_lt_of_le (by norm_num) hsc.three_le
    have hcopy : c = c' := by
      have hzero := congrArg (· / pSize) (congrFun heq ⟨0, hpos⟩)
      simpa only [copyVertex_div] using hzero
    subst hcopy
    have hsame : β = β' := by
      ext i
      have hi := congrFun heq i
      exact congrArg Fin.val (σ.injective (Fin.ext (Nat.add_left_cancel hi)))
    rw [hsame]
  · intro f hf
    obtain ⟨hin, hpairs⟩ := Finset.mem_filter.mp hf
    obtain ⟨c, hc, β, hβ, rfl⟩ := exists_copy hsc hin
    refine ⟨(c, β), Finset.mem_product.mpr ⟨Finset.mem_range.mpr hc, ?_⟩, rfl⟩
    exact mem_images.mpr ⟨hβ, (hobeys c β).mp hpairs⟩

/-- A pattern with at most twelve vertices has few maps into its copies. -/
theorem card_maps_patternCopies_lt {t : AdjMatType} {pair : ℕ → ℕ → Prop} [∀ a b, Decidable (pair a b)]
    (hsize : pSize ≤ 12) (hcopies : copies ≤ pSize.factorial) :
    ((maps t (patternCopies sc pSize σ copies) pSize sc).filter (Obeys pair)).card < 2 ^ 63 := by
  have hmax : pSize.factorial ≤ Nat.factorial 12 := Nat.factorial_le hsize
  have himages : (images (sc.automorphisms pSize) (Obeys pair) (σ : Fin pSize → Fin pSize)).card
      ≤ pSize.factorial := by
    calc _ ≤ Fintype.card (Perm (Fin pSize)) := Finset.card_le_univ _
      _ = pSize.factorial := by rw [Fintype.card_perm, Fintype.card_fin]
  calc _ = copies * (images (sc.automorphisms pSize) (Obeys pair) (σ : Fin pSize → Fin pSize)).card :=
        card_maps_patternCopies hsc
    _ ≤ Nat.factorial 12 * Nat.factorial 12 := Nat.mul_le_mul (hcopies.trans hmax) (himages.trans hmax)
    _ < 2 ^ 63 := by decide

end

end GraphMini
