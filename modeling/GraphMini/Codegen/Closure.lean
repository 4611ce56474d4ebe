import GraphMini.Codegen.Plan
import Mathlib.Logic.Relation

/-!
# The restriction matrix

`restrictsToStr` marks the restriction pairs and adds pairs that follow from them. That it marks
nothing else, and that no pair is lost, is what the plans rest on.
-/

namespace GraphMini

/-- The entry in row `i` and column `j` is `'1'`. -/
def marked (pSize : ℕ) (mat : List Char) (i j : ℕ) : Prop :=
  mat.getD (vecIndex i j pSize) '0' = '1'

instance (pSize : ℕ) (mat : List Char) (i j : ℕ) : Decidable (marked pSize mat i j) := by
  unfold marked
  infer_instance

theorem mem_rowOnes {mat : List Char} {v pSize j : ℕ} :
    j ∈ rowOnes mat v pSize ↔ j < pSize ∧ marked pSize mat v j := by
  simp [rowOnes, marked]

theorem mem_toEdgeIR {adjMat : List Char} {pSize vid j : ℕ} :
    j ∈ toEdgeIR adjMat pSize vid ↔ 0 < vid ∧ j < pSize ∧ marked pSize adjMat vid j := by
  rcases Nat.eq_zero_or_pos vid with rfl | hpos
  · simp [toEdgeIR]
  · simp [toEdgeIR, hpos.ne', hpos, mem_rowOnes]

theorem mem_toRestrictIR {resMat : List Char} {pSize vid j : ℕ} :
    j ∈ toRestrictIR resMat pSize vid ↔ 0 < vid ∧ j < pSize ∧ marked pSize resMat vid j :=
  mem_toEdgeIR

section Entries

variable {pSize : ℕ} {mat : List Char} {i j i' j' : ℕ}

theorem vecIndex_lt (hi : i < pSize) (hj : j < pSize) : vecIndex i j pSize < pSize * pSize := by
  have : (i + 1) * pSize ≤ pSize * pSize := Nat.mul_le_mul_right _ hi
  simp only [vecIndex]
  linarith [Nat.succ_mul i pSize]

theorem vecIndex_inj (hj : j < pSize) (hj' : j' < pSize) :
    vecIndex i j pSize = vecIndex i' j' pSize ↔ i = i' ∧ j = j' := by
  refine ⟨fun h => ?_, by rintro ⟨rfl, rfl⟩; rfl⟩
  simp only [vecIndex] at h
  have hrow : i = i' := by
    have := congrArg (· / pSize) h
    simpa [Nat.add_div_of_dvd_right, Nat.mul_div_cancel, Nat.div_eq_of_lt hj, Nat.div_eq_of_lt hj',
      Nat.lt_of_le_of_lt (Nat.zero_le _) hj] using this
  subst hrow
  exact ⟨rfl, by omega⟩

/-- Setting an entry marks it and nothing else. -/
theorem marked_set (hlen : mat.length = pSize * pSize) (hi : i < pSize) (hj : j < pSize)
    (hj' : j' < pSize) :
    marked pSize (mat.set (vecIndex i j pSize) '1') i' j'
      ↔ (i = i' ∧ j = j') ∨ marked pSize mat i' j' := by
  have hlt : vecIndex i j pSize < mat.length := hlen ▸ vecIndex_lt hi hj
  simp only [marked, List.getD_eq_getElem?_getD, List.getElem?_set, ← vecIndex_inj hj hj', hlt]
  by_cases heq : vecIndex i j pSize = vecIndex i' j' pSize <;> simp [heq]

end Entries

/-- The restriction on `b` by `a`. -/
def restrictedBy (pairVec : List (ℕ × ℕ)) (b a : ℕ) : Prop := (a, b) ∈ pairVec

section Closure

variable {pairVec : List (ℕ × ℕ)} {pSize : ℕ}

/-- The matrix holds every pair and only what follows from the pairs. -/
structure Closes (pairVec : List (ℕ × ℕ)) (pSize : ℕ) (mat : List Char) : Prop where
  length : mat.length = pSize * pSize
  complete : ∀ a b, (a, b) ∈ pairVec → marked pSize mat b a
  sound : ∀ i j, i < pSize → j < pSize → marked pSize mat i j →
    Relation.TransGen (restrictedBy pairVec) i j

/-- Marking a pair that follows from the pairs. -/
theorem Closes.set {mat : List Char} (h : Closes pairVec pSize mat)
    (hpairs : ∀ pair ∈ pairVec, pair.1 < pSize) {i j : ℕ} (hi : i < pSize) (hj : j < pSize)
    (hij : Relation.TransGen (restrictedBy pairVec) i j) :
    Closes pairVec pSize (mat.set (vecIndex i j pSize) '1') where
  length := by rw [List.length_set, h.length]
  complete a b hab :=
    (marked_set h.length hi hj (hpairs _ hab)).mpr (Or.inr (h.complete a b hab))
  sound i' j' hi' hj' hmark := by
    rcases (marked_set h.length hi hj hj').mp hmark with ⟨rfl, rfl⟩ | hmark
    · exact hij
    · exact h.sound i' j' hi' hj' hmark

theorem closes_closeRow (hpairs : ∀ pair ∈ pairVec, pair.1 < pSize ∧ pair.2 < pSize)
    {mat : List Char} (h : Closes pairVec pSize mat) {v1 : ℕ} (hv1 : v1 < pSize) :
    Closes pairVec pSize (closeRow pairVec pSize mat v1) := by
  refine List.foldlRecOn pairVec _ h fun out hout pair hpair => ?_
  by_cases hv : pair.1 = v1
  · subst hv
    simp only [beq_self_eq_true, if_true]
    refine List.foldlRecOn _ _ hout fun out hout v1Plus hmem => ?_
    obtain ⟨hlt, hmark⟩ := mem_rowOnes.mp hmem
    refine hout.set (fun pair hpair => (hpairs pair hpair).1) (hpairs pair hpair).2 hlt ?_
    exact Relation.TransGen.head hpair (h.sound _ _ hv1 hlt hmark)
  · simpa [hv] using hout

theorem marked_replicate (n i j : ℕ) : ¬ marked pSize (List.replicate n '0') i j := by
  unfold marked
  rw [List.getD_eq_getElem?_getD, List.getElem?_replicate]
  split <;> simp

/-- The marked pairs alone, before the closing pass. -/
theorem closes_pairs (hpairs : ∀ pair ∈ pairVec, pair.1 < pSize ∧ pair.2 < pSize) :
    Closes pairVec pSize (pairVec.foldl (fun mat pair => mat.set (vecIndex pair.2 pair.1 pSize) '1')
      (List.replicate (pSize * pSize) '0')) := by
  suffices hmain : ∀ (rest done : List (ℕ × ℕ)) (mat : List Char), done ++ rest = pairVec →
      mat.length = pSize * pSize → (∀ a b, (a, b) ∈ done → marked pSize mat b a) →
      (∀ i j, i < pSize → j < pSize → marked pSize mat i j →
        Relation.TransGen (restrictedBy pairVec) i j) →
      Closes pairVec pSize
        (rest.foldl (fun mat pair => mat.set (vecIndex pair.2 pair.1 pSize) '1') mat) by
    refine hmain pairVec [] _ rfl (by simp) (by simp) ?_
    exact fun i j _ _ hmark => absurd hmark (marked_replicate _ i j)
  intro rest
  induction rest with
  | nil =>
      intro done mat happ hlen hcomplete hsound
      obtain rfl : done = pairVec := by simpa using happ
      exact ⟨hlen, hcomplete, hsound⟩
  | cons pair rest ih =>
      intro done mat happ hlen hcomplete hsound
      have hmem : pair ∈ pairVec := by simp [← happ]
      obtain ⟨h1, h2⟩ := hpairs pair hmem
      refine ih (done ++ [pair]) _ (by simpa using happ) (by simpa using hlen) ?_ ?_
      · intro a b hab
        rcases List.mem_append.mp hab with hab | hab
        · have ha : a < pSize := (hpairs _ (happ ▸ List.mem_append_left _ hab)).1
          exact (marked_set hlen h2 h1 ha).mpr (Or.inr (hcomplete a b hab))
        · obtain rfl : (a, b) = pair := by simpa using hab
          exact (marked_set hlen h2 h1 h1).mpr (Or.inl ⟨rfl, rfl⟩)
      · intro i j hi hj hmark
        rcases (marked_set hlen h2 h1 hj).mp hmark with ⟨rfl, rfl⟩ | hmark
        · exact Relation.TransGen.single hmem
        · exact hsound i j hi hj hmark

theorem closes_restrictsToStr (hpairs : ∀ pair ∈ pairVec, pair.1 < pSize ∧ pair.2 < pSize) :
    Closes pairVec pSize (restrictsToStr pairVec pSize) := by
  refine List.foldlRecOn _ _ (closes_pairs hpairs) fun mat hmat v1 hv1 => ?_
  exact closes_closeRow hpairs hmat (List.mem_range.mp hv1)

/-- An order that keeps the pairs keeps what follows from them. -/
theorem lt_of_transGen {β : Type*} [Preorder β] {f : ℕ → β}
    (hf : ∀ a b, (a, b) ∈ pairVec → f b < f a) {i j : ℕ}
    (h : Relation.TransGen (restrictedBy pairVec) i j) : f i < f j := by
  induction h with
  | single hab => exact hf _ _ hab
  | tail _ hab ih => exact ih.trans (hf _ _ hab)

/-- A restriction points to an earlier vertex. -/
theorem lt_of_marked (hpairs : ∀ pair ∈ pairVec, pair.1 < pair.2 ∧ pair.2 < pSize) {i j : ℕ}
    (hi : i < pSize) (hj : j < pSize) (h : marked pSize (restrictsToStr pairVec pSize) i j) :
    j < i := by
  have hcloses : Closes pairVec pSize (restrictsToStr pairVec pSize) := closes_restrictsToStr
    fun pair hpair => ⟨(hpairs pair hpair).1.trans (hpairs pair hpair).2, (hpairs pair hpair).2⟩
  exact lt_of_transGen (f := OrderDual.toDual) (fun a b hab => (hpairs _ hab).1)
    (hcloses.sound i j hi hj h)

end Closure

end GraphMini
