import Mathlib.Algebra.BigOperators.Fin
import Mathlib.Data.Fintype.BigOperators
import Mathlib.Tactic

/-!
# Counting by extension

A map out of `Fin k` is built one value after the other, each admissible after the values before it.
Nested loops count such maps: a loop runs over the values that are admissible next.
-/

namespace Completion

variable {α : Type*} (dom : Finset α) (admissible : List α → α → Prop)
  [∀ pre, DecidablePred (admissible pre)]

/-- The values of `f` are admissible one after the other when `pre` came first. -/
def Completes (pre : List α) {k : ℕ} (f : Fin k → α) : Prop :=
  ∀ i : Fin k, admissible (pre ++ (List.ofFn f).take i.val) (f i)

instance (pre : List α) {k : ℕ} (f : Fin k → α) : Decidable (Completes admissible pre f) := by
  unfold Completes
  infer_instance

/-- The number of ways to go on from `pre` with `k` more values, as nested loops add it up. -/
def count : ℕ → List α → ℕ
  | 0, _ => 1
  | k + 1, pre => ∑ x ∈ dom with admissible pre x, count k (pre ++ [x])

/-- The amounts `weight` of all ways to go on from `pre` with `k` more values. -/
def total (weight : List α → ℤ) : ℕ → List α → ℤ
  | 0, pre => weight pre
  | k + 1, pre => ∑ x ∈ dom with admissible pre x, total weight k (pre ++ [x])

/-- The maps that nested loops count. -/
def completions (pre : List α) (k : ℕ) : Finset (Fin k → α) :=
  (Fintype.piFinset fun _ => dom).filter (Completes admissible pre)

variable {dom admissible}

omit [∀ pre, DecidablePred (admissible pre)] in
theorem completes_succ_iff {pre : List α} {k : ℕ} {f : Fin (k + 1) → α} :
    Completes admissible pre f
      ↔ admissible pre (f 0) ∧ Completes admissible (pre ++ [f 0]) (Fin.tail f) := by
  unfold Completes
  rw [Fin.forall_fin_succ]
  simp [List.ofFn_succ, Fin.tail_def]

theorem mem_completions {pre : List α} {k : ℕ} {f : Fin k → α} :
    f ∈ completions dom admissible pre k
      ↔ (∀ i, f i ∈ dom) ∧ Completes admissible pre f := by
  simp [completions]

/-- The maps that begin with an admissible `x` are the completions of `pre ++ [x]`. -/
theorem card_completions_fiber {pre : List α} {k : ℕ} {x : α} (hx : x ∈ dom)
    (hadm : admissible pre x) [DecidableEq α] :
    ((completions dom admissible pre (k + 1)).filter fun f => f 0 = x).card
      = (completions dom admissible (pre ++ [x]) k).card := by
  refine Finset.card_bij' (fun f _ => Fin.tail f) (fun f _ => Fin.cons x f) ?_ ?_ ?_ ?_
  · intro f hf
    obtain ⟨hmem, hfx⟩ := Finset.mem_filter.mp hf
    obtain ⟨hdom, hcompletes⟩ := mem_completions.mp hmem
    exact mem_completions.mpr
      ⟨fun i => hdom i.succ, hfx ▸ (completes_succ_iff.mp hcompletes).2⟩
  · intro f hf
    obtain ⟨hdom, hcompletes⟩ := mem_completions.mp hf
    refine Finset.mem_filter.mpr ⟨mem_completions.mpr ⟨?_, ?_⟩, rfl⟩
    · exact fun i => Fin.cases (by simpa using hx) (by simpa using hdom) i
    · exact completes_succ_iff.mpr ⟨by simpa using hadm, by simpa using hcompletes⟩
  · intro f hf
    obtain ⟨-, rfl⟩ := Finset.mem_filter.mp hf
    exact Fin.cons_self_tail f
  · intro f _
    exact funext fun i => by simp [Fin.tail]

/-- Nested loops count the completions. -/
theorem card_completions (pre : List α) (k : ℕ) :
    (completions dom admissible pre k).card = count dom admissible k pre := by
  classical
  induction k generalizing pre with
  | zero =>
      have : completions dom admissible pre 0 = Finset.univ := by
        ext f
        simpa [mem_completions, Completes] using Subsingleton.elim _ _
      simp [this, count]
  | succ k ih =>
      have hfirst : ∀ f ∈ completions dom admissible pre (k + 1),
          f 0 ∈ dom.filter (admissible pre) := by
        intro f hf
        obtain ⟨hdom, hcompletes⟩ := mem_completions.mp hf
        exact Finset.mem_filter.mpr ⟨hdom 0, (completes_succ_iff.mp hcompletes).1⟩
      rw [Finset.card_eq_sum_card_fiberwise hfirst, count]
      refine Finset.sum_congr rfl fun x hx => ?_
      obtain ⟨hx, hadm⟩ := Finset.mem_filter.mp hx
      rw [card_completions_fiber hx hadm, ih]

/-- Without an admissible value at some point there is no way to go on. -/
theorem count_eq_zero {k : ℕ} {pre : List α}
    (h : ∀ f : Fin k → α, (∀ i, f i ∈ dom) → ¬ Completes admissible pre f) :
    count dom admissible k pre = 0 := by
  rw [← card_completions, Finset.card_eq_zero]
  refine Finset.eq_empty_of_forall_notMem fun f hf => ?_
  obtain ⟨hdom, hcompletes⟩ := mem_completions.mp hf
  exact h f hdom hcompletes

/-- Ways to go on in two stages. -/
theorem total_count (j k : ℕ) (pre : List α) :
    total dom admissible (fun pre => (count dom admissible j pre : ℤ)) k pre
      = count dom admissible (k + j) pre := by
  induction k generalizing pre with
  | zero => rw [total, Nat.zero_add]
  | succ k ih =>
      rw [total, Nat.succ_add, count, Nat.cast_sum]
      exact Finset.sum_congr rfl fun x _ => ih (pre ++ [x])

/-- Only what is admissible after fewer values and the amounts after all of them matter. -/
theorem total_congr {admissible' : List α → α → Prop} [∀ pre, DecidablePred (admissible' pre)]
    {weight weight' : List α → ℤ} {k : ℕ} {pre : List α}
    (hadm : ∀ pre' : List α, pre'.length < pre.length + k → ∀ x, admissible pre' x ↔ admissible' pre' x)
    (hweight : ∀ pre' : List α, pre'.length = pre.length + k → weight pre' = weight' pre') :
    total dom admissible weight k pre = total dom admissible' weight' k pre := by
  induction k generalizing pre with
  | zero =>
      rw [total, total]
      apply hweight
      rfl
  | succ k ih =>
      rw [total, total]
      apply Finset.sum_congr
      · ext x
        rw [Finset.mem_filter, Finset.mem_filter, hadm pre (by omega)]
      · intro x _
        have hlen : (pre ++ [x]).length = pre.length + 1 := by simp
        apply ih
        · intro pre' hpre'
          apply hadm
          omega
        · intro pre' hpre'
          apply hweight
          omega

end Completion
