import Mathlib.RingTheory.Polynomial.Pochhammer
import Mathlib.Tactic

/-!
# Counting colorings by sets of edges

The colorings that give no edge the same color at both ends are counted by a signed sum over all sets of
edges: a set stands for the colorings that give every one of its edges the same color. Sets are masks. As
polynomials in the number of colors both sides have the same linear coefficient, which on the side of the
masks is the sum over those that connect everything.
-/

namespace Colorings

open Polynomial

/-- The edges of a mask. -/
def chosen (m s : ℕ) : List ℕ := (List.range m).filter fun i => s.testBit i

/-- The sign of a mask. -/
def sign (m s : ℕ) : ℤ := (-1) ^ (chosen m s).length

theorem chosen_succ_of_lt {m s : ℕ} (hs : s < 2 ^ m) : chosen (m + 1) s = chosen m s := by
  rw [chosen, List.range_succ, List.filter_append, List.filter_singleton, Nat.testBit_lt_two_pow hs]
  exact List.append_nil _

theorem chosen_succ_add {m s : ℕ} (hs : s < 2 ^ m) : chosen (m + 1) (2 ^ m + s) = chosen m s ++ [m] := by
  have htop : (2 ^ m + s).testBit m = true := by
    rw [Nat.testBit_two_pow_add_eq, Nat.testBit_lt_two_pow hs]
    rfl
  rw [chosen, List.range_succ, List.filter_append, List.filter_singleton, htop]
  congr 1
  apply List.filter_congr
  intro i hi
  exact Nat.testBit_two_pow_add_gt (List.mem_range.mp hi) s

/-- A product of differences, multiplied out. -/
theorem prod_one_sub {R : Type*} [CommRing R] (a : ℕ → R) (m : ℕ) :
    ∏ i ∈ Finset.range m, (1 - a i) = ∑ s ∈ Finset.range (2 ^ m), sign m s * ((chosen m s).map a).prod := by
  induction m with
  | zero => simp [sign, chosen]
  | succ m ih =>
      have hlow : ∀ s ∈ Finset.range (2 ^ m), (sign (m + 1) s : R) * ((chosen (m + 1) s).map a).prod
          = sign m s * ((chosen m s).map a).prod := by
        intro s hs
        rw [sign, sign, chosen_succ_of_lt (Finset.mem_range.mp hs)]
      have hhigh : ∀ s ∈ Finset.range (2 ^ m),
          (sign (m + 1) (2 ^ m + s) : R) * ((chosen (m + 1) (2 ^ m + s)).map a).prod
            = -(sign m s * ((chosen m s).map a).prod * a m) := by
        intro s hs
        rw [sign, sign, chosen_succ_add (Finset.mem_range.mp hs), List.length_append, List.map_append,
          List.prod_append]
        push_cast
        simp only [List.length_singleton, List.map_cons, List.map_nil, List.prod_singleton, pow_succ]
        ring
      rw [Finset.prod_range_succ, ih, pow_succ, mul_two, Finset.sum_range_add, Finset.sum_congr rfl hlow,
        Finset.sum_congr rfl hhigh, Finset.sum_neg_distrib, ← Finset.sum_mul]
      ring

/-- The maps with none of the properties, counted by those with some of them. -/
theorem card_none {F : Type*} [Fintype F] (same : ℕ → F → Prop) [∀ i f, Decidable (same i f)] (m : ℕ) :
    ((Finset.univ.filter fun f => ∀ i < m, ¬ same i f).card : ℤ)
      = ∑ s ∈ Finset.range (2 ^ m),
          sign m s * (Finset.univ.filter fun f => ∀ i ∈ chosen m s, same i f).card := by
  have hnone : ∀ f : F, (if ∀ i < m, ¬ same i f then 1 else 0 : ℤ)
      = ∏ i ∈ Finset.range m, (1 - if same i f then 1 else 0 : ℤ) := by
    intro f
    have hterm : ∀ i ∈ Finset.range m, (1 - if same i f then 1 else 0 : ℤ) = if ¬ same i f then 1 else 0 := by
      intro i _
      by_cases hsame : same i f <;> simp [hsame]
    rw [Finset.prod_congr rfl hterm, Finset.prod_boole]
    simp only [Finset.mem_range]
  have hall : ∀ (l : List ℕ) (f : F), (l.map fun i => if same i f then 1 else 0 : List ℤ).prod
      = if ∀ i ∈ l, same i f then 1 else 0 := by
    intro l f
    induction l with
    | nil => simp
    | cons i l ih =>
        rw [List.map_cons, List.prod_cons, ih]
        by_cases hi : same i f <;> simp [hi]
  calc ((Finset.univ.filter fun f => ∀ i < m, ¬ same i f).card : ℤ)
      = ∑ f : F, if ∀ i < m, ¬ same i f then 1 else 0 := by rw [Finset.sum_boole]
    _ = ∑ f : F, ∑ s ∈ Finset.range (2 ^ m),
          sign m s * ((chosen m s).map fun i => if same i f then 1 else 0 : List ℤ).prod := by
        apply Finset.sum_congr rfl
        intro f _
        rw [hnone f, prod_one_sub]
        simp only [Int.cast_id]
    _ = ∑ s ∈ Finset.range (2 ^ m), ∑ f : F,
          sign m s * (if ∀ i ∈ chosen m s, same i f then 1 else 0) := by
        rw [Finset.sum_comm]
        simp only [hall]
    _ = ∑ s ∈ Finset.range (2 ^ m),
          sign m s * (Finset.univ.filter fun f => ∀ i ∈ chosen m s, same i f).card := by
        apply Finset.sum_congr rfl
        intro s _
        rw [← Finset.mul_sum, Finset.sum_boole]

theorem coeff_one_descPochhammer (n : ℕ) : (descPochhammer ℤ (n + 1)).coeff 1 = (-1) ^ n * n.factorial := by
  induction n with
  | zero => simp
  | succ n ih =>
      have hzero : (descPochhammer ℤ (n + 1)).coeff 0 = 0 := by
        rw [coeff_zero_eq_eval_zero]
        exact descPochhammer_ne_zero_eval_zero ℤ n.succ_ne_zero
      rw [descPochhammer_succ_right, mul_sub, coeff_sub, coeff_mul_X, hzero, zero_sub, ← C_eq_natCast,
        coeff_mul_C, ih, Nat.factorial_succ]
      push_cast
      ring

/-- If the masks count the injective colorings, where a mask stands for as many colorings as `c s` colors
can be chosen, then those that leave one choice are counted by the linear coefficient. -/
theorem sum_sign_eq {n m : ℕ} {c : ℕ → ℕ} (hcount : ∀ q : ℕ, (q.descFactorial (n + 1) : ℤ)
      = ∑ s ∈ Finset.range (2 ^ m), sign m s * (q : ℤ) ^ c s) :
    ∑ s ∈ Finset.range (2 ^ m) with c s = 1, sign m s = (-1) ^ n * n.factorial := by
  have hpoly : descPochhammer ℤ (n + 1) = ∑ s ∈ Finset.range (2 ^ m), C (sign m s) * X ^ c s := by
    apply eq_of_infinite_eval_eq
    apply Set.infinite_of_injective_forall_mem (f := fun q : ℕ => (q : ℤ)) Nat.cast_injective
    intro q
    rw [Set.mem_ofPred_eq, descPochhammer_eval_eq_descFactorial, hcount, eval_finsetSum]
    apply Finset.sum_congr rfl
    intro s _
    rw [eval_C_mul, eval_pow, eval_X]
  have hcoeff := coeff_one_descPochhammer n
  rw [hpoly, finsetSum_coeff] at hcoeff
  rw [← hcoeff, Finset.sum_filter]
  apply Finset.sum_congr rfl
  intro s _
  rw [coeff_C_mul, coeff_X_pow]
  by_cases hc : c s = 1
  · rw [if_pos hc, if_pos hc.symm, mul_one]
  · rw [if_neg hc, if_neg (Ne.symm hc), mul_zero]

end Colorings
