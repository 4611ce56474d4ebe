import Mathlib.Algebra.BigOperators.Fin
import Mathlib.Tactic.NormNum

/-!
# The result of a run

The counters of the threads are of type `long long`, and so is the sum that `Context::get_result` divides.
Additions and multiplications on 64 bits wrap around, so a counter holds what its operations come to, up
to a multiple of `2 ^ 64`, and the result depends on the true sum only.
-/

namespace GraphMini

/-- What a `long long` holds after operations that come to `n`. -/
def longLong (n : ℤ) : ℤ := n.bmod (2 ^ 64)

/-- `Context::get_result`. The redundancy of the plan is an `int`. -/
def getResult {threads : ℕ} (redundancy : ℤ) (counters : Fin threads → ℤ) : ℤ :=
  (longLong (∑ thread, longLong (counters thread))).tdiv (max 1 (redundancy.bmod (2 ^ 32)))

variable {threads threads' : ℕ} {counters : Fin threads → ℤ} {counters' : Fin threads' → ℤ}

theorem longLong_eq_iff {n : ℤ} : longLong n = n ↔ -2 ^ 63 ≤ n ∧ n < 2 ^ 63 := by
  unfold longLong
  rw [Int.bmod_eq_iff (by norm_num), sub_self]
  norm_num

theorem longLong_natCast_iff {n : ℕ} : longLong n = n ↔ n < 2 ^ 63 := by
  rw [longLong_eq_iff]
  omega

/-- Sums that wrap around on the way wrap around at the end. -/
theorem longLong_sum {ι : Type} (s : Finset ι) (f : ι → ℤ) :
    longLong (∑ i ∈ s, longLong (f i)) = longLong (∑ i ∈ s, f i) := by
  classical
  induction s using Finset.induction_on with
  | empty => simp only [Finset.sum_empty]
  | insert i s hi ih =>
      unfold longLong at ih ⊢
      rw [Finset.sum_insert hi, Finset.sum_insert hi, Int.bmod_add_bmod, ← Int.add_bmod_bmod, ih,
        Int.add_bmod_bmod]

theorem getResult_eq (redundancy : ℤ) (counters : Fin threads → ℤ) : getResult redundancy counters
    = (longLong (∑ thread, counters thread)).tdiv (max 1 (redundancy.bmod (2 ^ 32))) := by
  unfold getResult
  rw [longLong_sum]

/-- The quotient, where neither the sum nor the redundancy is too large. -/
theorem getResult_of_fits {n redundancy : ℕ} (hsum : ∑ thread, counters thread = n) (hn : n < 2 ^ 63)
    (hredundancy : redundancy < 2 ^ 31) :
    getResult redundancy counters = ((n / max 1 redundancy : ℕ) : ℤ) := by
  have hint : (redundancy : ℤ).bmod (2 ^ 32) = redundancy := by
    apply Int.bmod_eq_of_le <;> omega
  rw [getResult_eq, hsum, longLong_natCast_iff.mpr hn, hint, Int.ofNat_tdiv, Nat.cast_max, Nat.cast_one]

/-- A result that is not divided is the sum if and only if the sum is not too large. -/
theorem getResult_zero_eq_iff {n : ℕ} (hsum : ∑ thread, counters thread = n) :
    getResult 0 counters = n ↔ n < 2 ^ 63 := by
  rw [getResult_eq, hsum, ← longLong_natCast_iff]
  simp

end GraphMini
