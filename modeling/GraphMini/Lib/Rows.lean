import Mathlib.Data.List.GetD
import Mathlib.Tactic

/-!
# Rows of a sorted list of pairs

Pairs sorted by their first component fall into rows, one for each first component. The row of `v`
begins after the pairs with a smaller first component and is as long as there are pairs with first
component `v`, so the starts of the rows are the prefix sums of their lengths.
-/

namespace Rows

variable {β : Type*}

/-- The number of pairs in the rows before `v`. -/
def start (l : List (ℕ × β)) (v : ℕ) : ℕ := l.countP fun e => decide (e.1 < v)

/-- The number of pairs in row `v`. -/
def width (l : List (ℕ × β)) (v : ℕ) : ℕ := l.countP fun e => decide (e.1 = v)

theorem start_zero (l : List (ℕ × β)) : start l 0 = 0 := by
  simp [start]

theorem start_succ (l : List (ℕ × β)) (v : ℕ) : start l (v + 1) = start l v + width l v := by
  induction l with
  | nil => rfl
  | cons e l ih =>
      simp only [start, width, List.countP_cons, decide_eq_true_eq] at *
      rw [ih]
      split_ifs <;> omega

theorem start_eq_length {l : List (ℕ × β)} {n : ℕ} (h : ∀ e ∈ l, e.1 < n) :
    start l n = l.length := by
  rw [start, List.countP_eq_length]
  simpa using h

theorem start_mono (l : List (ℕ × β)) {v w : ℕ} (h : v ≤ w) : start l v ≤ start l w := by
  refine List.countP_mono_left fun e _ he => ?_
  simp only [decide_eq_true_eq] at *
  omega

/-- The start of a row is the sum of the widths before it. -/
theorem sum_width (l : List (ℕ × β)) (v : ℕ) :
    ((List.range v).map (width l)).sum = start l v := by
  induction v with
  | zero => rw [start_zero]; rfl
  | succ v ih => rw [List.range_succ, List.map_append, List.sum_append, ih, start_succ]; simp

/-- The part of a sorted list that a row occupies. -/
theorem take_drop_eq_filter {l : List (ℕ × β)} (h : l.Pairwise fun a b => a.1 ≤ b.1) (v : ℕ) :
    (l.drop (start l v)).take (width l v) = l.filter fun e => decide (e.1 = v) := by
  induction l with
  | nil => rfl
  | cons e l ih =>
      have htail := (List.pairwise_cons.mp h).2
      have hhead := (List.pairwise_cons.mp h).1
      rcases lt_trichotomy e.1 v with hlt | heq | hgt
      · have hstart : start (e :: l) v = start l v + 1 := by simp [start, hlt]
        have hwidth : width (e :: l) v = width l v := by simp [width, hlt.ne]
        rw [hstart, hwidth, List.drop_succ_cons, ih htail, List.filter_cons_of_neg]
        simp [hlt.ne]
      · have hnone : start l v = 0 := by
          rw [start, List.countP_eq_zero]
          intro a ha
          simpa [heq] using hhead a ha
        have hstart : start (e :: l) v = 0 := by simpa [start, heq] using hnone
        have hwidth : width (e :: l) v = width l v + 1 := by simp [width, heq]
        have htake := ih htail
        rw [hnone, List.drop_zero] at htake
        rw [hstart, hwidth, List.drop_zero, List.take_succ_cons, htake, List.filter_cons_of_pos]
        simp [heq]
      · -- no row up to `v` has a pair any more
        have hbeyond : ∀ a ∈ e :: l, v < a.1 := by
          intro a ha
          rcases List.mem_cons.mp ha with rfl | ha
          · exact hgt
          · exact hgt.trans_le (hhead a ha)
        have hwidth : width (e :: l) v = 0 := by
          rw [width, List.countP_eq_zero]
          intro a ha
          simpa using (hbeyond a ha).ne'
        rw [hwidth, List.take_zero, eq_comm, List.filter_eq_nil_iff]
        intro a ha
        simpa using (hbeyond a ha).ne'

end Rows
