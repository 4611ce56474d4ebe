import Mathlib.Data.List.Sort
import Mathlib.Data.List.TakeWhile
import Mathlib.Data.List.Infix
import Mathlib.Tactic

/-!
# Strictly increasing lists

A finite set of a linear order is carried as its strictly increasing list. Two such lists with the
same members are the same list, so an operation is known once its members and its order are. The
elements below a bound form a prefix, and this is what a search from the left returns.
-/

namespace SortedList

variable {α : Type*} [LinearOrder α]

/-- A strictly increasing list is determined by its members. -/
theorem eq_of_mem_iff {l₁ l₂ : List α} (h₁ : l₁.SortedLT) (h₂ : l₂.SortedLT)
    (hmem : ∀ x, x ∈ l₁ ↔ x ∈ l₂) : l₁ = l₂ :=
  h₁.pairwise.eq_of_mem_iff h₂.pairwise hmem

theorem filter {l : List α} (h : l.SortedLT) (p : α → Bool) : (l.filter p).SortedLT :=
  (h.pairwise.filter p).sortedLT

theorem sublist {l₁ l₂ : List α} (h : l₂.SortedLT) (hsub : l₁.Sublist l₂) : l₁.SortedLT :=
  (h.pairwise.sublist hsub).sortedLT

theorem sublist_of_subset {l₁ l₂ : List α} (h₁ : l₁.SortedLT) (h₂ : l₂.SortedLT)
    (hsub : ∀ x ∈ l₁, x ∈ l₂) : l₁.Sublist l₂ := by
  have heq : l₁ = l₂.filter fun x => decide (x ∈ l₁) := by
    refine eq_of_mem_iff h₁ (filter h₂ _) fun x => ?_
    simp only [List.mem_filter, decide_eq_true_eq]
    exact ⟨fun hx => ⟨hsub x hx, hx⟩, And.right⟩
  rw [heq]
  exact List.filter_sublist

theorem tail {a : α} {l : List α} (h : (a :: l).SortedLT) : l.SortedLT :=
  sublist h (List.sublist_cons_self a l)

theorem head_lt {a : α} {l : List α} (h : (a :: l).SortedLT) {x : α} (hx : x ∈ l) : a < x :=
  List.rel_of_pairwise_cons h.pairwise hx

theorem take {l : List α} (h : l.SortedLT) (n : ℕ) : (l.take n).SortedLT :=
  sublist h (l.take_sublist n)

/-- The elements below a bound are the ones before the first that reaches it. -/
theorem filter_lt_cons_of_le {a u : α} {l : List α} (h : (a :: l).SortedLT) (hu : u ≤ a) :
    (a :: l).filter (fun x => decide (x < u)) = [] := by
  rw [List.filter_eq_nil_iff]
  intro x hx
  rcases List.mem_cons.mp hx with rfl | hx
  · simpa using hu
  · simpa using hu.trans (head_lt h hx).le

/-- Below a bound lies a prefix. -/
theorem take_countP_lt {l : List α} (h : l.SortedLT) (u : α) :
    l.take (l.countP (fun x => decide (x < u))) = l.filter (fun x => decide (x < u)) := by
  induction l with
  | nil => rfl
  | cons a l ih =>
      by_cases hau : a < u
      · simp [hau, ih (tail h)]
      · have hnil := filter_lt_cons_of_le h (not_lt.mp hau)
        rw [hnil, List.countP_eq_length_filter, hnil]
        rfl

/-- What a downward closed test keeps is a prefix. -/
theorem filter_prefix {l : List α} (h : l.SortedLT) {p : α → Bool}
    (hp : ∀ x y, x ≤ y → p y = true → p x = true) : l.filter p <+: l := by
  induction l with
  | nil => exact List.prefix_rfl
  | cons a l ih =>
      by_cases ha : p a = true
      · rw [List.filter_cons_of_pos ha, List.prefix_cons_inj]
        exact ih (tail h)
      · have hnil : (a :: l).filter p = [] := by
          refine List.filter_eq_nil_iff.mpr fun x hx hpx => ha ?_
          rcases List.mem_cons.mp hx with rfl | hx
          · exact hpx
          · exact hp a x (head_lt h hx).le hpx
        rw [hnil]
        exact List.nil_prefix

/-- The elements before a position are below the bound exactly when the position has not passed
the elements below it. -/
theorem getElem_lt_iff {l : List α} (h : l.SortedLT) {u : α} {i : ℕ} (hi : i < l.length) :
    l[i] < u ↔ i < l.countP (fun x => decide (x < u)) := by
  induction l generalizing i with
  | nil => simp at hi
  | cons a l ih =>
      cases i with
      | zero =>
          by_cases hau : a < u
          · simp [hau]
          · have hnil := filter_lt_cons_of_le h (not_lt.mp hau)
            simp [List.countP_eq_length_filter, hnil, hau]
      | succ i =>
          have hi' : i < l.length := by simpa using hi
          by_cases hau : a < u
          · simpa [hau] using ih (tail h) hi'
          · have hnil := filter_lt_cons_of_le h (not_lt.mp hau)
            have hle : ¬ l[i] < u :=
              fun hlt => hau ((head_lt h (List.getElem_mem hi')).trans hlt)
            simp [List.countP_eq_length_filter, hnil, hle]

/-- Two prefixes of one array: the shorter is the part of the longer that it has in common with
it. -/
theorem prefix_mem_iff {l₁ l₂ : List α} (h : l₂.SortedLT) (hpre : l₁ <+: l₂) {i : ℕ}
    (hi : i < l₂.length) : l₂[i] ∈ l₁ ↔ i < l₁.length := by
  obtain ⟨rest, rfl⟩ := hpre
  constructor
  · intro hmem
    by_contra hlen
    obtain ⟨j, hj, hij⟩ := List.getElem_of_mem hmem
    have hj' : j < (l₁ ++ rest).length := by rw [List.length_append]; omega
    have heq : (l₁ ++ rest)[j] = (l₁ ++ rest)[i] := by rw [List.getElem_append_left hj, hij]
    have : j = i := h.nodup.getElem_inj_iff.mp heq
    omega
  · intro hlen
    rw [List.getElem_append_left hlen]
    exact List.getElem_mem hlen

end SortedList
