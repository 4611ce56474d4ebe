import Mathlib.Tactic

/-!
# Algorithms of the C++ library

`std::unique` with the `erase` that follows it, and the insertion sort that libstdc++ runs in
`std::sort` on fewer than 16 elements. The sort is given as it runs, since a comparison that is no
strict weak order may leave any arrangement.
-/

namespace StdAlgorithm

variable {α : Type}

/-- `std::unique` followed by `erase`. -/
def unique (same : α → α → Bool) : List α → List α
  | [] => []
  | [x] => [x]
  | x :: y :: rest => if same x y then unique same (x :: rest) else x :: unique same (y :: rest)
termination_by l => l.length

/-- The innermost step of `std::__insertion_sort`: the value moves left past every larger one. The
list is the sorted part in reverse. -/
def linearInsert (less : α → α → Bool) (val : α) : List α → List α
  | [] => [val]
  | x :: rest => if less val x then x :: linearInsert less val rest else val :: x :: rest

/-- One step of `std::__insertion_sort`: a value below the first one moves to the front at once. -/
def sortInsert (less : α → α → Bool) (sorted : List α) (val : α) : List α :=
  match sorted with
  | [] => [val]
  | first :: _ =>
      if less val first then val :: sorted else (linearInsert less val sorted.reverse).reverse

/-- `std::sort` of libstdc++ on fewer than 16 elements. -/
def insertionSort (less : α → α → Bool) (l : List α) : List α :=
  l.foldl (sortInsert less) []

section Insertion

variable {less : α → α → Bool}

theorem linearInsert_perm (val : α) (l : List α) : (linearInsert less val l).Perm (val :: l) := by
  induction l with
  | nil => exact List.Perm.refl _
  | cons x rest ih =>
      rw [linearInsert]
      split
      · exact (ih.cons x).trans (List.Perm.swap val x rest)
      · exact List.Perm.refl _

theorem sortInsert_perm (sorted : List α) (val : α) :
    (sortInsert less sorted val).Perm (val :: sorted) := by
  cases sorted with
  | nil => exact List.Perm.refl _
  | cons first rest =>
      rw [sortInsert]
      split
      · exact List.Perm.refl _
      · exact (List.reverse_perm _).trans
          ((linearInsert_perm val _).trans ((List.reverse_perm _).cons val))

/-- Whatever the comparison, the sort permutes. -/
theorem insertionSort_perm (less : α → α → Bool) (l : List α) : (insertionSort less l).Perm l := by
  have hfold : ∀ sorted : List α, (l.foldl (sortInsert less) sorted).Perm (sorted ++ l) := by
    induction l with
    | nil => simp
    | cons a l ih =>
        intro sorted
        exact (ih _).trans (((sortInsert_perm sorted a).append_right l).trans
          List.perm_middle.symm)
  exact hfold []

end Insertion

section Unique

variable {same : α → α → Bool}

theorem unique_sublist (l : List α) : (unique same l).Sublist l := by
  fun_induction unique same l with
  | case1 => exact List.Sublist.refl _
  | case2 x => exact List.Sublist.refl _
  | case3 x y rest hsame ih =>
      exact ih.trans ((List.sublist_cons_self y rest).cons_cons x)
  | case4 x y rest hsame ih => exact ih.cons_cons x

/-- Where the test is equality every element is kept once at least. -/
theorem mem_unique {l : List α} (heq : ∀ x ∈ l, ∀ y ∈ l, same x y = true → x = y) {x : α} :
    x ∈ unique same l ↔ x ∈ l := by
  fun_induction unique same l with
  | case1 => rfl
  | case2 y => rfl
  | case3 y z rest hsame ih =>
      obtain rfl : y = z := heq y (by simp) z (by simp) hsame
      rw [ih fun a ha b hb => heq a (List.mem_cons_of_mem _ ha) b (List.mem_cons_of_mem _ hb)]
      simp
  | case4 y z rest hsame ih =>
      rw [List.mem_cons,
        ih fun a ha b hb => heq a (List.mem_cons_of_mem _ ha) b (List.mem_cons_of_mem _ hb)]
      simp

/-- What stood before an element still stands before it. -/
theorem exists_split_of_unique {l : List α} (heq : ∀ x ∈ l, ∀ y ∈ l, same x y = true → x = y)
    {l₁ l₂ : List α} {v : α} (h : unique same l = l₁ ++ v :: l₂) :
    ∃ m₁ m₂, l = m₁ ++ v :: m₂ ∧ ∀ x ∈ m₁, x ∈ l₁ := by
  fun_induction unique same l generalizing l₁ with
  | case1 => simp at h
  | case2 x =>
      obtain ⟨rfl, rfl, rfl⟩ : l₁ = [] ∧ x = v ∧ l₂ = [] := by
        cases l₁ with
        | nil => simpa [eq_comm] using h
        | cons a l₁ => simp at h
      exact ⟨[], [], rfl, by simp⟩
  | case3 x y rest hsame ih =>
      obtain rfl : x = y := heq x (by simp) y (by simp) hsame
      obtain ⟨m₁, m₂, hm, hsub⟩ :=
        ih (fun a ha b hb => heq a (List.mem_cons_of_mem _ ha) b (List.mem_cons_of_mem _ hb)) h
      cases m₁ with
      | nil =>
          obtain ⟨rfl, rfl⟩ := by simpa using hm
          exact ⟨[], x :: rest, rfl, by simp⟩
      | cons a m₁ =>
          obtain ⟨rfl, hm⟩ := by simpa using hm
          refine ⟨x :: x :: m₁, m₂, by simp [hm], fun z hz => ?_⟩
          exact hsub z (by simpa using hz)
  | case4 x y rest hsame ih =>
      cases l₁ with
      | nil =>
          obtain ⟨rfl, -⟩ := by simpa using h
          exact ⟨[], y :: rest, rfl, by simp⟩
      | cons a l₁ =>
          obtain ⟨rfl, hrest⟩ := by simpa using h
          obtain ⟨m₁, m₂, hm, hsub⟩ := ih
            (fun a ha b hb => heq a (List.mem_cons_of_mem _ ha) b (List.mem_cons_of_mem _ hb)) hrest
          refine ⟨x :: m₁, m₂, by simp [hm], fun z hz => ?_⟩
          rcases List.mem_cons.mp hz with rfl | hz
          · exact List.mem_cons_self
          · exact List.mem_cons_of_mem _ (hsub z hz)

end Unique

end StdAlgorithm
