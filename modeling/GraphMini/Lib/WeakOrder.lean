import GraphMini.Lib.StdAlgorithm

/-!
# Strict weak orders

What `std::sort` asks of a comparison, on the values it is called with, and what the sorted range is
good for: equal values stand next to each other, so `std::unique` leaves one of each.
-/

namespace StdAlgorithm

variable {α : Type} {less same : α → α → Bool} {S : Set α}

/-- `less` is a strict weak order on the values of `S`, and `same` says which of them it does not
tell apart. -/
structure StrictWeakOrderOn (less same : α → α → Bool) (S : Set α) : Prop where
  irrefl : ∀ a ∈ S, less a a = false
  asymm : ∀ a ∈ S, ∀ b ∈ S, less a b = true → less b a = false
  trans : ∀ a ∈ S, ∀ b ∈ S, ∀ c ∈ S, less a b = true → less b c = true → less a c = true
  incomparable_trans : ∀ a ∈ S, ∀ b ∈ S, ∀ c ∈ S, less a b = false → less b a = false →
    less b c = false → less c b = false → less a c = false ∧ less c a = false
  incomparable_iff : ∀ a ∈ S, ∀ b ∈ S, less a b = false ∧ less b a = false ↔ same a b = true

/-- A comparison of keys is a strict weak order. -/
theorem StrictWeakOrderOn.of_key {κ : Type*} [LinearOrder κ] (key : α → κ)
    (hless : ∀ a ∈ S, ∀ b ∈ S, less a b = true ↔ key a < key b)
    (hsame : ∀ a ∈ S, ∀ b ∈ S, same a b = true ↔ key a = key b) :
    StrictWeakOrderOn less same S := by
  have hnot : ∀ a ∈ S, ∀ b ∈ S, less a b = false ↔ key b ≤ key a := by
    intro a ha b hb
    rw [← Bool.not_eq_true, hless a ha b hb, not_lt]
  constructor
  · intro a ha
    exact (hnot a ha a ha).mpr le_rfl
  · intro a ha b hb h
    exact (hnot b hb a ha).mpr ((hless a ha b hb).mp h).le
  · intro a ha b hb c hc h h'
    exact (hless a ha c hc).mpr (((hless a ha b hb).mp h).trans ((hless b hb c hc).mp h'))
  · intro a ha b hb c hc h₁ h₂ h₃ h₄
    rw [hnot a ha b hb] at h₁
    rw [hnot b hb a ha] at h₂
    rw [hnot b hb c hc] at h₃
    rw [hnot c hc b hb] at h₄
    exact ⟨(hnot a ha c hc).mpr (h₃.trans h₁), (hnot c hc a ha).mpr (h₂.trans h₄)⟩
  · intro a ha b hb
    rw [hnot a ha b hb, hnot b hb a ha, hsame a ha b hb]
    exact ⟨fun h => le_antisymm h.2 h.1, fun h => ⟨h.ge, h.le⟩⟩

/-- A range in the order of the comparison, as `std::sort` leaves it. -/
def Sorted (less : α → α → Bool) (l : List α) : Prop := l.Pairwise fun a b => less b a = false

/-- In a sorted range `std::unique` leaves no two equal values. -/
theorem StrictWeakOrderOn.pairwise_unique (h : StrictWeakOrderOn less same S) {l : List α}
    (hS : ∀ a ∈ l, a ∈ S) (hsorted : Sorted less l) :
    (unique same l).Pairwise fun a b => same a b = false := by
  fun_induction unique same l with
  | case1 => exact List.Pairwise.nil
  | case2 x => exact List.pairwise_singleton _ _
  | case3 x y rest hxy ih =>
      have hsub : (x :: rest).Sublist (x :: y :: rest) := (List.sublist_cons_self y rest).cons_cons x
      exact ih (fun a ha => hS a (hsub.subset ha)) (List.Pairwise.sublist hsub hsorted)
  | case4 x y rest hxy ih =>
      have hx : x ∈ S := hS x List.mem_cons_self
      have hy : y ∈ S := hS y (by simp)
      have htail : ∀ a ∈ y :: rest, a ∈ S := fun a ha => hS a (List.mem_cons_of_mem _ ha)
      obtain ⟨hfirst, hrest⟩ := List.pairwise_cons.mp hsorted
      refine List.pairwise_cons.mpr ⟨fun z hz => ?_, ih htail hrest⟩
      -- `x` is below `y`, and nothing in the rest is below `y`
      have hyx : less y x = false := hfirst y List.mem_cons_self
      have hlt : less x y = true := by
        by_contra hnot
        rw [Bool.not_eq_true] at hnot
        exact hxy ((h.incomparable_iff x hx y hy).mp ⟨hnot, hyx⟩)
      have hzmem : z ∈ y :: rest := (unique_sublist _).subset hz
      have hzS : z ∈ S := htail z hzmem
      have hzy : less z y = false := by
        rcases List.mem_cons.mp hzmem with rfl | hzrest
        · exact h.irrefl z hy
        · exact List.rel_of_pairwise_cons hrest hzrest
      rw [← Bool.not_eq_true]
      intro hsame
      obtain ⟨hxz, hzx⟩ := (h.incomparable_iff x hx z hzS).mpr hsame
      cases hyz : less y z with
      | true =>
          have := h.trans x hx y hy z hzS hlt hyz
          simp [hxz] at this
      | false =>
          have := (h.incomparable_trans x hx z hzS y hy hxz hzx hzy hyz).1
          simp [hlt] at this

end StdAlgorithm
