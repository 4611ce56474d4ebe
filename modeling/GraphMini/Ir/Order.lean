import GraphMini.Ir.Superset
import GraphMini.Lib.WeakOrder
import Mathlib.Data.List.Lex
import Mathlib.Data.Prod.Lex

/-!
# The order of the operations

`operator<` of `VertexSetIR` says yes as soon as one of three comparisons does: of the numbers of
edges, of the numbers of restrictions, and of the bits. A comparison that points the other way does
not stop it, so two sets can each be less than the other. Where the three never point in opposite
directions the operator compares the bits alone, which is a strict weak order.
-/

namespace GraphMini

open StdAlgorithm

namespace VertexSetIR

/-- The bits up to the loop depth, the edges before the restrictions. -/
def bitKey (v : VertexSetIR) : List Bool ×ₗ List Bool :=
  toLex ((List.range (v.loopDepth + 1)).map v.isEdge,
    (List.range (v.loopDepth + 1)).map v.isRestricted)

/-- If `l` has fewer edges or fewer restrictions, it has more of neither and its bits come first. -/
def Aligned (l r : VertexSetIR) : Prop :=
  l.edgeNum < r.edgeNum ∨ l.restrictNum < r.restrictNum →
    l.edgeNum ≤ r.edgeNum ∧ l.restrictNum ≤ r.restrictNum ∧ l.bitKey < r.bitKey

variable {l r : VertexSetIR} {dep : ℕ}

theorem scanLess_eq_some_true_iff {f g : ℕ → Bool} (is : List ℕ) :
    scanLess f g is = some true ↔ is.map f < is.map g := by
  induction is with
  | nil => simp [scanLess]
  | cons i is ih =>
      rw [scanLess, List.map_cons, List.map_cons, List.cons_lt_cons_iff, ← ih]
      cases f i <;> cases g i <;> simp

theorem scanLess_eq_none_iff {f g : ℕ → Bool} (is : List ℕ) :
    scanLess f g is = none ↔ is.map f = is.map g := by
  induction is with
  | nil => simp [scanLess]
  | cons i is ih =>
      rw [scanLess, List.map_cons, List.map_cons, List.cons_eq_cons, ← ih]
      cases f i <;> cases g i <;> simp

/-- At one depth the operator is the disjunction of three comparisons. -/
theorem less_iff (hdep : l.loopDepth = r.loopDepth) :
    l.less r = true ↔
      l.edgeNum < r.edgeNum ∨ l.restrictNum < r.restrictNum ∨ l.bitKey < r.bitKey := by
  have hbits : l.bitKey < r.bitKey ↔
      (scanLess l.isEdge r.isEdge (List.range (l.loopDepth + 1))).getD
        ((scanLess l.isRestricted r.isRestricted (List.range (l.loopDepth + 1))).getD false) = true := by
    rw [bitKey, bitKey, ← hdep, Prod.Lex.toLex_lt_toLex, ← scanLess_eq_some_true_iff,
      ← scanLess_eq_none_iff, ← scanLess_eq_some_true_iff]
    cases scanLess l.isEdge r.isEdge (List.range (l.loopDepth + 1)) with
    | some b => simp
    | none =>
        cases scanLess l.isRestricted r.isRestricted (List.range (l.loopDepth + 1)) with
        | some b => simp
        | none => simp
  rw [hbits, less, if_neg (by omega)]
  by_cases hedge : l.edgeNum < r.edgeNum
  · simp [hedge]
  by_cases hrestrict : l.restrictNum < r.restrictNum
  · simp [hrestrict]
  rw [if_neg hedge, if_neg hrestrict, or_iff_right hedge, or_iff_right hrestrict]
  cases scanLess l.isEdge r.isEdge (List.range (l.loopDepth + 1)) <;> simp

theorem bitKey_eq_iff (hl : l.Bounded) (hr : r.Bounded) (hdep : l.loopDepth = r.loopDepth) :
    l.bitKey = r.bitKey ↔ l.same r = true := by
  have hmap : ∀ {a b : Finset ℕ}, (∀ i ∈ a, i ≤ l.loopDepth) → (∀ i ∈ b, i ≤ l.loopDepth) →
      ((List.range (l.loopDepth + 1)).map (fun i => decide (i ∈ a))
        = (List.range (l.loopDepth + 1)).map (fun i => decide (i ∈ b)) ↔ a = b) := by
    intro a b ha hb
    rw [List.map_inj_left]
    constructor
    · intro h
      ext i
      by_cases hi : i ≤ l.loopDepth
      · simpa using h i (List.mem_range.mpr (Nat.lt_succ_of_le hi))
      · exact iff_of_false (fun hmem => hi (ha i hmem)) fun hmem => hi (hb i hmem)
    · rintro rfl i -
      rfl
  rw [same_iff, bitKey, bitKey, ← hdep, toLex_inj, Prod.mk.injEq]
  have hedges := hmap hl.edges_le (hdep ▸ hr.edges_le)
  have hrestricts := hmap hl.restricts_le (hdep ▸ hr.restricts_le)
  simp only [hdep, and_true]
  rw [← hdep]
  exact and_congr hedges hrestricts

/-- Between aligned sets the operator compares the bits. -/
theorem less_iff_bitKey_lt (hdep : l.loopDepth = r.loopDepth) (h : l.Aligned r) :
    l.less r = true ↔ l.bitKey < r.bitKey := by
  rw [less_iff hdep]
  constructor
  · rintro (hedge | hrestrict | hbits)
    · exact (h (Or.inl hedge)).2.2
    · exact (h (Or.inr hrestrict)).2.2
    · exact hbits
  · exact fun hbits => Or.inr (Or.inr hbits)

/-- Sets of which not both are less than the other are aligned. -/
theorem aligned_of_asymm (hl : l.Bounded) (hr : r.Bounded) (hdep : l.loopDepth = r.loopDepth)
    (hasymm : l.less r = true → r.less l = false) : l.Aligned r := by
  intro hcount
  have hless : l.less r = true := by
    rw [less_iff hdep]
    tauto
  have hnot : ¬ r.less l = true := by simp [hasymm hless]
  rw [less_iff hdep.symm, not_or, not_or, not_lt, not_lt, not_lt] at hnot
  refine ⟨hnot.1, hnot.2.1, lt_of_le_of_ne hnot.2.2 fun heq => ?_⟩
  obtain ⟨he, hres, -⟩ := same_iff.mp ((bitKey_eq_iff hl hr hdep).mp heq)
  rw [edgeNum, edgeNum, restrictNum, restrictNum, he, hres] at hcount
  omega

/-- The values of one depth, as the constructor builds them. -/
def AtDepth (dep : ℕ) (S : Set VertexSetIR) : Prop := ∀ v ∈ S, v.Bounded ∧ v.loopDepth = dep

variable {S : Set VertexSetIR}

/-- `operator<` is a strict weak order on exactly the aligned sets. -/
theorem strictWeakOrderOn_less_iff (hS : AtDepth dep S) :
    StrictWeakOrderOn less same S ↔ ∀ l ∈ S, ∀ r ∈ S, l.Aligned r := by
  have hdep : ∀ l ∈ S, ∀ r ∈ S, l.loopDepth = r.loopDepth :=
    fun l hl r hr => (hS l hl).2.trans (hS r hr).2.symm
  constructor
  · intro h l hl r hr
    exact aligned_of_asymm (hS l hl).1 (hS r hr).1 (hdep l hl r hr) (h.asymm l hl r hr)
  · intro h
    refine .of_key bitKey (fun l hl r hr => less_iff_bitKey_lt (hdep l hl r hr) (h l hl r hr)) ?_
    exact fun l hl r hr => (bitKey_eq_iff (hS l hl).1 (hS r hr).1 (hdep l hl r hr)).symm

end VertexSetIR

namespace MiniGraphIR

open VertexSetIR

/-- The bits of the vertices before those of the intersect set. -/
def bitKey (mg : MiniGraphIR) : (List Bool ×ₗ List Bool) ×ₗ (List Bool ×ₗ List Bool) :=
  toLex (mg.vertices.bitKey, mg.intersect.bitKey)

/-- The vertices are aligned, and the intersect sets where the vertices do not decide. -/
def Aligned (l r : MiniGraphIR) : Prop :=
  l.vertices.Aligned r.vertices ∧
    (l.vertices.same r.vertices = true → l.intersect.Aligned r.intersect)

/-- The mini-graphs of one depth. -/
def AtDepth (dep : ℕ) (S : Set MiniGraphIR) : Prop :=
  ∀ mg ∈ S, (mg.vertices.Bounded ∧ mg.vertices.loopDepth = dep)
    ∧ mg.intersect.Bounded ∧ mg.intersect.loopDepth = dep

section

variable {l r : MiniGraphIR} {dep : ℕ} {S : Set MiniGraphIR} (hS : AtDepth dep S) (hl : l ∈ S)
  (hr : r ∈ S)

include hS hl hr

theorem vertices_depth : l.vertices.loopDepth = r.vertices.loopDepth :=
  (hS l hl).1.2.trans (hS r hr).1.2.symm

theorem intersect_depth : l.intersect.loopDepth = r.intersect.loopDepth :=
  (hS l hl).2.2.trans (hS r hr).2.2.symm

theorem bitKey_eq_iff : l.bitKey = r.bitKey ↔ l.same r = true := by
  rw [bitKey, bitKey, toLex_inj, Prod.mk.injEq,
    VertexSetIR.bitKey_eq_iff (hS l hl).1.1 (hS r hr).1.1 (vertices_depth hS hl hr),
    VertexSetIR.bitKey_eq_iff (hS l hl).2.1 (hS r hr).2.1 (intersect_depth hS hl hr),
    MiniGraphIR.same, Bool.and_eq_true, and_comm]

/-- Sets that are the same are not less than each other. -/
theorem vertices_less_of_same (hsame : l.vertices.same r.vertices = true) :
    l.vertices.less r.vertices = false := by
  obtain ⟨he, hres, -⟩ := same_iff.mp hsame
  have hkey := (VertexSetIR.bitKey_eq_iff (hS l hl).1.1 (hS r hr).1.1
    (vertices_depth hS hl hr)).mpr hsame
  rw [← Bool.not_eq_true, VertexSetIR.less_iff (vertices_depth hS hl hr), hkey, edgeNum, edgeNum,
    restrictNum, restrictNum, he, hres]
  simp

theorem less_of_same (hsame : l.vertices.same r.vertices = true) :
    l.less r = true ↔ l.same r = false ∧ l.intersect.less r.intersect = true := by
  have h₁ := vertices_less_of_same hS hl hr hsame
  have h₂ := vertices_less_of_same hS hr hl (same_symm hsame)
  have hswap : r.same l = l.same r := by
    rw [Bool.eq_iff_iff, ← bitKey_eq_iff hS hr hl, ← bitKey_eq_iff hS hl hr, eq_comm]
  rw [MiniGraphIR.less, h₁, h₂, hswap]
  cases l.same r <;> simp

theorem less_of_not_same (hsame : l.vertices.same r.vertices = false)
    (halign : l.vertices.Aligned r.vertices) (halign' : r.vertices.Aligned l.vertices) :
    l.less r = true ↔ l.vertices.bitKey < r.vertices.bitKey := by
  have hdep := vertices_depth hS hl hr
  have hne : l.vertices.bitKey ≠ r.vertices.bitKey := by
    rw [Ne, VertexSetIR.bitKey_eq_iff (hS l hl).1.1 (hS r hr).1.1 hdep]
    simp [hsame]
  have hmg : r.same l = false := by
    rw [← Bool.not_eq_true, ← bitKey_eq_iff hS hr hl, bitKey, bitKey, toLex_inj, Prod.mk.injEq]
    exact fun h => hne h.1.symm
  have h₁ := less_iff_bitKey_lt hdep halign
  have h₂ := less_iff_bitKey_lt hdep.symm halign'
  rw [MiniGraphIR.less, hmg]
  rcases lt_or_gt_of_ne hne with hlt | hgt
  · simp [h₁.mpr hlt, hlt]
  · have hnot : ¬ l.vertices.less r.vertices = true := fun h => lt_asymm hgt (h₁.mp h)
    simp [hnot, h₂.mpr hgt, not_lt.mpr hgt.le]

end

variable {dep : ℕ} {S : Set MiniGraphIR}

/-- `operator<` of the mini-graphs is a strict weak order on exactly the aligned ones. -/
theorem strictWeakOrderOn_less_iff (hS : AtDepth dep S) :
    StrictWeakOrderOn less same S ↔ ∀ l ∈ S, ∀ r ∈ S, l.Aligned r := by
  constructor
  · intro h l hl r hr
    have hasymm := h.asymm l hl r hr
    refine ⟨?_, fun hsame => ?_⟩
    · apply aligned_of_asymm (hS l hl).1.1 (hS r hr).1.1 (vertices_depth hS hl hr)
      intro hless
      by_contra hnot
      rw [Bool.not_eq_false] at hnot
      -- the vertices decide both ways
      have hne : l.same r = false ∧ r.same l = false := by
        have hv : l.vertices.same r.vertices = false := by
          rw [← Bool.not_eq_true]
          intro hsame
          simp [vertices_less_of_same hS hl hr hsame] at hless
        have hv' : r.vertices.same l.vertices = false := by
          rw [← Bool.not_eq_true]
          intro hsame
          simp [vertices_less_of_same hS hr hl hsame] at hnot
        simp [MiniGraphIR.same, hv, hv']
      have h₁ : l.less r = true := by simp [MiniGraphIR.less, hne.2, hless]
      have h₂ : r.less l = true := by simp [MiniGraphIR.less, hne.1, hnot]
      simp [hasymm h₁] at h₂
    · apply aligned_of_asymm (hS l hl).2.1 (hS r hr).2.1 (intersect_depth hS hl hr)
      intro hless
      by_contra hnot
      rw [Bool.not_eq_false] at hnot
      have hdiff : ∀ {a b : VertexSetIR}, a.Bounded → b.Bounded → a.loopDepth = b.loopDepth →
          a.less b = true → b.less a = true → a.same b = false := by
        intro a b ha hb hdep hab hba
        rw [← Bool.not_eq_true]
        intro hsame'
        obtain ⟨he, hres, -⟩ := same_iff.mp hsame'
        have hkey := (VertexSetIR.bitKey_eq_iff ha hb hdep).mpr hsame'
        rw [VertexSetIR.less_iff hdep, hkey, edgeNum, edgeNum, restrictNum, restrictNum, he, hres]
          at hab
        simp at hab
      have hi := hdiff (hS l hl).2.1 (hS r hr).2.1 (intersect_depth hS hl hr) hless hnot
      have hi' := hdiff (hS r hr).2.1 (hS l hl).2.1 (intersect_depth hS hr hl) hnot hless
      have h₁ := (less_of_same hS hl hr hsame).mpr ⟨by simp [MiniGraphIR.same, hi], hless⟩
      have h₂ := (less_of_same hS hr hl (same_symm hsame)).mpr
        ⟨by simp [MiniGraphIR.same, hi'], hnot⟩
      simp [hasymm h₁] at h₂
  · intro h
    refine .of_key bitKey (fun l hl r hr => ?_) fun l hl r hr => (bitKey_eq_iff hS hl hr).symm
    rw [bitKey, bitKey, Prod.Lex.toLex_lt_toLex]
    have hv := VertexSetIR.bitKey_eq_iff (hS l hl).1.1 (hS r hr).1.1 (vertices_depth hS hl hr)
    cases hsame : l.vertices.same r.vertices with
    | true =>
        have hkey := hv.mpr hsame
        have hi := less_iff_bitKey_lt (intersect_depth hS hl hr) ((h l hl r hr).2 hsame)
        rw [less_of_same hS hl hr hsame, hi]
        simp only [hkey, lt_self_iff_false, true_and, false_or, and_iff_right_iff_imp]
        intro hlt
        rw [← Bool.not_eq_true, ← bitKey_eq_iff hS hl hr, bitKey, bitKey, toLex_inj, Prod.mk.injEq]
        exact fun heq => hlt.ne heq.2
    | false =>
        have hkey : l.vertices.bitKey ≠ r.vertices.bitKey := by
          rw [Ne, hv]
          simp [hsame]
        rw [less_of_not_same hS hl hr hsame (h l hl r hr).1 (h r hr l hl).1]
        simp [hkey]

end MiniGraphIR

end GraphMini
