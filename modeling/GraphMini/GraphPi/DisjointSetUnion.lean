import Mathlib.Data.Fintype.BigOperators
import Mathlib.Logic.Function.Iterate
import Mathlib.Tactic

/-!
# Disjoint sets

`DisjointSetUnion` of GraphPi: a forest of fathers, where looking up the father of a set makes it the
father of everything on the way. After any merges the maps that are constant on the sets are those that
agree on each pair that was merged, and `set_size` is the number of sets.
-/

namespace GraphMini

namespace GraphPi

structure DisjointSetUnion where
  size : ℕ
  setSize : ℕ
  father : ℕ → ℕ

namespace DisjointSetUnion

def init (n : ℕ) : DisjointSetUnion := { size := n, setSize := n, father := fun i => i }

/-- `get_father`. There are not more fathers on a way than sets have been merged. -/
def getFather : ℕ → (ℕ → ℕ) → ℕ → ℕ × (ℕ → ℕ)
  | 0, father, a => (a, father)
  | fuel + 1, father, a =>
      if father a = a then (a, father)
      else
        let (root, father) := getFather fuel father (father a)
        (root, Function.update father a root)

def merge (dsu : DisjointSetUnion) (id1 id2 : ℕ) : DisjointSetUnion :=
  let (fa1, father) := getFather dsu.size dsu.father id1
  let (fa2, father) := getFather dsu.size father id2
  if fa1 ≠ fa2 then
    { dsu with setSize := dsu.setSize - 1, father := Function.update father fa1 fa2 }
  else { dsu with father }

end DisjointSetUnion

/-! ### The forest -/

/-- On the way to a root the depth decreases. -/
structure Forest (n : ℕ) (father depth : ℕ → ℕ) : Prop where
  lt : ∀ a < n, father a < n
  depth_lt : ∀ a < n, father a ≠ a → depth (father a) < depth a

/-- A map that does not tell a node from its father. -/
def Constant (n : ℕ) (father f : ℕ → ℕ) : Prop := ∀ a < n, f (father a) = f a

instance (n : ℕ) (father f : ℕ → ℕ) : Decidable (Constant n father f) :=
  inferInstanceAs (Decidable (∀ a < n, f (father a) = f a))

/-- The color of a node. -/
def color {n q : ℕ} (f : Fin n → Fin q) (a : ℕ) : ℕ := if h : a < n then f ⟨a, h⟩ else 0

def roots (n : ℕ) (father : ℕ → ℕ) : Finset ℕ := {a ∈ Finset.range n | father a = a}

section

variable {n fuel a b : ℕ} {father depth f : ℕ → ℕ}

theorem color_of_lt {q : ℕ} {f : Fin n → Fin q} (ha : a < n) : color f a = f ⟨a, ha⟩ := dif_pos ha

theorem mem_roots : a ∈ roots n father ↔ a < n ∧ father a = a := by
  rw [roots, Finset.mem_filter, Finset.mem_range]

namespace Forest

variable (h : Forest n father depth)

include h

theorem iterate_lt (ha : a < n) (k : ℕ) : father^[k] a < n := by
  induction k with
  | zero => exact ha
  | succ k ih =>
      rw [Function.iterate_succ_apply']
      exact h.lt _ ih

theorem iterate_root (ha : a < n) {k : ℕ} (hk : depth a ≤ k) : father (father^[k] a) = father^[k] a := by
  induction k generalizing a with
  | zero =>
      by_contra hne
      have hlt := h.depth_lt a ha hne
      omega
  | succ k ih =>
      rw [Function.iterate_succ_apply]
      by_cases hroot : father a = a
      · rw [hroot, Function.iterate_fixed hroot, hroot]
      · apply ih (h.lt a ha)
        have hlt := h.depth_lt a ha hroot
        omega

theorem constant_iterate (hf : Constant n father f) (ha : a < n) (k : ℕ) : f (father^[k] a) = f a := by
  induction k with
  | zero => rfl
  | succ k ih =>
      rw [Function.iterate_succ_apply', hf _ (h.iterate_lt ha k)]
      exact ih

/-- What looking up a father leaves: the root is found, the way to it is short, and nothing else. -/
theorem getFather_spec (ha : a < n) (hfuel : depth a < fuel) :
    ∃ root father', DisjointSetUnion.getFather fuel father a = (root, father') ∧ root ∈ roots n father ∧
      depth root ≤ depth a ∧ father' a = root ∧ Forest n father' depth ∧
      (∀ x, depth a < depth x → father' x = father x) ∧ roots n father' = roots n father ∧
      (∀ f, Constant n father f → f root = f a) ∧ ∀ f, Constant n father' f ↔ Constant n father f := by
  induction fuel generalizing a with
  | zero => omega
  | succ fuel ih =>
      by_cases hroot : father a = a
      · refine ⟨a, father, ?_, mem_roots.mpr ⟨ha, hroot⟩, le_rfl, hroot, h, fun _ _ => rfl, rfl,
          fun _ _ => rfl, fun _ => Iff.rfl⟩
        rw [DisjointSetUnion.getFather, if_pos hroot]
      · have hdepth := h.depth_lt a ha hroot
        obtain ⟨root, father', hrun, hmem, hle, hfather, hforest, hframe, hroots, hsame, hconstant⟩ :=
          ih (h.lt a ha) (by omega)
        obtain ⟨hlt, hfixed⟩ := mem_roots.mp hmem
        have hold : father' a = father a := hframe a hdepth
        have hne : root ≠ a := by
          rintro rfl
          omega
        refine ⟨root, Function.update father' a root, ?_, hmem, by omega, Function.update_self .., ?_, ?_, ?_,
          ?_, ?_⟩
        · rw [DisjointSetUnion.getFather, if_neg hroot, hrun]
        · constructor
          · intro x hx
            by_cases hxa : x = a
            · rw [hxa, Function.update_self]
              exact hlt
            · rw [Function.update_of_ne hxa]
              exact hforest.lt x hx
          · intro x hx hxroot
            by_cases hxa : x = a
            · rw [hxa, Function.update_self]
              omega
            · rw [Function.update_of_ne hxa] at hxroot ⊢
              exact hforest.depth_lt x hx hxroot
        · intro x hx
          have hxa : x ≠ a := by
            rintro rfl
            omega
          rw [Function.update_of_ne hxa]
          exact hframe x (by omega)
        · rw [← hroots]
          ext x
          rw [mem_roots, mem_roots]
          apply and_congr_right
          intro _
          by_cases hxa : x = a
          · rw [hxa, Function.update_self, hold]
            exact iff_of_false hne hroot
          · rw [Function.update_of_ne hxa]
        · intro f hf
          rw [hsame f hf]
          exact hf a ha
        · intro f
          rw [← hconstant f]
          have hway : father a ≠ a → Function.update father' a root (father a) = father' (father a) := fun hne =>
            Function.update_of_ne hne _ _
          constructor
          · intro hf x hx
            by_cases hxa : x = a
            · have hstart := hf a ha
              have hnext := hf (father a) (h.lt a ha)
              rw [Function.update_self] at hstart
              rw [hway hroot, hfather] at hnext
              rw [hxa, hold, ← hnext, hstart]
            · have hfx := hf x hx
              rwa [Function.update_of_ne hxa] at hfx
          · intro hf x hx
            by_cases hxa : x = a
            · rw [hxa, Function.update_self, hsame f ((hconstant f).mp hf)]
              exact (hconstant f).mp hf a ha
            · rw [Function.update_of_ne hxa]
              exact hf x hx

/-- A root below another. -/
theorem link (ha : a ∈ roots n father) (hb : b ∈ roots n father) (hne : a ≠ b) :
    Forest n (Function.update father a b) (fun x => if x = b then 0 else depth x + 1) ∧
      roots n (Function.update father a b) = (roots n father).erase a ∧
      ∀ f, Constant n (Function.update father a b) f ↔ Constant n father f ∧ f a = f b := by
  obtain ⟨halt, haroot⟩ := mem_roots.mp ha
  obtain ⟨hblt, hbroot⟩ := mem_roots.mp hb
  refine ⟨⟨?_, ?_⟩, ?_, ?_⟩
  · intro x hx
    by_cases hxa : x = a
    · rw [hxa, Function.update_self]
      exact hblt
    · rw [Function.update_of_ne hxa]
      exact h.lt x hx
  · intro x hx hxroot
    by_cases hxa : x = a
    · rw [hxa, Function.update_self, if_pos rfl, if_neg hne]
      exact Nat.succ_pos _
    · rw [Function.update_of_ne hxa] at hxroot ⊢
      have hxb : x ≠ b := by
        rintro rfl
        exact hxroot hbroot
      have hlt := h.depth_lt x hx hxroot
      rw [if_neg hxb]
      split <;> omega
  · ext x
    rw [Finset.mem_erase, mem_roots, mem_roots]
    by_cases hxa : x = a
    · rw [hxa, Function.update_self]
      simp [Ne.symm hne]
    · rw [Function.update_of_ne hxa]
      simp [hxa]
  · intro f
    constructor
    · intro hf
      have hab := hf a halt
      rw [Function.update_self] at hab
      refine ⟨fun x hx => ?_, hab.symm⟩
      by_cases hxa : x = a
      · rw [hxa, haroot]
      · have hfx := hf x hx
        rwa [Function.update_of_ne hxa] at hfx
    · rintro ⟨hf, hab⟩ x hx
      by_cases hxa : x = a
      · rw [hxa, Function.update_self, hab]
      · rw [Function.update_of_ne hxa]
        exact hf x hx

theorem roots_nonempty (hn : 0 < n) : (roots n father).Nonempty :=
  ⟨father^[depth 0] 0, mem_roots.mpr ⟨h.iterate_lt hn _, h.iterate_root hn le_rfl⟩⟩

/-- More steps lead to the same root. -/
theorem iterate_eq (ha : a < n) {k : ℕ} (hk : depth a ≤ k) : father^[k] a = father^[depth a] a := by
  obtain ⟨j, rfl⟩ := Nat.exists_eq_add_of_le hk
  rw [Nat.add_comm, Function.iterate_add_apply]
  exact Function.iterate_fixed (h.iterate_root ha le_rfl) j

/-- A coloring that is constant on the trees is a choice of a color for each root. -/
theorem card_constant (q : ℕ) :
    (Finset.univ.filter fun f : Fin n → Fin q => Constant n father (color f)).card
      = q ^ (roots n father).card := by
  have hroot : ∀ a < n, father^[depth a] a ∈ roots n father := fun a ha =>
    mem_roots.mpr ⟨h.iterate_lt ha _, h.iterate_root ha le_rfl⟩
  have hfather : ∀ a < n, father^[depth (father a)] (father a) = father^[depth a] a := by
    intro a ha
    by_cases hfixed : father a = a
    · rw [hfixed]
    · rw [← h.iterate_eq (h.lt a ha) (h.depth_lt a ha hfixed).le, ← Function.iterate_succ_apply,
        h.iterate_eq ha (Nat.le_succ _)]
  let choices : {f : Fin n → Fin q // Constant n father (color f)} ≃ (roots n father → Fin q) :=
    { toFun := fun f r => f.1 ⟨r.1, (mem_roots.mp r.2).1⟩
      invFun := fun g => ⟨fun a => g ⟨_, hroot a a.isLt⟩, fun a ha => by
        rw [color_of_lt ha, color_of_lt (h.lt a ha)]
        congr 2
        exact Subtype.ext (hfather a ha)⟩
      left_inv := fun f => by
        apply Subtype.ext
        funext a
        have hconstant := h.constant_iterate f.2 a.isLt (depth a)
        rw [color_of_lt a.isLt, color_of_lt (h.iterate_lt a.isLt _)] at hconstant
        exact Fin.ext hconstant
      right_inv := fun g => by
        funext r
        apply congrArg g
        apply Subtype.ext
        exact Function.iterate_fixed (mem_roots.mp r.2).2 _ }
  rw [← Fintype.card_subtype, Fintype.card_congr choices, Fintype.card_fun, Fintype.card_fin, Fintype.card_coe]

end Forest

end

/-! ### Merging -/

/-- The sets after the pairs have been merged. -/
structure Joins (n : ℕ) (dsu : DisjointSetUnion) (pairs : List (ℕ × ℕ)) : Prop where
  size : dsu.size = n
  forest : ∃ depth, Forest n dsu.father depth ∧ ∀ a < n, depth a + dsu.setSize ≤ n
  roots : (roots n dsu.father).card = dsu.setSize
  constant : ∀ f, Constant n dsu.father f ↔ ∀ pair ∈ pairs, f pair.1 = f pair.2

theorem joins_init (n : ℕ) : Joins n (DisjointSetUnion.init n) [] := by
  refine ⟨rfl, ⟨fun _ => 0, ⟨fun a ha => ha, fun a _ hne => absurd rfl hne⟩, fun a _ => ?_⟩, ?_, ?_⟩
  · exact (Nat.zero_add n).le
  · simp [GraphPi.roots, DisjointSetUnion.init]
  · intro f
    simp [Constant, DisjointSetUnion.init]

namespace Joins

variable {n a b : ℕ} {dsu : DisjointSetUnion} {pairs : List (ℕ × ℕ)}

theorem merge (h : Joins n dsu pairs) (ha : a < n) (hb : b < n) :
    Joins n (dsu.merge a b) (pairs ++ [(a, b)]) := by
  obtain ⟨hsize, ⟨depth, hforest, hdepth⟩, hroots, hconstant⟩ := h
  have hpos : 0 < dsu.setSize := hroots ▸ Finset.card_pos.mpr (hforest.roots_nonempty (by omega))
  have hfuel : ∀ x < n, depth x < dsu.size := fun x hx => by
    have hle := hdepth x hx
    omega
  obtain ⟨fa1, father₁, hrun₁, hmem₁, -, -, hforest₁, -, hroots₁, hsame₁, hconstant₁⟩ :=
    hforest.getFather_spec ha (hfuel a ha)
  obtain ⟨fa2, father₂, hrun₂, hmem₂, -, -, hforest₂, -, hroots₂, hsame₂, hconstant₂⟩ :=
    hforest₁.getFather_spec hb (hfuel b hb)
  have hends : ∀ f, Constant n father₂ f → f fa1 = f a ∧ f fa2 = f b := by
    intro f hf
    have hf₁ := (hconstant₂ f).mp hf
    exact ⟨hsame₁ f ((hconstant₁ f).mp hf₁), hsame₂ f hf₁⟩
  have hpairs : ∀ f : ℕ → ℕ, (∀ pair ∈ pairs ++ [(a, b)], f pair.1 = f pair.2) ↔
      Constant n father₂ f ∧ f a = f b := by
    intro f
    rw [hconstant₂, hconstant₁, hconstant]
    simp [or_imp, forall_and]
  rw [DisjointSetUnion.merge, hrun₁]
  simp only [hrun₂]
  by_cases hne : fa1 = fa2
  · rw [if_neg (not_not.mpr hne)]
    refine ⟨hsize, ⟨depth, hforest₂, hdepth⟩, ?_, ?_⟩
    · rw [hroots₂, hroots₁, hroots]
    · intro f
      rw [hpairs]
      refine (and_iff_left_of_imp fun hf => ?_).symm
      rw [← (hends f hf).1, ← (hends f hf).2, hne]
  · rw [if_pos hne]
    have hmem₁' : fa1 ∈ GraphPi.roots n father₂ := by rwa [hroots₂, hroots₁]
    have hmem₂' : fa2 ∈ GraphPi.roots n father₂ := by rwa [hroots₂]
    obtain ⟨hlink, herase, hiff⟩ := hforest₂.link hmem₁' hmem₂' hne
    refine ⟨hsize, ⟨_, hlink, fun x hx => ?_⟩, ?_, ?_⟩
    · have hle := hdepth x hx
      show (if x = fa2 then 0 else depth x + 1) + (dsu.setSize - 1) ≤ n
      split <;> omega
    · show (GraphPi.roots n (Function.update father₂ fa1 fa2)).card = dsu.setSize - 1
      rw [herase, Finset.card_erase_of_mem hmem₁', hroots₂, hroots₁, hroots]
    · intro f
      rw [hiff f, hpairs]
      apply and_congr_right
      intro hf
      rw [(hends f hf).1, (hends f hf).2]

/-- As many choices of a color as there are sets. -/
theorem card_colorings (h : Joins n dsu pairs) (q : ℕ) :
    (Finset.univ.filter fun f : Fin n → Fin q => ∀ pair ∈ pairs, color f pair.1 = color f pair.2).card
      = q ^ dsu.setSize := by
  obtain ⟨depth, hforest, -⟩ := h.forest
  rw [← h.roots, ← hforest.card_constant q]
  congr 1
  ext f
  rw [Finset.mem_filter, Finset.mem_filter, h.constant]

end Joins

end GraphPi

end GraphMini
