import GraphMini.Lib.SymmetryBreaking
import GraphMini.Spec.Embedding

/-!
# The redundancy of the inclusion-exclusion mode

`Schedule::get_schedule` divides the orderings of the pattern vertices that keep the pairs up to the first
of the last vertices by those that keep all pairs. The sets of the plan keep every closed restriction by a
vertex before the last ones. Where each ordering has as many automorphic images under these restrictions
as the redundancy says, so has each embedding.
-/

namespace GraphMini

open Equiv SymmetryBreaking

namespace Schedule

variable (sc : Schedule) (pSize : ℕ)

/-- The permutations of the pattern vertices that keep edges and non-edges. -/
def automorphisms : Subgroup (Perm (Fin pSize)) where
  carrier := {β | ∀ i j : Fin pSize, marked pSize sc.adjMat i j ↔ marked pSize sc.adjMat (β i) (β j)}
  mul_mem' := fun {β γ} hβ hγ i j => (hγ i j).trans (hβ (γ i) (γ j))
  one_mem' := fun _ _ => Iff.rfl
  inv_mem' := fun {β} hβ i j => by
    have h := hβ (β⁻¹ i) (β⁻¹ j)
    simpa using h.symm

instance : DecidablePred (· ∈ sc.automorphisms pSize) := fun β =>
  inferInstanceAs (Decidable (∀ i j : Fin pSize,
    marked pSize sc.adjMat i j ↔ marked pSize sc.adjMat (β i) (β j)))

/-- A restriction pair. -/
def Pair (a b : ℕ) : Prop := (a, b) ∈ sc.restrictPair

/-- A pair that the matcher keeps when it computes the redundancy. -/
def CountedPair (a b : ℕ) : Prop := (a, b) ∈ sc.restrictPair ∧ b + sc.inExclusionOptimizeNum ≤ pSize

/-- A restriction that the sets of the inclusion-exclusion mode keep. -/
def KeptPair (a b : ℕ) : Prop := a ∈ sc.restrict pSize b ∧ a + sc.inExclusionOptimizeNum < pSize

instance (a b : ℕ) : Decidable (sc.Pair a b) :=
  inferInstanceAs (Decidable ((a, b) ∈ sc.restrictPair))

instance (a b : ℕ) : Decidable (sc.CountedPair pSize a b) :=
  inferInstanceAs (Decidable ((a, b) ∈ sc.restrictPair ∧ b + sc.inExclusionOptimizeNum ≤ pSize))

instance (a b : ℕ) : Decidable (sc.KeptPair pSize a b) :=
  inferInstanceAs (Decidable (a ∈ sc.restrict pSize b ∧ a + sc.inExclusionOptimizeNum < pSize))

/-- The orderings of the pattern vertices that keep the pairs. -/
def orderings (pair : ℕ → ℕ → Prop) [∀ a b, Decidable (pair a b)] : Finset (Perm (Fin pSize)) :=
  {σ | Obeys pair σ}

/-- `in_exclusion_optimize_redundancy`: the matcher counts the orderings on a complete graph. -/
def redundancy : ℕ :=
  let ans := (orderings pSize (sc.CountedPair pSize)).card
  let trueAns := (orderings pSize sc.Pair).card
  if trueAns ≠ 0 then ans / trueAns else 1

/-- The pairs leave one representative of each class of automorphic orderings. -/
def OneRepresentative : Prop :=
  ∀ σ : Perm (Fin pSize), Picks (sc.automorphisms pSize) (Obeys sc.Pair) (σ : Fin pSize → Fin pSize)

/-- Every ordering that keeps the pairs has as many automorphic images under the restrictions of the sets
as the redundancy says. -/
def Balanced : Prop :=
  ∀ σ ∈ orderings pSize sc.Pair,
    (images (sc.automorphisms pSize) (Obeys (sc.KeptPair pSize)) (σ : Fin pSize → Fin pSize)).card
      = sc.redundancy pSize

instance : Decidable (sc.OneRepresentative pSize) :=
  inferInstanceAs (Decidable (∀ _ : Perm (Fin pSize), Picks _ _ _))

instance : Decidable (sc.Balanced pSize) :=
  inferInstanceAs (Decidable (∀ σ ∈ orderings pSize sc.Pair, _ = _))

end Schedule

section

variable {t : AdjMatType} {g : Graph} {pSize : ℕ} {sc : Schedule} {f : Fin pSize → ℕ} {σ : Perm (Fin pSize)}
  {pair : ℕ → ℕ → Prop}

/-- Renaming the pattern vertices by an automorphism gives another map of the pattern. -/
theorem maps_comp {β : Perm (Fin pSize)} (hf : f ∈ maps t g pSize sc) (hβ : β ∈ sc.automorphisms pSize) :
    f ∘ β ∈ maps t g pSize sc := by
  obtain ⟨hlt, hmaps⟩ := mem_maps.mp hf
  refine mem_maps.mpr ⟨fun i => hlt (β i), ?_, ?_, ?_⟩
  · exact hmaps.injective.comp β.injective
  · intro i j hmark
    exact hmaps.edge (β i) (β j) ((hβ i j).mp hmark)
  · intro ht i j hne hmark
    apply hmaps.nonEdge ht (β i) (β j)
    · exact fun heq => hne (β.injective heq)
    · exact fun h => hmark ((hβ i j).mpr h)

/-- Whether pairs are kept depends on the order of the values alone. -/
theorem obeys_iff_of_order {α α' : Type} [LT α] [LT α'] {f : Fin pSize → α} {f' : Fin pSize → α'}
    (horder : ∀ i j, f i < f j ↔ f' i < f' j) : Obeys pair f ↔ Obeys pair f' := by
  apply forall₂_congr
  intro a b
  rw [horder]

theorem images_eq_of_order [∀ a b, Decidable (pair a b)] (horder : ∀ i j, σ i < σ j ↔ f i < f j) :
    images (sc.automorphisms pSize) (Obeys pair) f
      = images (sc.automorphisms pSize) (Obeys pair) (σ : Fin pSize → Fin pSize) := by
  ext β
  rw [mem_images, mem_images]
  apply and_congr_right
  intro _
  exact obeys_iff_of_order fun i j => (horder (β i) (β j)).symm

theorem mem_orderings [∀ a b, Decidable (pair a b)] :
    σ ∈ Schedule.orderings pSize pair ↔ Obeys pair σ := by
  rw [Schedule.orderings, Finset.mem_filter]
  exact and_iff_right (Finset.mem_univ σ)

theorem card_orderings_le (pair : ℕ → ℕ → Prop) [∀ a b, Decidable (pair a b)] :
    (Schedule.orderings pSize pair).card ≤ pSize.factorial := by
  calc _ ≤ Fintype.card (Perm (Fin pSize)) := Finset.card_le_univ _
    _ = pSize.factorial := by rw [Fintype.card_perm, Fintype.card_fin]

variable (hrep : sc.OneRepresentative pSize)

include hrep

/-- What holds of the orderings holds of all injective maps. -/
theorem picks_of_injective (hf : Function.Injective f) : Picks (sc.automorphisms pSize) (Obeys sc.Pair) f := by
  obtain ⟨σ, horder⟩ := exists_orderType hf
  rw [picks_iff_card, images_eq_of_order horder]
  exact picks_iff_card.mp (hrep σ)

/-- Where every ordering has as many images under some pairs, so have the embeddings. -/
theorem card_kept_eq_mul [∀ a b, Decidable (pair a b)] {r : ℕ}
    (hr : ∀ σ ∈ Schedule.orderings pSize sc.Pair,
      (images (sc.automorphisms pSize) (Obeys pair) (σ : Fin pSize → Fin pSize)).card = r) :
    ((maps t g pSize sc).filter (Obeys pair)).card = r * (embeddings t g pSize sc).card := by
  have hinj : ∀ f ∈ maps t g pSize sc, Function.Injective f := fun f hf => (mem_maps.mp hf).2.injective
  rw [card_embeddings_eq]
  apply card_filter_eq_mul (A := sc.automorphisms pSize)
  · exact fun f hf β hβ => maps_comp hf hβ
  · exact fun f hf => picks_of_injective hrep (hinj f hf)
  · intro f hf hpairs
    obtain ⟨σ, horder⟩ := exists_orderType (hinj f hf)
    rw [images_eq_of_order horder]
    apply hr
    exact mem_orderings.mpr ((obeys_iff_of_order horder).mpr hpairs)

theorem orderings_card_pos : 0 < (Schedule.orderings pSize sc.Pair).card := by
  obtain ⟨β, ⟨-, hpairs⟩, -⟩ := hrep 1
  apply Finset.card_pos.mpr
  exact ⟨β, mem_orderings.mpr hpairs⟩

theorem redundancy_eq : sc.redundancy pSize
    = (Schedule.orderings pSize (sc.CountedPair pSize)).card / (Schedule.orderings pSize sc.Pair).card :=
  if_pos (orderings_card_pos hrep).ne'

/-- The matcher counts more orderings with fewer pairs. -/
theorem redundancy_pos : 0 < sc.redundancy pSize := by
  have hpos := orderings_card_pos hrep
  rw [redundancy_eq hrep]
  apply Nat.div_pos _ hpos
  apply Finset.card_le_card
  intro σ hσ
  exact mem_orderings.mpr fun a b hab => mem_orderings.mp hσ a b hab.1

end

end GraphMini
