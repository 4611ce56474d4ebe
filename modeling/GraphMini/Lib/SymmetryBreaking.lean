import Mathlib.Data.Fin.Tuple.Sort
import Mathlib.GroupTheory.Perm.Basic
import Mathlib.Tactic

/-!
# Breaking symmetries

A group of permutations of the places moves the maps out of them. Where one property picks a single map
out of each orbit, the maps with another property can be counted orbit by orbit, over the maps that have
been picked.
-/

namespace SymmetryBreaking

open Equiv

section

variable {ι α : Type*} [Fintype ι] [DecidableEq ι] (A : Subgroup (Perm ι)) [DecidablePred (· ∈ A)]
  (P Q : (ι → α) → Prop) [DecidablePred P] [DecidablePred Q]

/-- The members of the group that take `f` to a map with the property. -/
def images (f : ι → α) : Finset (Perm ι) := {β | β ∈ A ∧ Q (f ∘ β)}

/-- The property picks one map of the orbit of `f`. -/
def Picks (f : ι → α) : Prop := ∃! β, β ∈ A ∧ P (f ∘ β)

variable {A P Q} {E : Finset (ι → α)} {r : ℕ}

omit [DecidablePred P] in
theorem mem_images {f : ι → α} {β : Perm ι} : β ∈ images A Q f ↔ β ∈ A ∧ Q (f ∘ β) := by
  rw [images, Finset.mem_filter]
  exact and_iff_right (Finset.mem_univ β)

omit [DecidablePred Q] in
theorem picks_iff_card {f : ι → α} : Picks A P f ↔ (images A P f).card = 1 := by
  rw [Finset.card_eq_one, Picks]
  constructor
  · rintro ⟨β, hβ, hunique⟩
    refine ⟨β, ?_⟩
    ext γ
    rw [mem_images, Finset.mem_singleton]
    exact ⟨hunique γ, fun heq => heq ▸ hβ⟩
  · rintro ⟨β, himages⟩
    refine ⟨β, ?_, fun γ hγ => ?_⟩
    · exact mem_images.mp (himages ▸ Finset.mem_singleton_self β)
    · exact Finset.mem_singleton.mp (himages ▸ mem_images.mpr hγ)

omit [DecidablePred P] in
theorem card_images_of_forall {f : ι → α} (h : ∀ β ∈ A, Q (f ∘ β)) : (images A Q f).card = Nat.card A := by
  have hall : images A Q f = Finset.univ.filter (· ∈ A) := by
    ext β
    rw [mem_images, Finset.mem_filter, and_iff_right (Finset.mem_univ β)]
    exact and_iff_left_of_imp (h β)
  rw [hall, Nat.card_eq_fintype_card, Fintype.card_subtype]

instance (f : ι → α) : Decidable (Picks A P f) := decidable_of_iff _ picks_iff_card.symm

omit [Fintype ι] [DecidableEq ι] [DecidablePred (· ∈ A)] [DecidablePred P] in
/-- Of two maps of an orbit that are picked each is the other. -/
theorem Picks.eq {f f' : ι → α} {β β' : Perm ι} (h : Picks A P f) (hf : P f) (hf' : P f') (hβ : β ∈ A)
    (hβ' : β' ∈ A) (heq : f ∘ β = f' ∘ β') : β = β' := by
  have hmove : f' = f ∘ (β * β'⁻¹ : Perm ι) := by
    funext i
    have hi := congrFun heq (β'⁻¹ i)
    simpa using hi.symm
  have hone : β * β'⁻¹ = 1 := by
    apply h.unique
    · exact ⟨A.mul_mem hβ (A.inv_mem hβ'), hmove ▸ hf'⟩
    · exact ⟨A.one_mem, hf⟩
  exact mul_inv_eq_one.mp hone

variable (hE : ∀ f ∈ E, ∀ β ∈ A, f ∘ β ∈ E) (hP : ∀ f ∈ E, Picks A P f)

include hE hP

/-- The maps with a property are counted over the maps that are picked. -/
theorem card_filter_eq_sum : (E.filter Q).card = ∑ f ∈ E with P f, (images A Q f).card := by
  rw [← Finset.card_sigma, eq_comm]
  apply Finset.card_nbij fun image : (_ : ι → α) × Perm ι => image.1 ∘ image.2
  · rintro ⟨f, β⟩ hin
    obtain ⟨hf, hβ⟩ := Finset.mem_sigma.mp hin
    obtain ⟨hmem, hQ⟩ := mem_images.mp hβ
    exact Finset.mem_filter.mpr ⟨hE f (Finset.mem_filter.mp hf).1 β hmem, hQ⟩
  · rintro ⟨f, β⟩ hin ⟨f', β'⟩ hin' heq
    obtain ⟨hf, hβ⟩ := Finset.mem_sigma.mp hin
    obtain ⟨hf', hβ'⟩ := Finset.mem_sigma.mp hin'
    obtain ⟨hmem, hpicked⟩ := Finset.mem_filter.mp hf
    have hsame : β = β' := (hP f hmem).eq hpicked (Finset.mem_filter.mp hf').2 (mem_images.mp hβ).1
      (mem_images.mp hβ').1 heq
    subst hsame
    have hmap : f = f' := by
      funext i
      have hi := congrFun heq (β⁻¹ i)
      simpa using hi
    rw [hmap]
  · intro h hin
    obtain ⟨hmem, hQ⟩ := Finset.mem_filter.mp hin
    obtain ⟨β, ⟨hβ, hpicked⟩, -⟩ := hP h hmem
    have hback : (h ∘ β) ∘ (β⁻¹ : Perm ι) = h := by
      funext i
      simp
    refine ⟨⟨h ∘ β, β⁻¹⟩, Finset.mem_sigma.mpr ⟨?_, ?_⟩, hback⟩
    · exact Finset.mem_filter.mpr ⟨hE h hmem β hβ, hpicked⟩
    · exact mem_images.mpr ⟨A.inv_mem hβ, by rwa [hback]⟩

/-- Where every orbit has as many maps with the property, so many times the picked ones. -/
theorem card_filter_eq_mul (hr : ∀ f ∈ E, P f → (images A Q f).card = r) :
    (E.filter Q).card = r * (E.filter P).card := by
  calc (E.filter Q).card = ∑ f ∈ E with P f, (images A Q f).card := card_filter_eq_sum hE hP
    _ = ∑ f ∈ E with P f, r := by
        apply Finset.sum_congr rfl
        intro f hf
        obtain ⟨hmem, hpicked⟩ := Finset.mem_filter.mp hf
        exact hr f hmem hpicked
    _ = r * (E.filter P).card := by rw [Finset.sum_const, smul_eq_mul, mul_comm]

end

section

variable {ι α : Type*} [Fintype ι] [DecidableEq ι] {A : Subgroup (Perm ι)} [DecidablePred (· ∈ A)]
  {P : (ι → α) → Prop} [DecidablePred P] {E : Finset (ι → α)}

/-- Over all maps the images with the property are counted as often as the group has members. -/
theorem sum_card_images (hE : ∀ f ∈ E, ∀ β ∈ A, f ∘ β ∈ E) :
    ∑ f ∈ E, (images A P f).card = Nat.card A * (E.filter P).card := by
  calc ∑ f ∈ E, (images A P f).card
      = ∑ f ∈ E, ∑ β : Perm ι with β ∈ A, if P (f ∘ β) then 1 else 0 := by
        apply Finset.sum_congr rfl
        intro f _
        rw [← Finset.card_filter, Finset.filter_filter]
        rfl
    _ = ∑ β : Perm ι with β ∈ A, (E.filter fun f => P (f ∘ β)).card := by
        rw [Finset.sum_comm]
        apply Finset.sum_congr rfl
        intro β _
        exact (Finset.card_filter _ _).symm
    _ = ∑ β : Perm ι with β ∈ A, (E.filter P).card := by
        apply Finset.sum_congr rfl
        intro β hβ
        have hmem : β ∈ A := (Finset.mem_filter.mp hβ).2
        -- renaming by a member of the group is a bijection of the maps
        apply Finset.card_bij' (fun f _ => f ∘ β) (fun f _ => f ∘ (β⁻¹ : Perm ι))
        · intro f hf
          obtain ⟨hf, hP⟩ := Finset.mem_filter.mp hf
          exact Finset.mem_filter.mpr ⟨hE f hf β hmem, hP⟩
        · intro f hf
          obtain ⟨hf, hP⟩ := Finset.mem_filter.mp hf
          refine Finset.mem_filter.mpr ⟨hE f hf β⁻¹ (A.inv_mem hmem), ?_⟩
          simpa [Function.comp_assoc] using hP
        · intro f _
          funext i
          simp
        · intro f _
          funext i
          simp
    _ = Nat.card A * (E.filter P).card := by
        rw [Finset.sum_const, smul_eq_mul, Nat.card_eq_fintype_card, Fintype.card_subtype]

variable (hE : ∀ f ∈ E, ∀ β ∈ A, f ∘ β ∈ E) (hone : ∀ f ∈ E, (images A P f).card ≤ 1)

include hE hone

/-- Where at most one map of each orbit has the property, the numbers tell whether it picks one of each. -/
theorem card_mul_filter_eq_iff : Nat.card A * (E.filter P).card = E.card ↔ ∀ f ∈ E, Picks A P f := by
  rw [← sum_card_images hE, Finset.card_eq_sum_ones]
  simp only [picks_iff_card]
  exact Finset.sum_eq_sum_iff_of_le hone

end

/-- The values of an injective map are ordered as by a permutation. -/
theorem exists_orderType {p : ℕ} {α : Type*} [LinearOrder α] {f : Fin p → α} (hf : Function.Injective f) :
    ∃ σ : Perm (Fin p), ∀ i j, σ i < σ j ↔ f i < f j := by
  refine ⟨(Tuple.sort f)⁻¹, fun i j => ?_⟩
  have hmono : StrictMono (f ∘ Tuple.sort f) :=
    (Tuple.monotone_sort f).strictMono_of_injective (hf.comp (Tuple.sort f).injective)
  calc (Tuple.sort f)⁻¹ i < (Tuple.sort f)⁻¹ j
      ↔ (f ∘ Tuple.sort f) ((Tuple.sort f)⁻¹ i) < (f ∘ Tuple.sort f) ((Tuple.sort f)⁻¹ j) :=
        hmono.lt_iff_lt.symm
    _ ↔ f i < f j := by simp

end SymmetryBreaking
