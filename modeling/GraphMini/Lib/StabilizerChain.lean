import Mathlib.GroupTheory.Perm.Basic
import Mathlib.Tactic

/-!
# Stabilizer chains

The members of a permutation group that fix the places before a place move it along its orbit. If each place
is to hold the largest value of its orbit, one arrangement out of each class of the group is left. A place
lies in the orbits of several places before it, and it is enough to compare it with the last of these.
-/

namespace StabilizerChain

open Equiv

section

variable {n : ℕ} {A : Subgroup (Perm (Fin n))}

/-- A member of the group that fixes the places before `a` takes it to another place `b`. -/
def Moves (A : Subgroup (Perm (Fin n))) (a b : Fin n) : Prop :=
  a ≠ b ∧ ∃ β ∈ A, (∀ i < a, β i = i) ∧ β a = b

/-- The last place that is moved to `b`. -/
def Nearest (A : Subgroup (Perm (Fin n))) (a b : Fin n) : Prop :=
  Moves A a b ∧ ∀ c, Moves A c b → c ≤ a

variable {a b c : Fin n} {β γ : Perm (Fin n)}

theorem Moves.lt (h : Moves A a b) : a < b := by
  obtain ⟨hne, β, -, hfix, hmove⟩ := h
  by_contra hle
  have hlt : b < a := lt_of_le_of_ne (not_lt.mp hle) hne.symm
  exact hne (β.injective (hmove.trans (hfix b hlt).symm))

/-- What fixes a place and those before it keeps the place's orbit. -/
theorem Moves.apply (h : Moves A a b) (hγ : γ ∈ A) (hfix : ∀ i ≤ a, γ i = i) : Moves A a (γ b) := by
  obtain ⟨hne, β, hβ, hbefore, hmove⟩ := h
  refine ⟨?_, γ * β, A.mul_mem hγ hβ, ?_, ?_⟩
  · intro heq
    apply hne
    exact γ.injective ((hfix a le_rfl).trans heq)
  · intro i hi
    rw [Perm.mul_apply, hbefore i hi, hfix i hi.le]
  · rw [Perm.mul_apply, hmove]

/-- Two places that are moved to the same place lie in one orbit. -/
theorem Moves.between (h : Moves A a b) (hc : Moves A c b) (hlt : a < c) : Moves A a c := by
  obtain ⟨-, γ, hγ, hfix, hmove⟩ := hc
  obtain ⟨-, β, hβ, hbefore, hmove'⟩ := h
  refine ⟨hlt.ne, γ⁻¹ * β, A.mul_mem (A.inv_mem hγ) hβ, ?_, ?_⟩
  · intro i hi
    rw [Perm.mul_apply, hbefore i hi, Perm.inv_eq_iff_eq, hfix i (hi.trans hlt)]
  · rw [Perm.mul_apply, hmove', Perm.inv_eq_iff_eq, hmove]

theorem exists_nearest (h : Moves A a b) : ∃ c, Nearest A c b ∧ a ≤ c := by
  classical
  obtain ⟨c, hc, hmax⟩ := Finset.exists_max_image (Finset.univ.filter fun c => Moves A c b) id
    ⟨a, Finset.mem_filter.mpr ⟨Finset.mem_univ a, h⟩⟩
  refine ⟨c, ⟨(Finset.mem_filter.mp hc).2, fun d hd => ?_⟩, ?_⟩
  · exact hmax d (Finset.mem_filter.mpr ⟨Finset.mem_univ d, hd⟩)
  · exact hmax a (Finset.mem_filter.mpr ⟨Finset.mem_univ a, h⟩)

end

section

variable {n : ℕ} {A : Subgroup (Perm (Fin n))} {α : Type*} [LinearOrder α] {f : Fin n → α}

/-- Comparing each place with the last one that is moved to it is enough. -/
theorem keeps_iff_nearest :
    (∀ a b, Moves A a b → f b < f a) ↔ ∀ a b, Nearest A a b → f b < f a := by
  constructor
  · exact fun h a b hab => h a b hab.1
  · intro h a b
    induction b using WellFoundedLT.induction with
    | ind b ih =>
        intro hab
        obtain ⟨c, hc, hle⟩ := exists_nearest hab
        rcases hle.eq_or_lt with rfl | hlt
        · exact h a b hc
        · exact (h c b hc).trans (ih c hc.1.lt (hab.between hc.1 hlt))

/-- Place by place the largest value of the orbit is moved to the front. -/
theorem exists_keeps (hf : Function.Injective f) (k : ℕ) :
    ∃ β ∈ A, ∀ a : Fin n, a < k → ∀ b, Moves A a b → f (β b) < f (β a) := by
  classical
  induction k with
  | zero => exact ⟨1, A.one_mem, fun a ha => absurd ha (Nat.not_lt_zero a)⟩
  | succ k ih =>
      obtain ⟨β, hβ, hbefore⟩ := ih
      by_cases hk : k < n
      · let stabilizer : Finset (Perm (Fin n)) :=
          Finset.univ.filter fun γ => γ ∈ A ∧ ∀ i : Fin n, i < k → γ i = i
        have hmem : ∀ {γ}, γ ∈ stabilizer ↔ γ ∈ A ∧ ∀ i : Fin n, i < k → γ i = i := by
          intro γ
          rw [Finset.mem_filter]
          exact and_iff_right (Finset.mem_univ γ)
        obtain ⟨γ, hγ, hmax⟩ := Finset.exists_max_image stabilizer (fun γ => f (β (γ ⟨k, hk⟩)))
          ⟨1, hmem.mpr ⟨A.one_mem, fun i _ => rfl⟩⟩
        obtain ⟨hγA, hfix⟩ := hmem.mp hγ
        refine ⟨β * γ, A.mul_mem hβ hγA, fun a ha b hab => ?_⟩
        rw [Perm.mul_apply, Perm.mul_apply]
        rcases Nat.lt_succ_iff_lt_or_eq.mp ha with hlt | heq
        · -- an earlier place is fixed, and its orbit is kept
          rw [hfix a hlt]
          exact hbefore a hlt _ (hab.apply hγA fun i hi => hfix i (lt_of_le_of_lt hi hlt))
        · obtain rfl : a = ⟨k, hk⟩ := Fin.ext heq
          obtain ⟨hne, δ, hδ, hstays, hmove⟩ := hab
          have hle := hmax (γ * δ) (hmem.mpr ⟨A.mul_mem hγA hδ, fun i hi => by
            rw [Perm.mul_apply, hstays i hi, hfix i hi]⟩)
          rw [Perm.mul_apply, hmove] at hle
          apply lt_of_le_of_ne hle
          exact fun h => hne (γ.injective (β.injective (hf h))).symm
      · refine ⟨β, hβ, fun a _ => hbefore a ?_⟩
        omega

theorem keeps_unique {β γ : Perm (Fin n)} (hβ : β ∈ A) (hγ : γ ∈ A)
    (hkeeps : ∀ a b, Moves A a b → f (β b) < f (β a)) (hkeeps' : ∀ a b, Moves A a b → f (γ b) < f (γ a)) :
    β = γ := by
  by_contra hne
  have hmoved : ∃ a, (β⁻¹ * γ) a ≠ a := by
    by_contra hall
    push Not at hall
    apply hne
    have hone : β⁻¹ * γ = 1 := Equiv.ext hall
    exact inv_mul_eq_one.mp hone
  -- the first place at which the two differ holds the larger value with each of them
  obtain ⟨a, ha, hfirst⟩ := WellFounded.has_min (wellFounded_lt (α := Fin n)) {a | (β⁻¹ * γ) a ≠ a} hmoved
  have hfix : ∀ i < a, (β⁻¹ * γ) i = i := fun i hi => by_contra fun h => hfirst i h hi
  have hfix' : ∀ i < a, (γ⁻¹ * β) i = i := by
    intro i hi
    have h := hfix i hi
    rw [Perm.mul_apply, Perm.inv_eq_iff_eq] at h
    rw [Perm.mul_apply, Perm.inv_eq_iff_eq, h]
  have ha' : (γ⁻¹ * β) a ≠ a := by
    intro h
    apply ha
    rw [Perm.mul_apply, Perm.inv_eq_iff_eq] at h
    rw [Perm.mul_apply, Perm.inv_eq_iff_eq, h]
  have hlt := hkeeps a _ ⟨Ne.symm ha, β⁻¹ * γ, A.mul_mem (A.inv_mem hβ) hγ, hfix, rfl⟩
  have hlt' := hkeeps' a _ ⟨ha'.symm, γ⁻¹ * β, A.mul_mem (A.inv_mem hγ) hβ, hfix', rfl⟩
  have hback : ∀ σ τ : Perm (Fin n), σ ((σ⁻¹ * τ) a) = τ a := fun σ τ => by simp
  rw [hback] at hlt hlt'
  exact lt_asymm hlt hlt'

/-- One member of the group makes each place hold the largest value of its orbit. -/
theorem existsUnique_keeps (hf : Function.Injective f) :
    ∃! β, β ∈ A ∧ ∀ a b, Nearest A a b → f (β b) < f (β a) := by
  obtain ⟨β, hβ, hkeeps⟩ := exists_keeps (A := A) hf n
  have hall : ∀ a b, Moves A a b → f (β b) < f (β a) := fun a => hkeeps a a.isLt
  refine ⟨β, ⟨hβ, keeps_iff_nearest (f := f ∘ β).mp hall⟩, fun γ ⟨hγ, hnearest⟩ => ?_⟩
  exact keeps_unique hγ hβ (keeps_iff_nearest (f := f ∘ γ).mpr hnearest) hall

end

/-! ### No comparison can be spared -/

section

variable {n : ℕ} {A : Subgroup (Perm (Fin n))} {a b c d : Fin n}

theorem Nearest.unique (h : Nearest A a c) (h' : Nearest A b c) : a = b :=
  le_antisymm (h'.2 a h.1) (h.2 b h'.1)

/-- The places that are compared with `b`, directly or through others. -/
def Under (A : Subgroup (Perm (Fin n))) (b : Fin n) : Fin n → Prop := Relation.ReflTransGen (Nearest A) b

theorem Under.le (h : Under A b c) : b ≤ c := by
  induction h with
  | refl => exact le_rfl
  | tail _ hstep ih => exact ih.trans hstep.1.lt.le

theorem under_iff (h : Nearest A c d) (hne : d ≠ b) : Under A b d ↔ Under A b c := by
  constructor
  · intro hd
    rcases Relation.ReflTransGen.cases_tail hd with heq | ⟨c', hc', hstep⟩
    · exact absurd heq hne
    · exact h.unique hstep ▸ hc'
  · exact fun hc => hc.tail h

/-- If one comparison is left out, some values have two arrangements that keep the others. -/
theorem exists_two_of_spared (hab : Nearest A a b) :
    ∃ f : Fin n → ℕ, Function.Injective f ∧ ∃ β ∈ A, β ≠ 1
      ∧ (∀ c d, Nearest A c d → (c, d) ≠ (a, b) → f d < f c)
      ∧ ∀ c d, Nearest A c d → (c, d) ≠ (a, b) → f (β d) < f (β c) := by
  classical
  -- the places descend, but those under `b` come above all others
  let f : Fin n → ℕ := fun i => (n - 1 - i) + if Under A b i then n else 0
  have hunder : ∀ {i}, Under A b i → f i = n - 1 - i + n := fun {i} hi => by simp only [f, if_pos hi]
  have hout : ∀ {i}, ¬ Under A b i → f i = n - 1 - i := fun {i} hi => by simp only [f, if_neg hi, add_zero]
  have hf : Function.Injective f := by
    intro i j heq
    have hi := i.isLt
    have hj := j.isLt
    apply Fin.ext
    by_cases h : Under A b i
    · by_cases h' : Under A b j
      · rw [hunder h, hunder h'] at heq
        omega
      · rw [hunder h, hout h'] at heq
        omega
    · by_cases h' : Under A b j
      · rw [hout h, hunder h'] at heq
        omega
      · rw [hout h, hout h'] at heq
        omega
  have hkeeps : ∀ c d, Nearest A c d → (c, d) ≠ (a, b) → f d < f c := by
    intro c d hcd hne
    have hlt : (c : ℕ) < d := hcd.1.lt
    have hd := d.isLt
    have hdb : d ≠ b := by
      rintro rfl
      exact hne (Prod.ext (hcd.unique hab) rfl)
    by_cases h : Under A b c
    · rw [hunder h, hunder ((under_iff hcd hdb).mpr h)]
      omega
    · rw [hout h, hout fun h' => h ((under_iff hcd hdb).mp h')]
      omega
  obtain ⟨β, ⟨hβ, hall⟩, -⟩ := existsUnique_keeps (A := A) hf
  refine ⟨f, hf, β, hβ, ?_, hkeeps, fun c d hcd _ => hall c d hcd⟩
  rintro rfl
  have hlt := hall a b hab
  rw [Perm.one_apply, Perm.one_apply, hunder Relation.ReflTransGen.refl, hout] at hlt
  · omega
  · exact fun h => absurd h.le (not_le.mpr hab.1.lt)

end

end StabilizerChain
