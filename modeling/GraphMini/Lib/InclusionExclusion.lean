import GraphMini.Lib.Completion
import Mathlib.Data.Fintype.BigOperators
import Mathlib.Data.List.GetD
import Mathlib.Tactic

/-!
# Counting tuples of distinct members by inclusion and exclusion

The tuples `x` with `x i ∈ C i` whose entries differ are counted by a sum over the partitions of the
indices: a block stands for indices whose entries are equal, so it contributes the size of the
intersection of its sets, with a sign and a factorial. The induction is on the number of indices. The
last index is a block of its own, or it joins a block of a partition of the others.
-/

namespace InclusionExclusion

/-! ### Partitions of `0, ..., k - 1` -/

/-- The blocks are disjoint and cover the numbers below `k`. -/
structure IsPartition (k : ℕ) (P : Finset (Finset ℕ)) : Prop where
  nonempty : ∅ ∉ P
  cover : ∀ i, (∃ B ∈ P, i ∈ B) ↔ i < k
  eq_of_mem : ∀ B ∈ P, ∀ B' ∈ P, ∀ i ∈ B, i ∈ B' → B = B'

/-- The last index as a block of its own. -/
def alone (k : ℕ) (P : Finset (Finset ℕ)) : Finset (Finset ℕ) := insert {k} P

/-- The last index in a block. -/
def join (k : ℕ) (P : Finset (Finset ℕ)) (B : Finset ℕ) : Finset (Finset ℕ) :=
  insert (insert k B) (P.erase B)

/-- The block of an index. -/
def home (k : ℕ) (P : Finset (Finset ℕ)) : Finset ℕ := {B ∈ P | k ∈ B}.sup id

/-- A partition without its last index, which is not alone. -/
def unjoin (k : ℕ) (P : Finset (Finset ℕ)) : Finset (Finset ℕ) :=
  insert ((home k P).erase k) (P.erase (home k P))

section

variable {k i : ℕ} {P : Finset (Finset ℕ)} {B : Finset ℕ}

namespace IsPartition

variable (h : IsPartition k P)

include h

theorem lt_of_mem (hB : B ∈ P) (hi : i ∈ B) : i < k := (h.cover i).mp ⟨B, hB, hi⟩

theorem notMem_last (hB : B ∈ P) : k ∉ B := fun hk => lt_irrefl k (h.lt_of_mem hB hk)

theorem nonempty_of_mem (hB : B ∈ P) : B.Nonempty :=
  Finset.nonempty_iff_ne_empty.mpr fun hempty => h.nonempty (hempty ▸ hB)

theorem home_eq (hB : B ∈ P) (hi : i ∈ B) : home i P = B := by
  have hblocks : {B' ∈ P | i ∈ B'} = {B} := by
    ext B'
    rw [Finset.mem_filter, Finset.mem_singleton]
    constructor
    · rintro ⟨hB', hi'⟩
      exact h.eq_of_mem B' hB' B hB i hi' hi
    · rintro rfl
      exact ⟨hB, hi⟩
  rw [home, hblocks, Finset.sup_singleton, id]

theorem home_mem (hi : i < k) : home i P ∈ P ∧ i ∈ home i P := by
  obtain ⟨B, hB, hmem⟩ := (h.cover i).mpr hi
  rw [h.home_eq hB hmem]
  exact ⟨hB, hmem⟩

theorem insert_notMem (B : Finset ℕ) : insert k B ∉ P.erase B := by
  intro hin
  exact h.notMem_last (Finset.mem_of_mem_erase hin) (Finset.mem_insert_self k B)

theorem singleton_notMem : {k} ∉ P := fun hin => h.notMem_last hin (Finset.mem_singleton_self k)

theorem alone : IsPartition (k + 1) (alone k P) := by
  constructor
  · intro hempty
    rcases Finset.mem_insert.mp hempty with heq | hin
    · simp at heq
    · exact h.nonempty hin
  · intro i
    simp only [InclusionExclusion.alone, Finset.mem_insert, or_and_right, exists_or, exists_eq_left,
      Finset.mem_singleton, h.cover]
    omega
  · intro B hB B' hB' i hi hi'
    rcases Finset.mem_insert.mp hB with rfl | hB <;> rcases Finset.mem_insert.mp hB' with rfl | hB'
    · rfl
    · rw [Finset.mem_singleton.mp hi] at hi'
      exact absurd hi' (h.notMem_last hB')
    · rw [Finset.mem_singleton.mp hi'] at hi
      exact absurd hi (h.notMem_last hB)
    · exact h.eq_of_mem B hB B' hB' i hi hi'

theorem join (hB : B ∈ P) : IsPartition (k + 1) (join k P B) := by
  constructor
  · intro hempty
    rcases Finset.mem_insert.mp hempty with heq | hin
    · exact absurd heq.symm (Finset.insert_ne_empty k B)
    · exact h.nonempty (Finset.mem_of_mem_erase hin)
  · intro i
    rw [Nat.lt_succ_iff_lt_or_eq, ← h.cover]
    constructor
    · rintro ⟨B', hB', hi⟩
      rcases Finset.mem_insert.mp hB' with rfl | hB'
      · rcases Finset.mem_insert.mp hi with rfl | hi
        · exact Or.inr rfl
        · exact Or.inl ⟨B, hB, hi⟩
      · exact Or.inl ⟨B', Finset.mem_of_mem_erase hB', hi⟩
    · rintro (⟨B', hB', hi⟩ | rfl)
      · by_cases hsame : B' = B
        · exact ⟨_, Finset.mem_insert_self _ _, Finset.mem_insert_of_mem (hsame ▸ hi)⟩
        · exact ⟨B', Finset.mem_insert_of_mem (Finset.mem_erase.mpr ⟨hsame, hB'⟩), hi⟩
      · exact ⟨_, Finset.mem_insert_self _ _, Finset.mem_insert_self _ _⟩
  · have hother : ∀ B' ∈ P.erase B, ∀ i ∈ B', i ∉ insert k B := by
      intro B' hB' i hi hin
      obtain ⟨hne, hB'⟩ := Finset.mem_erase.mp hB'
      rcases Finset.mem_insert.mp hin with rfl | hin
      · exact h.notMem_last hB' hi
      · exact hne (h.eq_of_mem B' hB' B hB i hi hin)
    intro B₁ hB₁ B₂ hB₂ i hi hi'
    rcases Finset.mem_insert.mp hB₁ with rfl | hB₁ <;> rcases Finset.mem_insert.mp hB₂ with rfl | hB₂
    · rfl
    · exact absurd hi (hother B₂ hB₂ i hi')
    · exact absurd hi' (hother B₁ hB₁ i hi)
    · exact h.eq_of_mem B₁ (Finset.mem_of_mem_erase hB₁) B₂ (Finset.mem_of_mem_erase hB₂) i hi hi'

end IsPartition

/-- Taking out the last index, which is a block of its own. -/
theorem IsPartition.erase_last (h : IsPartition (k + 1) P) (hk : {k} ∈ P) : IsPartition k (P.erase {k}) := by
  constructor
  · exact fun hempty => h.nonempty (Finset.mem_of_mem_erase hempty)
  · intro i
    constructor
    · rintro ⟨B, hB, hi⟩
      obtain ⟨hne, hin⟩ := Finset.mem_erase.mp hB
      have hlt := h.lt_of_mem hin hi
      have hik : i ≠ k := by
        rintro rfl
        exact hne (h.eq_of_mem B hin {i} hk i hi (Finset.mem_singleton_self i))
      omega
    · intro hi
      obtain ⟨B, hB, hmem⟩ := (h.cover i).mpr (by omega)
      refine ⟨B, Finset.mem_erase.mpr ⟨?_, hB⟩, hmem⟩
      rintro rfl
      rw [Finset.mem_singleton.mp hmem] at hi
      exact lt_irrefl k hi
  · intro B hB B' hB' i hi hi'
    exact h.eq_of_mem B (Finset.mem_of_mem_erase hB) B' (Finset.mem_of_mem_erase hB') i hi hi'

/-- Taking the last index out of its block. -/
theorem IsPartition.unjoin (h : IsPartition (k + 1) P) (hk : {k} ∉ P) : IsPartition k (unjoin k P) := by
  obtain ⟨hhome, hmem⟩ := h.home_mem (Nat.lt_succ_self k)
  have hother : ∀ B ∈ P.erase (home k P), k ∉ B := by
    intro B hB hin
    obtain ⟨hne, hB⟩ := Finset.mem_erase.mp hB
    exact hne (h.eq_of_mem B hB _ hhome k hin hmem)
  have hdisjoint : ∀ B ∈ P.erase (home k P), ∀ i ∈ B, i ∉ (home k P).erase k := by
    intro B hB i hi hin
    obtain ⟨hne, hB⟩ := Finset.mem_erase.mp hB
    exact hne (h.eq_of_mem B hB _ hhome i hi (Finset.mem_of_mem_erase hin))
  constructor
  · intro hempty
    rcases Finset.mem_insert.mp hempty with heq | hin
    · have hsub : home k P ⊆ {k} := by
        intro i hi
        by_contra hne
        have hin : i ∈ (home k P).erase k := Finset.mem_erase.mpr ⟨by simpa using hne, hi⟩
        simp [← heq] at hin
      rw [(Finset.Nonempty.subset_singleton_iff ⟨k, hmem⟩).mp hsub] at hhome
      exact hk hhome
    · exact h.nonempty (Finset.mem_of_mem_erase hin)
  · intro i
    constructor
    · rintro ⟨B, hB, hi⟩
      rcases Finset.mem_insert.mp hB with rfl | hB
      · obtain ⟨hne, hi⟩ := Finset.mem_erase.mp hi
        have hlt := h.lt_of_mem hhome hi
        omega
      · have hlt := h.lt_of_mem (Finset.mem_of_mem_erase hB) hi
        have hne : i ≠ k := by
          rintro rfl
          exact hother B hB hi
        omega
    · intro hi
      obtain ⟨B, hB, hin⟩ := (h.cover i).mpr (by omega)
      by_cases hsame : B = home k P
      · exact ⟨_, Finset.mem_insert_self _ _, Finset.mem_erase.mpr ⟨hi.ne, hsame ▸ hin⟩⟩
      · exact ⟨B, Finset.mem_insert_of_mem (Finset.mem_erase.mpr ⟨hsame, hB⟩), hin⟩
  · intro B₁ hB₁ B₂ hB₂ i hi hi'
    rcases Finset.mem_insert.mp hB₁ with rfl | hB₁ <;> rcases Finset.mem_insert.mp hB₂ with rfl | hB₂
    · rfl
    · exact absurd hi (hdisjoint B₂ hB₂ i hi')
    · exact absurd hi' (hdisjoint B₁ hB₁ i hi)
    · exact h.eq_of_mem B₁ (Finset.mem_of_mem_erase hB₁) B₂ (Finset.mem_of_mem_erase hB₂) i hi hi'

/-- The last index can join its block again. -/
theorem IsPartition.join_unjoin (h : IsPartition (k + 1) P) :
    InclusionExclusion.join k (InclusionExclusion.unjoin k P) ((home k P).erase k) = P := by
  obtain ⟨hhome, hmem⟩ := h.home_mem (Nat.lt_succ_self k)
  have hnot : (home k P).erase k ∉ P.erase (home k P) := by
    intro hin
    obtain ⟨hne, hin⟩ := Finset.mem_erase.mp hin
    obtain ⟨i, hi⟩ := h.nonempty_of_mem hin
    exact hne (h.eq_of_mem _ hin _ hhome i hi (Finset.mem_of_mem_erase hi))
  rw [InclusionExclusion.join, InclusionExclusion.unjoin, Finset.erase_insert hnot, Finset.insert_erase hmem,
    Finset.insert_erase hhome]

namespace IsPartition

variable (h : IsPartition k P) (hB : B ∈ P)

include h hB

theorem home_join : home k (InclusionExclusion.join k P B) = insert k B :=
  (h.join hB).home_eq (Finset.mem_insert_self _ _) (Finset.mem_insert_self k B)

theorem unjoin_join : InclusionExclusion.unjoin k (InclusionExclusion.join k P B) = P := by
  rw [InclusionExclusion.unjoin, h.home_join hB, Finset.erase_insert (h.notMem_last hB),
    InclusionExclusion.join, Finset.erase_insert (h.insert_notMem B), Finset.insert_erase hB]

theorem last_notMem_join : {k} ∉ InclusionExclusion.join k P B := by
  intro hin
  have hsame : home k (InclusionExclusion.join k P B) = {k} :=
    (h.join hB).home_eq hin (Finset.mem_singleton_self k)
  rw [h.home_join hB] at hsame
  obtain ⟨i, hi⟩ := h.nonempty_of_mem hB
  have hik : i ∈ ({k} : Finset ℕ) := hsame ▸ Finset.mem_insert_of_mem hi
  rw [Finset.mem_singleton.mp hik] at hi
  exact h.notMem_last hB hi

end IsPartition

end

/-! ### Sums over the partitions -/

/-- The partitions of the numbers below `k`. -/
noncomputable def partitions (k : ℕ) : Finset (Finset (Finset ℕ)) :=
  open Classical in
  (Finset.range k).powerset.powerset.filter fun P => IsPartition k P

section

variable {k : ℕ} {P : Finset (Finset ℕ)} {B : Finset ℕ}

theorem mem_partitions : P ∈ partitions k ↔ IsPartition k P := by
  classical
  rw [partitions, Finset.mem_filter, Finset.mem_powerset]
  refine and_iff_right_of_imp fun h B hB => ?_
  rw [Finset.mem_powerset]
  exact fun i hi => Finset.mem_range.mpr (h.lt_of_mem hB hi)

theorem partitions_zero : partitions 0 = {∅} := by
  ext P
  rw [mem_partitions, Finset.mem_singleton]
  constructor
  · intro h
    refine Finset.eq_empty_of_forall_notMem fun B hB => ?_
    obtain ⟨i, hi⟩ := h.nonempty_of_mem hB
    exact absurd (h.lt_of_mem hB hi) (Nat.not_lt_zero i)
  · rintro rfl
    constructor <;> simp

/-- The last index is alone or joins a block. -/
theorem sum_partitions_succ {M : Type*} [AddCommMonoid M] (t : Finset (Finset ℕ) → M) :
    ∑ P ∈ partitions (k + 1), t P
      = ∑ P ∈ partitions k, (t (alone k P) + ∑ B ∈ P, t (join k P B)) := by
  have halone : ∑ P ∈ partitions (k + 1) with {k} ∈ P, t P = ∑ P ∈ partitions k, t (alone k P) := by
    refine Finset.sum_nbij' (fun P => P.erase {k}) (alone k) ?_ ?_ ?_ ?_ ?_
    · intro P hP
      obtain ⟨hP, hk⟩ := Finset.mem_filter.mp hP
      exact mem_partitions.mpr ((mem_partitions.mp hP).erase_last hk)
    · intro P hP
      exact Finset.mem_filter.mpr
        ⟨mem_partitions.mpr (mem_partitions.mp hP).alone, Finset.mem_insert_self _ _⟩
    · intro P hP
      exact Finset.insert_erase (Finset.mem_filter.mp hP).2
    · intro P hP
      exact Finset.erase_insert (mem_partitions.mp hP).singleton_notMem
    · intro P hP
      rw [alone, Finset.insert_erase (Finset.mem_filter.mp hP).2]
  have hjoin : ∑ P ∈ partitions (k + 1) with {k} ∉ P, t P
      = ∑ P ∈ partitions k, ∑ B ∈ P, t (join k P B) := by
    rw [Finset.sum_sigma']
    refine Finset.sum_bij' (fun P _ => (⟨unjoin k P, (home k P).erase k⟩ : Σ _, Finset ℕ))
      (fun x _ => join k x.1 x.2) ?_ ?_ ?_ ?_ ?_
    · intro P hP
      obtain ⟨hP, hk⟩ := Finset.mem_filter.mp hP
      exact Finset.mem_sigma.mpr
        ⟨mem_partitions.mpr ((mem_partitions.mp hP).unjoin hk), Finset.mem_insert_self _ _⟩
    · rintro ⟨P, B⟩ hx
      obtain ⟨hP, hB⟩ := Finset.mem_sigma.mp hx
      have h := mem_partitions.mp hP
      exact Finset.mem_filter.mpr ⟨mem_partitions.mpr (h.join hB), h.last_notMem_join hB⟩
    · intro P hP
      obtain ⟨hP, hk⟩ := Finset.mem_filter.mp hP
      exact (mem_partitions.mp hP).join_unjoin
    · rintro ⟨P, B⟩ hx
      obtain ⟨hP, hB⟩ := Finset.mem_sigma.mp hx
      have h := mem_partitions.mp hP
      rw [h.unjoin_join hB, h.home_join hB, Finset.erase_insert (h.notMem_last hB)]
    · intro P hP
      obtain ⟨hP, hk⟩ := Finset.mem_filter.mp hP
      rw [(mem_partitions.mp hP).join_unjoin]
  rw [Finset.sum_add_distrib, ← halone, ← hjoin, Finset.sum_filter_add_sum_filter_not]

end

/-! ### Tuples of distinct members -/

section

variable {α : Type*} [DecidableEq α] (C : ℕ → Finset α)

/-- What the sets of a block have in common. -/
def common (B : Finset ℕ) : Finset α := {x ∈ B.biUnion C | ∀ i ∈ B, x ∈ C i}

/-- The coefficient of a block. -/
def coefficient (n : ℕ) : ℤ := (-1) ^ (n - 1) * (n - 1).factorial

/-- What a partition contributes. -/
def term (P : Finset (Finset ℕ)) : ℤ := ∏ B ∈ P, coefficient B.card * (common C B).card

/-- The tuples of distinct members of the first `k` sets. -/
def tuples (k : ℕ) : Finset (Fin k → α) :=
  {x ∈ Fintype.piFinset fun i : Fin k => C i | Function.Injective x}

/-- One of the sets cut to its common part with another one. -/
def cutSet (k i : ℕ) : ℕ → Finset α := Function.update C i (C i ∩ C k)

variable {C} {k i : ℕ} {P : Finset (Finset ℕ)} {B : Finset ℕ}

theorem mem_common (hB : B.Nonempty) {x : α} : x ∈ common C B ↔ ∀ i ∈ B, x ∈ C i := by
  rw [common, Finset.mem_filter, Finset.mem_biUnion]
  refine and_iff_right_of_imp fun h => ?_
  obtain ⟨i, hi⟩ := hB
  exact ⟨i, hi, h i hi⟩

theorem common_singleton : common C {k} = C k := by
  ext x
  simp [mem_common]

theorem common_insert (hB : B.Nonempty) : common C (insert k B) = common C B ∩ C k := by
  ext x
  rw [mem_common (Finset.insert_nonempty k B), Finset.mem_inter, mem_common hB]
  simp only [Finset.forall_mem_insert]
  tauto

theorem common_cutSet (hi : i ∈ B) : common (cutSet C k i) B = common C B ∩ C k := by
  ext x
  rw [mem_common ⟨i, hi⟩, Finset.mem_inter, mem_common ⟨i, hi⟩, cutSet]
  constructor
  · intro h
    refine ⟨fun j hj => ?_, ?_⟩
    · have hx := h j hj
      by_cases hji : j = i
      · rw [hji, Function.update_self] at hx
        rw [hji]
        exact (Finset.mem_inter.mp hx).1
      · rwa [Function.update_of_ne hji] at hx
    · have hx := h i hi
      rw [Function.update_self] at hx
      exact (Finset.mem_inter.mp hx).2
  · rintro ⟨hall, hk⟩ j hj
    by_cases hji : j = i
    · rw [hji, Function.update_self]
      exact Finset.mem_inter.mpr ⟨hall i hi, hk⟩
    · rw [Function.update_of_ne hji]
      exact hall j hj

theorem common_cutSet_of_notMem (hi : i ∉ B) : common (cutSet C k i) B = common C B := by
  have hsame : ∀ j ∈ B, cutSet C k i j = C j := by
    rintro j hj
    rw [cutSet, Function.update_of_ne]
    rintro rfl
    exact hi hj
  rcases B.eq_empty_or_nonempty with rfl | hB
  · rfl
  · ext x
    rw [mem_common hB, mem_common hB]
    exact forall₂_congr fun j hj => by rw [hsame j hj]

theorem coefficient_succ {n : ℕ} (hn : 0 < n) : coefficient (n + 1) = -(n * coefficient n) := by
  obtain ⟨m, rfl⟩ : ∃ m, n = m + 1 := ⟨n - 1, by omega⟩
  simp only [coefficient, Nat.add_sub_cancel, Nat.factorial_succ, pow_succ]
  push_cast
  ring

/-! ### One more index -/

theorem term_alone (h : IsPartition k P) : term C (alone k P) = (C k).card * term C P := by
  rw [term, alone, Finset.prod_insert h.singleton_notMem, common_singleton, Finset.card_singleton, term]
  simp [coefficient]

/-- An index that joins a block takes the place of each of its members. -/
theorem term_join (h : IsPartition k P) (hB : B ∈ P) :
    term C (join k P B) = -∑ i ∈ B, term (cutSet C k i) P := by
  have hcut : ∀ i ∈ B, term (cutSet C k i) P
      = coefficient B.card * (common C B ∩ C k).card
        * ∏ B' ∈ P.erase B, coefficient B'.card * (common C B').card := by
    intro i hi
    rw [term, ← Finset.mul_prod_erase P _ hB, common_cutSet hi]
    congr 1
    refine Finset.prod_congr rfl fun B' hB' => ?_
    obtain ⟨hne, hB'⟩ := Finset.mem_erase.mp hB'
    rw [common_cutSet_of_notMem fun hi' => hne (h.eq_of_mem B' hB' B hB i hi' hi)]
  rw [Finset.sum_congr rfl hcut, Finset.sum_const, term, join, Finset.prod_insert (h.insert_notMem B),
    Finset.card_insert_of_notMem (h.notMem_last hB), common_insert (h.nonempty_of_mem hB),
    coefficient_succ (Finset.card_pos.mpr (h.nonempty_of_mem hB)), nsmul_eq_mul]
  ring

/-- Every index lies in one block. -/
theorem IsPartition.sum_range (h : IsPartition k P) (amount : ℕ → ℤ) :
    ∑ B ∈ P, ∑ i ∈ B, amount i = ∑ i ∈ Finset.range k, amount i := by
  have hcover : Finset.range k = P.biUnion id := by
    ext i
    rw [Finset.mem_range, Finset.mem_biUnion, ← h.cover]
    rfl
  rw [hcover, Finset.sum_biUnion]
  · rfl
  · intro B hB B' hB' hne
    refine Finset.disjoint_left.mpr fun i hi hi' => hne ?_
    exact h.eq_of_mem B hB B' hB' i hi hi'

theorem sum_term_succ : ∑ P ∈ partitions (k + 1), term C P
    = (C k).card * ∑ P ∈ partitions k, term C P
      - ∑ i ∈ Finset.range k, ∑ P ∈ partitions k, term (cutSet C k i) P := by
  rw [sum_partitions_succ, Finset.mul_sum, Finset.sum_comm, ← Finset.sum_sub_distrib]
  refine Finset.sum_congr rfl fun P hP => ?_
  have h := mem_partitions.mp hP
  rw [term_alone h, ← h.sum_range, sub_eq_add_neg, ← Finset.sum_neg_distrib]
  exact congrArg _ (Finset.sum_congr rfl fun B hB => term_join h hB)

theorem mem_tuples {x : Fin k → α} : x ∈ tuples C k ↔ (∀ i : Fin k, x i ∈ C i) ∧ Function.Injective x := by
  simp [tuples]

/-- A tuple is its first entries and a last entry that avoids them. -/
theorem card_tuples_snoc :
    (tuples C (k + 1)).card = ∑ x ∈ tuples C k, (C k \ Finset.univ.image x).card := by
  rw [← Finset.card_sigma]
  refine Finset.card_bij' (fun x _ => (⟨Fin.init x, x (Fin.last k)⟩ : Σ _, α))
    (fun p _ => Fin.snoc p.1 p.2) ?_ ?_ ?_ ?_
  · intro x hx
    obtain ⟨hmem, hinj⟩ := mem_tuples.mp hx
    rw [← Fin.snoc_init_self x, Fin.snoc_injective_iff] at hinj
    refine Finset.mem_sigma.mpr ⟨mem_tuples.mpr ⟨fun i => ?_, hinj.1⟩, ?_⟩
    · exact hmem i.castSucc
    · refine Finset.mem_sdiff.mpr ⟨hmem (Fin.last k), ?_⟩
      simpa using hinj.2
  · rintro ⟨x, y⟩ hp
    obtain ⟨hx, hy⟩ := Finset.mem_sigma.mp hp
    obtain ⟨hmem, hinj⟩ := mem_tuples.mp hx
    obtain ⟨hy, hnot⟩ := Finset.mem_sdiff.mp hy
    refine mem_tuples.mpr ⟨fun i => ?_, Fin.snoc_injective_iff.mpr ⟨hinj, by simpa using hnot⟩⟩
    refine Fin.lastCases ?_ (fun i => ?_) i
    · simpa using hy
    · simpa using hmem i
  · exact fun x _ => Fin.snoc_init_self x
  · rintro ⟨x, y⟩ _
    simp

/-- The entries of a tuple that lie in one more set. -/
theorem card_filter_tuples (i : Fin k) :
    {x ∈ tuples C k | x i ∈ C k} = tuples (cutSet C k i) k := by
  ext x
  rw [Finset.mem_filter, mem_tuples, mem_tuples, and_right_comm]
  refine and_congr_left fun _ => ?_
  constructor
  · rintro ⟨hall, hk⟩ j
    by_cases hji : j = i
    · rw [hji, cutSet, Function.update_self]
      exact Finset.mem_inter.mpr ⟨hall i, hk⟩
    · rw [cutSet, Function.update_of_ne (by simpa [Fin.ext_iff] using hji)]
      exact hall j
  · intro hall
    have hi := hall i
    rw [cutSet, Function.update_self] at hi
    refine ⟨fun j => ?_, (Finset.mem_inter.mp hi).2⟩
    by_cases hji : j = i
    · rw [hji]
      exact (Finset.mem_inter.mp hi).1
    · have hj := hall j
      rwa [cutSet, Function.update_of_ne (by simpa [Fin.ext_iff] using hji)] at hj

/-- The last entry avoids the others. -/
theorem card_tuples_succ : ((tuples C (k + 1)).card : ℤ)
    = (C k).card * (tuples C k).card - ∑ i ∈ Finset.range k, ((tuples (cutSet C k i) k).card : ℤ) := by
  have havoid : ∀ x ∈ tuples C k, ((C k \ Finset.univ.image x).card : ℤ)
      = (C k).card - ∑ i : Fin k, if x i ∈ C k then 1 else 0 := by
    intro x hx
    have himage : C k ∩ Finset.univ.image x = Finset.image x {i | x i ∈ C k} := by
      ext y
      simp only [Finset.mem_inter, Finset.mem_image, Finset.mem_filter, Finset.mem_univ, true_and]
      constructor
      · rintro ⟨hy, i, rfl⟩
        exact ⟨i, hy, rfl⟩
      · rintro ⟨i, hi, rfl⟩
        exact ⟨hi, i, rfl⟩
    have hcard := Finset.card_sdiff_add_card_inter (C k) (Finset.univ.image x)
    rw [himage, Finset.card_image_of_injective _ (mem_tuples.mp hx).2, Finset.card_filter] at hcard
    rw [← hcard]
    push_cast
    ring
  have hcount : ∀ i : Fin k, ∑ x ∈ tuples C k, (if x i ∈ C k then 1 else 0 : ℤ)
      = ((tuples (cutSet C k i) k).card : ℤ) := by
    intro i
    rw [← card_filter_tuples, Finset.card_filter]
    push_cast
    rfl
  rw [card_tuples_snoc, Nat.cast_sum, Finset.sum_congr rfl havoid, Finset.sum_sub_distrib, Finset.sum_const,
    Finset.sum_comm, Finset.sum_congr rfl fun i _ => hcount i,
    Finset.sum_range fun i => ((tuples (cutSet C k i) k).card : ℤ), nsmul_eq_mul, mul_comm]

/-- The contributions of all partitions add up to the number of tuples of distinct members. -/
theorem sum_term_eq : ∑ P ∈ partitions k, term C P = (tuples C k).card := by
  induction k generalizing C with
  | zero =>
      have hone : (tuples C 0).card = 1 := by
        rw [Finset.card_eq_one]
        exact ⟨Fin.elim0, Finset.eq_singleton_iff_unique_mem.mpr
          ⟨mem_tuples.mpr ⟨nofun, nofun⟩, fun x _ => Subsingleton.elim _ _⟩⟩
      rw [partitions_zero, Finset.sum_singleton, term, Finset.prod_empty, hone, Nat.cast_one]
  | succ k ih =>
      rw [sum_term_succ, card_tuples_succ, ih]
      simp only [ih]

end

/-! ### Partitions as lists of lists -/

/-- The blocks of a list of lists. -/
def blocks (group : List (List ℕ)) : Finset (Finset ℕ) := (group.map List.toFinset).toFinset

/-- A partition that is written down as a list of lists. -/
structure Lists (k : ℕ) (group : List (List ℕ)) : Prop where
  nodup : (group.map List.toFinset).Nodup
  blocks_nodup : ∀ block ∈ group, block.Nodup
  partition : IsPartition k (blocks group)

/-- Every partition is written down once, with the product of the coefficients of its blocks. -/
structure Coefficients (k : ℕ) (vals : List ℤ) (groups : List (List (List ℕ))) : Prop where
  lists : ∀ group ∈ groups, Lists k group
  nodup : (groups.map blocks).Nodup
  complete : ∀ P, IsPartition k P → P ∈ groups.map blocks
  value : ∀ i < groups.length,
    vals.getD i 0 = ((groups.getD i []).map fun block => coefficient block.length).prod

section

variable {α : Type*} [DecidableEq α] (C : ℕ → Finset α)

/-- The number of common members of the sets of a block. -/
def blockSize (block : List ℕ) : ℕ := {x ∈ C (block.headD 0) | ∀ i ∈ block, x ∈ C i}.card

/-- The values of the groups times the sizes of their blocks, added up. -/
def amount (vals : List ℤ) (groups : List (List (List ℕ))) : ℤ :=
  ((List.range groups.length).map fun i =>
    vals.getD i 0 * ((groups.getD i []).map fun block => (blockSize C block : ℤ)).prod).sum

variable {C} {k : ℕ} {vals : List ℤ} {groups : List (List (List ℕ))} {group : List (List ℕ)}
  {block : List ℕ}

theorem blockSize_eq (hblock : block ≠ []) : blockSize C block = (common C block.toFinset).card := by
  have hhead : block.headD 0 ∈ block := by
    cases block with
    | nil => exact absurd rfl hblock
    | cons i rest => exact List.mem_cons_self
  rw [blockSize]
  congr 1
  ext x
  rw [Finset.mem_filter, mem_common ⟨_, List.mem_toFinset.mpr hhead⟩]
  simp only [List.mem_toFinset]
  exact and_iff_right_of_imp fun h => h _ hhead

theorem blockSize_congr {C' : ℕ → Finset α} (hblock : block ≠ []) (h : ∀ i ∈ block, C i = C' i) :
    blockSize C block = blockSize C' block := by
  have hcommon : common C block.toFinset = common C' block.toFinset := by
    ext x
    obtain ⟨j, hj⟩ := List.exists_mem_of_ne_nil block hblock
    have hne : block.toFinset.Nonempty := ⟨j, List.mem_toFinset.mpr hj⟩
    rw [mem_common hne, mem_common hne]
    refine forall₂_congr fun i hi => ?_
    rw [h i (List.mem_toFinset.mp hi)]
  rw [blockSize_eq hblock, blockSize_eq hblock, hcommon]

/-- Only the sets that the blocks name matter. -/
theorem amount_congr {C' : ℕ → Finset α}
    (h : ∀ group ∈ groups, ∀ block ∈ group, block ≠ [] ∧ ∀ i ∈ block, C i = C' i) :
    amount C vals groups = amount C' vals groups := by
  rw [amount, amount]
  congr 1
  apply List.map_congr_left
  intro i hi
  have hmem : groups.getD i [] ∈ groups := by
    rw [List.getD_eq_getElem _ _ (List.mem_range.mp hi)]
    exact List.getElem_mem _
  congr 2
  apply List.map_congr_left
  intro block hblock
  obtain ⟨hne, heq⟩ := h _ hmem block hblock
  rw [blockSize_congr hne heq]

theorem Lists.ne_nil (h : Lists k group) (hblock : block ∈ group) : block ≠ [] := by
  rintro rfl
  apply h.partition.nonempty
  rw [blocks, List.mem_toFinset]
  exact List.mem_map.mpr ⟨[], hblock, rfl⟩

/-- A group contributes what its partition does. -/
theorem Lists.prod_eq (h : Lists k group) :
    (group.map fun block => coefficient block.length).prod * (group.map fun block => (blockSize C block : ℤ)).prod
      = term C (blocks group) := by
  rw [term, blocks, List.prod_toFinset _ h.nodup, List.map_map, ← List.prod_map_mul]
  congr 1
  refine List.map_congr_left fun block hblock => ?_
  rw [Function.comp_apply, List.toFinset_card_of_nodup (h.blocks_nodup block hblock),
    blockSize_eq (h.ne_nil hblock)]

/-- With the coefficients of all partitions the amount is the number of tuples of distinct members. -/
theorem amount_eq (h : Coefficients k vals groups) : amount C vals groups = (tuples C k).card := by
  have hgroup : ∀ i ∈ List.range groups.length,
      vals.getD i 0 * ((groups.getD i []).map fun block => (blockSize C block : ℤ)).prod
        = term C (blocks (groups.getD i [])) := by
    intro i hi
    have hlt := List.mem_range.mp hi
    have hmem : groups.getD i [] ∈ groups := by
      rw [List.getD_eq_getElem _ _ hlt]
      exact List.getElem_mem hlt
    rw [h.value i hlt, (h.lists _ hmem).prod_eq]
  have hrange : (List.range groups.length).map (fun i => term C (blocks (groups.getD i [])))
      = (groups.map blocks).map (term C) := by
    refine List.ext_getElem (by simp) fun i hi _ => ?_
    simp only [List.length_map, List.length_range] at hi
    simp [hi]
  have hall : (groups.map blocks).toFinset = partitions k := by
    ext P
    rw [List.mem_toFinset, mem_partitions]
    refine ⟨fun hP => ?_, h.complete P⟩
    obtain ⟨group, hgroup, rfl⟩ := List.mem_map.mp hP
    exact (h.lists group hgroup).partition
  calc amount C vals groups
      = ((List.range groups.length).map fun i => term C (blocks (groups.getD i []))).sum := by
        rw [amount, List.map_congr_left hgroup]
    _ = ((groups.map blocks).map (term C)).sum := by rw [hrange]
    _ = ∑ P ∈ partitions k, term C P := by rw [← List.sum_toFinset _ h.nodup, hall]
    _ = (tuples C k).card := sum_term_eq

end

section

variable {α : Type*} [DecidableEq α] {C : ℕ → Finset α} {dom : Finset α} {admissible : List α → α → Prop}
  [∀ pre, DecidablePred (admissible pre)] {pre : List α} {k : ℕ}

/-- Where a place may take what is in its set and has not been taken, the ways to fill all places are the
tuples of distinct members. -/
theorem completions_eq_tuples (hdom : ∀ j < k, C j ⊆ dom)
    (hstep : ∀ later : List α, later.length < k → ∀ x,
      admissible (pre ++ later) x ↔ x ∈ C later.length ∧ x ∉ later) :
    Completion.completions dom admissible pre k = tuples C k := by
  ext f
  have hplace : ∀ i : Fin k, admissible (pre ++ (List.ofFn f).take i.val) (f i) ↔
      f i ∈ C i ∧ ∀ j < i, f j ≠ f i := by
    intro i
    have hlength : ((List.ofFn f).take i.val).length = i := by simp
    rw [hstep _ (by rw [hlength]; exact i.isLt), hlength]
    apply and_congr_right
    intro _
    constructor
    · intro hnot j hj heq
      apply hnot
      rw [List.mem_take_iff_getElem]
      exact ⟨j, by simpa using hj, by simpa using heq⟩
    · intro hne hin
      obtain ⟨j, hj, heq⟩ := List.mem_take_iff_getElem.mp hin
      rw [List.length_ofFn] at hj
      exact hne ⟨j, by omega⟩ (by rw [Fin.lt_def]; simp only; omega) (by simpa using heq)
  rw [mem_tuples, Completion.mem_completions, Completion.Completes]
  simp only [hplace]
  constructor
  · rintro ⟨-, h⟩
    refine ⟨fun i => (h i).1, fun i j heq => ?_⟩
    rcases lt_trichotomy i j with hlt | rfl | hlt
    · exact absurd heq ((h j).2 i hlt)
    · rfl
    · exact absurd heq.symm ((h i).2 j hlt)
  · rintro ⟨hmem, hinj⟩
    exact ⟨fun i => hdom i i.isLt (hmem i), fun i => ⟨hmem i, fun j hj heq => hj.ne (hinj heq)⟩⟩

end

end InclusionExclusion
