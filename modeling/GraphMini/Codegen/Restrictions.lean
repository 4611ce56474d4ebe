import GraphMini.Codegen.Closure

/-!
# The restriction matrix is closed

One pass over the rows reads and extends the matrix at the same time. It closes the pairs because every
pair points from a smaller to a larger vertex: when a row is read, every row that it follows from has
been passed on already.
-/

namespace GraphMini

open Relation (TransGen)

variable {pairVec : List (ℕ × ℕ)} {pSize : ℕ} {mat mat' : List Char}

/-- No mark is taken away. -/
def Grows (pSize : ℕ) (mat mat' : List Char) : Prop :=
  ∀ i j, i < pSize → j < pSize → marked pSize mat i j → marked pSize mat' i j

theorem Grows.refl (pSize : ℕ) (mat : List Char) : Grows pSize mat mat := fun _ _ _ _ h => h

theorem Grows.trans {mat'' : List Char} (h : Grows pSize mat mat') (h' : Grows pSize mat' mat'') :
    Grows pSize mat mat'' := by
  intro i j hi hj hmark
  apply h' i j hi hj
  exact h i j hi hj hmark

theorem grows_set (hlen : mat.length = pSize * pSize) {i j : ℕ} (hi : i < pSize) (hj : j < pSize) :
    Grows pSize mat (mat.set (vecIndex i j pSize) '1') :=
  fun _ _ _ hj' hmark => (marked_set hlen hi hj hj').mpr (Or.inr hmark)

/-- Marking a list of columns in one row. -/
theorem markRow_spec (hlen : mat.length = pSize * pSize) {b : ℕ} (hb : b < pSize) {columns : List ℕ}
    (hcolumns : ∀ j ∈ columns, j < pSize) :
    (columns.foldl (fun mat j => mat.set (vecIndex b j pSize) '1') mat).length = pSize * pSize ∧
      Grows pSize mat (columns.foldl (fun mat j => mat.set (vecIndex b j pSize) '1') mat) ∧
      ∀ j ∈ columns,
        marked pSize (columns.foldl (fun mat j => mat.set (vecIndex b j pSize) '1') mat) b j := by
  induction columns generalizing mat with
  | nil => exact ⟨hlen, .refl _ _, by simp⟩
  | cons j columns ih =>
      have hj := hcolumns j List.mem_cons_self
      have hset : (mat.set (vecIndex b j pSize) '1').length = pSize * pSize := by simpa using hlen
      obtain ⟨hlen', hgrow, hmark⟩ := ih hset fun k hk => hcolumns k (List.mem_cons_of_mem _ hk)
      refine ⟨hlen', (grows_set hlen hb hj).trans hgrow, fun k hk => ?_⟩
      rcases List.mem_cons.mp hk with rfl | hk
      · apply hgrow b k hb hj
        exact (marked_set hlen hb hj hj).mpr (Or.inl ⟨rfl, rfl⟩)
      · exact hmark k hk

/-- A row is passed on to every vertex that it restricts. -/
theorem closeRow_spec (hlen : mat.length = pSize * pSize) (v1 : ℕ)
    (hpairs : ∀ pair ∈ pairVec, pair.2 < pSize) :
    (closeRow pairVec pSize mat v1).length = pSize * pSize ∧
      Grows pSize mat (closeRow pairVec pSize mat v1) ∧
      ∀ b, (v1, b) ∈ pairVec → ∀ j < pSize, marked pSize mat v1 j →
        marked pSize (closeRow pairVec pSize mat v1) b j := by
  rw [closeRow]
  have hcolumns : ∀ j ∈ rowOnes mat v1 pSize, j < pSize := fun j hj => (mem_rowOnes.mp hj).1
  have hrow : ∀ j < pSize, marked pSize mat v1 j → j ∈ rowOnes mat v1 pSize := fun j hj hmark =>
    mem_rowOnes.mpr ⟨hj, hmark⟩
  generalize rowOnes mat v1 pSize = columns at hcolumns hrow ⊢
  suffices hmain : ∀ (rest : List (ℕ × ℕ)) (out : List Char), (∀ pair ∈ rest, pair.2 < pSize) →
      out.length = pSize * pSize →
      (rest.foldl (fun mat pair => if pair.1 == v1 then
          columns.foldl (fun mat j => mat.set (vecIndex pair.2 j pSize) '1') mat else mat) out).length
        = pSize * pSize ∧
      Grows pSize out (rest.foldl (fun mat pair => if pair.1 == v1 then
          columns.foldl (fun mat j => mat.set (vecIndex pair.2 j pSize) '1') mat else mat) out) ∧
      ∀ b, (v1, b) ∈ rest → ∀ j ∈ columns, marked pSize (rest.foldl (fun mat pair => if pair.1 == v1 then
          columns.foldl (fun mat j => mat.set (vecIndex pair.2 j pSize) '1') mat else mat) out) b j by
    obtain ⟨hlen', hgrow, hmark⟩ := hmain pairVec mat hpairs hlen
    exact ⟨hlen', hgrow, fun b hb j hj hin => hmark b hb j (hrow j hj hin)⟩
  intro rest
  induction rest with
  | nil => exact fun out _ hout => ⟨hout, .refl _ _, by simp⟩
  | cons pair rest ih =>
      intro out hrest hout
      have hrest' : ∀ pair ∈ rest, pair.2 < pSize := fun p hp => hrest p (List.mem_cons_of_mem _ hp)
      have hb : pair.2 < pSize := hrest pair List.mem_cons_self
      rw [List.foldl_cons]
      by_cases hv : pair.1 = v1
      · obtain ⟨hlen₁, hgrow₁, hmark₁⟩ := markRow_spec hout hb hcolumns
        rw [if_pos (by simpa using hv)]
        obtain ⟨hlen₂, hgrow₂, hmark₂⟩ := ih _ hrest' hlen₁
        refine ⟨hlen₂, hgrow₁.trans hgrow₂, fun b hmem j hj => ?_⟩
        rcases List.mem_cons.mp hmem with heq | hmem
        · obtain rfl : b = pair.2 := congrArg Prod.snd heq
          exact hgrow₂ _ _ hb (hcolumns j hj) (hmark₁ j hj)
        · exact hmark₂ b hmem j hj
      · rw [if_neg (by simpa using hv)]
        obtain ⟨hlen₂, hgrow₂, hmark₂⟩ := ih out hrest' hout
        refine ⟨hlen₂, hgrow₂, fun b hmem j hj => ?_⟩
        rcases List.mem_cons.mp hmem with heq | hmem
        · exact absurd (congrArg Prod.fst heq).symm hv
        · exact hmark₂ b hmem j hj

/-- The rows below `v1` have been passed on. -/
structure PassedOn (pairVec : List (ℕ × ℕ)) (pSize v1 : ℕ) (mat : List Char) : Prop where
  length : mat.length = pSize * pSize
  pairs : ∀ a b, (a, b) ∈ pairVec → marked pSize mat b a
  rows : ∀ a b, (a, b) ∈ pairVec → a < v1 → ∀ j, TransGen (restrictedBy pairVec) a j →
    marked pSize mat b j

section

variable (hpairs : ∀ pair ∈ pairVec, pair.1 < pair.2 ∧ pair.2 < pSize)

include hpairs

theorem lt_of_restricted {i j : ℕ} (h : TransGen (restrictedBy pairVec) i j) : j < i :=
  lt_of_transGen (f := OrderDual.toDual) (fun _ _ hab => (hpairs _ hab).1) h

/-- Every step of the pass makes one more row complete. -/
theorem PassedOn.step {v1 : ℕ} (h : PassedOn pairVec pSize v1 mat) (hv1 : v1 < pSize) :
    PassedOn pairVec pSize (v1 + 1) (closeRow pairVec pSize mat v1) := by
  obtain ⟨hlen, hgrow, hpass⟩ := closeRow_spec h.length v1 fun pair hpair => (hpairs pair hpair).2
  have hlt : ∀ a b, (a, b) ∈ pairVec → a < pSize ∧ b < pSize := fun a b hab =>
    ⟨(hpairs _ hab).1.trans (hpairs _ hab).2, (hpairs _ hab).2⟩
  refine ⟨hlen, fun a b hab => ?_, fun a b hab ha j hj => ?_⟩
  · exact hgrow b a (hlt a b hab).2 (hlt a b hab).1 (h.pairs a b hab)
  · have hjlt : j < pSize := (lt_of_restricted hpairs hj).trans (hlt a b hab).1
    rcases (Nat.lt_succ_iff.mp ha).eq_or_lt with rfl | ha
    · -- what restricts `a` is marked in its row by now
      apply hpass b hab j hjlt
      rcases TransGen.head'_iff.mp hj with ⟨x, hx, hrest⟩
      rcases Relation.reflTransGen_iff_eq_or_transGen.mp hrest with rfl | hrest
      · exact h.pairs _ _ hx
      · exact h.rows x a hx (hpairs _ hx).1 j hrest
    · exact hgrow b j (hlt a b hab).2 hjlt (h.rows a b hab ha j hj)

theorem passedOn_restrictsToStr : PassedOn pairVec pSize pSize (restrictsToStr pairVec pSize) := by
  have hpairs' : ∀ pair ∈ pairVec, pair.1 < pSize ∧ pair.2 < pSize := fun pair hpair =>
    ⟨(hpairs pair hpair).1.trans (hpairs pair hpair).2, (hpairs pair hpair).2⟩
  have hstart := closes_pairs hpairs'
  have hloop : ∀ n ≤ pSize, PassedOn pairVec pSize n ((List.range n).foldl (closeRow pairVec pSize)
      (pairVec.foldl (fun mat pair => mat.set (vecIndex pair.2 pair.1 pSize) '1')
        (List.replicate (pSize * pSize) '0'))) := by
    intro n
    induction n with
    | zero => exact fun _ => ⟨hstart.length, hstart.complete, fun _ _ _ ha => absurd ha (Nat.not_lt_zero _)⟩
    | succ n ih =>
        intro hn
        rw [List.range_succ, List.foldl_append]
        exact (ih (by omega)).step hpairs (by omega)
  exact hloop pSize le_rfl

end

/-- The matrix marks exactly what follows from the pairs, so ids satisfy the marked restrictions if and
only if they satisfy the given ones. -/
theorem restrictsToStr_closed (pairVec : List (ℕ × ℕ)) (pSize : ℕ)
    (hpairs : ∀ pair ∈ pairVec, pair.1 < pair.2 ∧ pair.2 < pSize) :
    (restrictsToStr pairVec pSize).length = pSize * pSize ∧
    (∀ b < pSize, ∀ a < pSize, marked pSize (restrictsToStr pairVec pSize) b a ↔
      TransGen (restrictedBy pairVec) b a) ∧
    ∀ id : ℕ → ℕ, (∀ b < pSize, ∀ a < pSize, marked pSize (restrictsToStr pairVec pSize) b a →
        id b < id a) ↔
      ∀ a b, (a, b) ∈ pairVec → id b < id a := by
  have hpassed := passedOn_restrictsToStr hpairs
  have hlt : ∀ a b, (a, b) ∈ pairVec → a < pSize ∧ b < pSize := fun a b hab =>
    ⟨(hpairs _ hab).1.trans (hpairs _ hab).2, (hpairs _ hab).2⟩
  have hcloses := closes_restrictsToStr fun pair hpair => hlt pair.1 pair.2 hpair
  have hiff : ∀ b < pSize, ∀ a < pSize, marked pSize (restrictsToStr pairVec pSize) b a ↔
      TransGen (restrictedBy pairVec) b a := by
    intro b hb a ha
    refine ⟨hcloses.sound b a hb ha, fun h => ?_⟩
    rcases TransGen.head'_iff.mp h with ⟨x, hx, hrest⟩
    rcases Relation.reflTransGen_iff_eq_or_transGen.mp hrest with rfl | hrest
    · exact hpassed.pairs _ _ hx
    · exact hpassed.rows x b hx (hlt x b hx).1 a hrest
  refine ⟨hpassed.length, hiff, fun id => ⟨fun h a b hab => ?_, fun h b hb a ha hmark => ?_⟩⟩
  · exact h b (hlt a b hab).2 a (hlt a b hab).1 (hpassed.pairs a b hab)
  · exact lt_of_transGen h ((hiff b hb a ha).mp hmark)

/-- Two pairs that meet give a third mark. -/
theorem restrictsToStr_closed_chain :
    marked 3 (restrictsToStr [(0, 1), (1, 2)] 3) 2 0 ↔
      TransGen (restrictedBy [(0, 1), (1, 2)]) 2 0 :=
  (restrictsToStr_closed [(0, 1), (1, 2)] 3 (by decide)).2.1 2 (by decide) 0 (by decide)

end GraphMini
