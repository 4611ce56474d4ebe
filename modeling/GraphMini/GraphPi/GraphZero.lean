import GraphMini.GraphPi.Agreement
import GraphMini.GraphPi.Subgraphs
import GraphMini.Lib.NextPermutation
import GraphMini.Lib.StabilizerChain

/-!
# The pairs of GraphZero

`Schedule::GraphZero_aggressive_optimize`: vertex by vertex the automorphisms that move it become pairs, and
those that fix it are kept for the next one. Of the pairs with one second vertex the one with the last first
vertex stays. Unlike the pairs of the search these leave one map of each class for every pattern, and none of
them can be spared.
-/

namespace GraphMini

namespace GraphPi

open Equiv SymmetryBreaking StabilizerChain

/-- `GraphZero_get_automorphisms` -/
def graphZeroGetAutomorphisms (adjMat : List Char) (size : ℕ) : List (List ℕ) :=
  (NextPermutation.visited size.factorial (List.range size)).filter fun p =>
    (List.range size).all fun i => (List.range size).all fun j =>
      decide (marked size adjMat i j ↔ marked size adjMat (p.getD i 0) (p.getD j 0))

/-- What an automorphism that moves `v` adds to `L`. -/
def pushPair (v : ℕ) (L : List (ℕ × ℕ)) (x : List ℕ) : List (ℕ × ℕ) :=
  if x.getD v 0 = v then L
  else
    let cur := if x.getD v 0 < v then (x.getD v 0, v) else (v, x.getD v 0)
    if L.any fun q => q.1 = cur.1 ∧ q.2 = cur.2 then L else L ++ [cur]

/-- One round of the loop over the vertices, on `Aut` and `L`. -/
def stabilize (state : List (List ℕ) × List (ℕ × ℕ)) (v : ℕ) : List (List ℕ) × List (ℕ × ℕ) :=
  (state.1.filter fun x => x.getD v 0 = v, state.1.foldl (pushPair v) state.2)

/-- A pair with a second vertex that is there already moves the first one back. -/
def keepNearest : List (ℕ × ℕ) → ℕ × ℕ → List (ℕ × ℕ)
  | [], p => [p]
  | q :: rest, p =>
      if p.2 = q.2 then (if q.1 < p.1 then (p.1, q.2) else q) :: rest else q :: keepNearest rest p

def graphZeroAggressiveOptimize (adjMat : List Char) (size : ℕ) : List (ℕ × ℕ) :=
  let L := ((List.range size).foldl stabilize (graphZeroGetAutomorphisms adjMat size, [])).2
  L.foldl keepNearest []

/-! ### The automorphisms -/

section

variable {size left : ℕ} {use : Finset ℕ} {tmpVec : List ℕ}

/-- `get_full_permutation` puts the vertices in lexicographic order. -/
theorem getFullPermutation_eq_orders : getFullPermutation size left use tmpVec
    = (NextPermutation.orders left ((List.range size).filter fun i => decide (i ∉ use))).map (tmpVec ++ ·) := by
  induction left generalizing use tmpVec with
  | zero => simp [getFullPermutation, NextPermutation.orders]
  | succ left ih =>
      rw [getFullPermutation, NextPermutation.orders, List.map_flatMap]
      apply List.flatMap_congr
      intro i _
      have herase : ((List.range size).filter fun i => decide (i ∉ use)).erase i
          = (List.range size).filter fun j => decide (j ∉ insert i use) := by
        rw [(List.nodup_range.filter _).erase_eq_filter, List.filter_filter]
        apply List.filter_congr
        intro j _
        rw [Bool.eq_iff_iff]
        simp [not_or]
      rw [ih, herase, List.map_map]
      apply List.map_congr_left
      intro rest _
      simp

/-- Both loops list the permutations in the same order. -/
theorem visited_range : NextPermutation.visited size.factorial (List.range size) = fullPermutation size := by
  have hvisited := NextPermutation.visited_sorted (List.pairwise_lt_range (n := size))
  rw [List.length_range] at hvisited
  rw [hvisited, fullPermutation, getFullPermutation_eq_orders]
  simp

end

section

variable {sc : GraphMini.Schedule} {size : ℕ} {v : List ℕ}

theorem mem_graphZeroGetAutomorphisms : v ∈ graphZeroGetAutomorphisms sc.adjMat size ↔
    ∃ β ∈ sc.automorphisms size, vecOf β = v := by
  have hkeeps : ∀ β : Perm (Fin size),
      ((List.range size).all fun i => (List.range size).all fun j =>
        decide (marked size sc.adjMat i j ↔ marked size sc.adjMat ((vecOf β).getD i 0) ((vecOf β).getD j 0))) = true
      ↔ β ∈ sc.automorphisms size := by
    intro β
    simp only [List.all_eq_true, List.mem_range, decide_eq_true_eq]
    constructor
    · intro h i j
      have hij := h i i.isLt j j.isLt
      rwa [vecOf_getD, vecOf_getD] at hij
    · intro h i hi j hj
      have hij := h ⟨i, hi⟩ ⟨j, hj⟩
      rwa [← vecOf_getD, ← vecOf_getD] at hij
  rw [graphZeroGetAutomorphisms, visited_range, List.mem_filter, mem_fullPermutation]
  constructor
  · rintro ⟨⟨β, rfl⟩, h⟩
    exact ⟨β, (hkeeps β).mp h, rfl⟩
  · rintro ⟨β, hβ, rfl⟩
    exact ⟨⟨β, rfl⟩, (hkeeps β).mpr hβ⟩

end

/-- The two enumerations of `Schedule` find the same automorphisms in the same order, although one tests the edges
only and the other all entries of the matrix. From 13 vertices on the second stops at its assertion. -/
theorem automorphisms_agree (sc : GraphMini.Schedule) {size : ℕ} (hsize : size ≤ 12)
    (hsymm : ∀ i < size, ∀ j < size, marked size sc.adjMat i j → marked size sc.adjMat j i)
    (hloopless : ∀ i < size, ¬ marked size sc.adjMat i i) :
    ordersCounted size = true
      ∧ graphZeroGetAutomorphisms sc.adjMat size = getIsomorphismVec sc.adjMat size := by
  refine ⟨ordersCounted_iff.mpr hsize, ?_⟩
  rw [graphZeroGetAutomorphisms, visited_range, getIsomorphismVec]
  apply List.filter_congr
  intro v hv
  have hleft := @mem_graphZeroGetAutomorphisms sc size v
  have hright := mem_getIsomorphismVec hsymm hloopless (v := v)
  rw [graphZeroGetAutomorphisms, visited_range, List.mem_filter] at hleft
  rw [getIsomorphismVec, List.mem_filter] at hright
  rw [Bool.eq_iff_iff]
  exact (and_iff_right hv).symm.trans (hleft.trans (hright.symm.trans (and_iff_right hv)))

theorem automorphisms_agree_square : ordersCounted 4 = true
    ∧ graphZeroGetAutomorphisms square.adjMat 4 = getIsomorphismVec square.adjMat 4 :=
  automorphisms_agree square (by decide) (by decide) (by decide)

/-! ### The pairs -/

section

variable {sc : GraphMini.Schedule} {size : ℕ} {L : List (ℕ × ℕ)} {p q : ℕ × ℕ}

/-- The members of the group that fix the vertices before `k`. -/
def Fixing (sc : GraphMini.Schedule) (size k : ℕ) (x : List ℕ) : Prop :=
  ∃ β ∈ sc.automorphisms size, (∀ i : Fin size, i < k → β i = i) ∧ vecOf β = x

/-- What a vertex adds are the vertices of its orbit. -/
theorem mem_foldl_pushPair {aut : List (List ℕ)} {v : Fin size} (haut : ∀ x, x ∈ aut ↔ Fixing sc size v x) :
    p ∈ aut.foldl (pushPair v) L ↔ p ∈ L ∨ ∃ b, Moves (sc.automorphisms size) v b ∧ p = (v.val, b.val) := by
  have hstep : ∀ (L : List (ℕ × ℕ)) (x : List ℕ), Fixing sc size v x → (p ∈ pushPair v L x ↔ p ∈ L ∨
      ∃ b : Fin size, v ≠ b ∧ x.getD v 0 = b ∧ p = (v.val, b.val)) := by
    rintro L x ⟨β, hβ, hfix, rfl⟩
    rw [pushPair, vecOf_getD]
    by_cases hsame : (β v : ℕ) = v
    · rw [if_pos hsame]
      refine (or_iff_left ?_).symm
      rintro ⟨b, hne, hb, -⟩
      exact hne (Fin.ext (hsame.symm.trans hb))
    · have hmoves : Moves (sc.automorphisms size) v (β v) :=
        ⟨fun heq => hsame (congrArg Fin.val heq).symm, β, hβ, hfix, rfl⟩
      have hlt : (v : ℕ) < β v := hmoves.lt
      have hpair : (∃ b : Fin size, v ≠ b ∧ (β v : ℕ) = b ∧ p = (v.val, b.val)) ↔ p = (v.val, (β v : ℕ)) := by
        constructor
        · rintro ⟨b, -, hb, rfl⟩
          rw [hb]
        · intro hp
          exact ⟨β v, hmoves.1, rfl, hp⟩
      rw [if_neg hsame, hpair, if_neg hlt.not_gt]
      simp only [List.any_eq_true, decide_eq_true_eq]
      split_ifs with hin
      · refine (or_iff_left_of_imp ?_).symm
        rintro rfl
        obtain ⟨q, hq, hfst, hsnd⟩ := hin
        have hcur : q = (v.val, (β v : ℕ)) := Prod.ext hfst hsnd
        rwa [← hcur]
      · rw [List.mem_append, List.mem_singleton]
  have hfold : ∀ (aut : List (List ℕ)) (L : List (ℕ × ℕ)), (∀ x ∈ aut, Fixing sc size v x) →
      (p ∈ aut.foldl (pushPair v) L
        ↔ p ∈ L ∨ ∃ x ∈ aut, ∃ b : Fin size, v ≠ b ∧ x.getD v 0 = b ∧ p = (v.val, b.val)) := by
    intro aut
    induction aut with
    | nil => simp
    | cons x aut ih =>
        intro L hall
        rw [List.foldl_cons, ih _ fun y hy => hall y (List.mem_cons_of_mem x hy),
          hstep L x (hall x List.mem_cons_self), or_assoc]
        simp only [List.mem_cons, exists_eq_or_imp]
  rw [hfold aut L fun x hx => (haut x).mp hx]
  refine or_congr_right ?_
  constructor
  · rintro ⟨x, hx, b, hne, hb, rfl⟩
    obtain ⟨β, hβ, hfix, rfl⟩ := (haut x).mp hx
    rw [vecOf_getD] at hb
    exact ⟨b, ⟨hne, β, hβ, hfix, Fin.ext hb⟩, rfl⟩
  · rintro ⟨b, ⟨hne, β, hβ, hfix, rfl⟩, rfl⟩
    exact ⟨vecOf β, (haut _).mpr ⟨β, hβ, hfix, rfl⟩, β v, hne, vecOf_getD v, rfl⟩

/-- After the vertices before `k` those automorphisms are left that fix them, and `L` holds their orbits. -/
theorem stabilize_spec {k : ℕ} (hk : k ≤ size) :
    (∀ x, x ∈ ((List.range k).foldl stabilize (graphZeroGetAutomorphisms sc.adjMat size, [])).1 ↔ Fixing sc size k x)
      ∧ ∀ p, p ∈ ((List.range k).foldl stabilize (graphZeroGetAutomorphisms sc.adjMat size, [])).2
        ↔ ∃ a b : Fin size, a < k ∧ Moves (sc.automorphisms size) a b ∧ p = (a.val, b.val) := by
  induction k with
  | zero =>
      constructor
      · intro x
        have hall : ∀ β : Perm (Fin size), ∀ i : Fin size, (i : ℕ) < 0 → β i = i :=
          fun _ i hi => absurd hi (Nat.not_lt_zero i)
        rw [List.range_zero, List.foldl_nil, mem_graphZeroGetAutomorphisms]
        constructor
        · rintro ⟨β, hβ, rfl⟩
          exact ⟨β, hβ, hall β, rfl⟩
        · rintro ⟨β, hβ, -, rfl⟩
          exact ⟨β, hβ, rfl⟩
      · simp
  | succ k ih =>
      obtain ⟨haut, hpairs⟩ := ih (by omega)
      rw [List.range_succ, List.foldl_append, List.foldl_cons, List.foldl_nil]
      generalize (List.range k).foldl stabilize (graphZeroGetAutomorphisms sc.adjMat size, []) = state at *
      constructor
      · intro x
        rw [stabilize, List.mem_filter, haut, decide_eq_true_eq]
        constructor
        · rintro ⟨⟨β, hβ, hfix, rfl⟩, hk'⟩
          refine ⟨β, hβ, fun i hi => ?_, rfl⟩
          rcases Nat.lt_succ_iff_lt_or_eq.mp hi with hlt | rfl
          · exact hfix i hlt
          · rw [vecOf_getD i] at hk'
            exact Fin.ext hk'
        · rintro ⟨β, hβ, hfix, rfl⟩
          refine ⟨⟨β, hβ, fun i hi => hfix i (by omega), rfl⟩, ?_⟩
          have hk' := hfix ⟨k, by omega⟩ (Nat.lt_succ_self k)
          exact (vecOf_getD ⟨k, by omega⟩).trans (congrArg Fin.val hk')
      · intro p
        rw [stabilize, mem_foldl_pushPair (v := ⟨k, by omega⟩) haut, hpairs]
        constructor
        · rintro (⟨a, b, ha, hab, rfl⟩ | ⟨b, hb, rfl⟩)
          · exact ⟨a, b, by omega, hab, rfl⟩
          · exact ⟨_, b, Nat.lt_succ_self k, hb, rfl⟩
        · rintro ⟨a, b, ha, hab, rfl⟩
          rcases Nat.lt_succ_iff_lt_or_eq.mp ha with hlt | rfl
          · exact Or.inl ⟨a, b, hlt, hab, rfl⟩
          · exact Or.inr ⟨b, hab, rfl⟩

end

section

variable {l : List (ℕ × ℕ)} {p q : ℕ × ℕ}

theorem mem_map_snd_keepNearest {b : ℕ} :
    b ∈ (keepNearest l p).map Prod.snd ↔ b ∈ l.map Prod.snd ∨ b = p.2 := by
  induction l with
  | nil => simp [keepNearest]
  | cons r rest ih =>
      rw [keepNearest]
      split_ifs with hsame hlt
      · rw [List.map_cons, List.map_cons, List.mem_cons, hsame]
        tauto
      · rw [List.map_cons, List.mem_cons, hsame]
        tauto
      · rw [List.map_cons, List.map_cons, List.mem_cons, List.mem_cons, ih, or_assoc]

theorem nodup_keepNearest (h : (l.map Prod.snd).Nodup) : ((keepNearest l p).map Prod.snd).Nodup := by
  induction l with
  | nil => simp [keepNearest]
  | cons r rest ih =>
      obtain ⟨hfirst, hrest⟩ := List.nodup_cons.mp h
      rw [keepNearest]
      split_ifs with hsame hlt
      · exact List.nodup_cons.mpr ⟨hfirst, hrest⟩
      · exact h
      · refine List.nodup_cons.mpr ⟨fun hin => ?_, ih hrest⟩
        rcases mem_map_snd_keepNearest.mp hin with hin | heq
        · exact hfirst hin
        · exact hsame heq.symm

/-- The new pair takes the place of the one with its second vertex, if its first vertex is later. -/
theorem mem_keepNearest (h : (l.map Prod.snd).Nodup) : q ∈ keepNearest l p ↔
    (q ∈ l ∧ (q.2 = p.2 → p.1 ≤ q.1)) ∨ (q = p ∧ ∀ c, (c, p.2) ∈ l → c < p.1) := by
  induction l with
  | nil => simp [keepNearest]
  | cons r rest ih =>
      obtain ⟨hfirst, hrest⟩ := List.nodup_cons.mp h
      rw [keepNearest]
      by_cases hsame : p.2 = r.2
      · have hother : ∀ q ∈ rest, q.2 ≠ p.2 := by
          intro q hq heq
          exact hfirst (List.mem_map.mpr ⟨q, hq, heq.trans hsame⟩)
        have hall : (∀ c, (c, p.2) ∈ r :: rest → c < p.1) ↔ r.1 < p.1 := by
          constructor
          · intro hc
            apply hc
            rw [hsame]
            exact List.mem_cons_self
          · intro hlt c hc
            rcases List.mem_cons.mp hc with heq | hin
            · rw [← heq] at hlt
              exact hlt
            · exact absurd (rfl : (c, p.2).2 = p.2) (hother (c, p.2) hin)
        have hrest' : q ∈ rest → (q.2 = p.2 → p.1 ≤ q.1) := fun hq heq => absurd heq (hother q hq)
        rw [if_pos hsame, hall, List.mem_cons, List.mem_cons]
        by_cases hlt : r.1 < p.1
        · have hpair : (p.1, r.2) = p := Prod.ext rfl hsame.symm
          rw [if_pos hlt, hpair]
          constructor
          · rintro (rfl | hq)
            · exact Or.inr ⟨rfl, hlt⟩
            · exact Or.inl ⟨Or.inr hq, hrest' hq⟩
          · rintro (⟨rfl | hq, hle⟩ | ⟨rfl, -⟩)
            · exact absurd (hle hsame.symm) (not_le.mpr hlt)
            · exact Or.inr hq
            · exact Or.inl rfl
        · rw [if_neg hlt]
          constructor
          · rintro (rfl | hq)
            · exact Or.inl ⟨Or.inl rfl, fun _ => not_lt.mp hlt⟩
            · exact Or.inl ⟨Or.inr hq, hrest' hq⟩
          · rintro (⟨hq, -⟩ | ⟨-, habove⟩)
            · exact hq
            · exact absurd habove hlt
      · have hall : (∀ c, (c, p.2) ∈ r :: rest → c < p.1) ↔ ∀ c, (c, p.2) ∈ rest → c < p.1 := by
          constructor
          · exact fun hc c hin => hc c (List.mem_cons_of_mem r hin)
          · intro hc c hin
            rcases List.mem_cons.mp hin with heq | hin
            · exact absurd (congrArg Prod.snd heq) hsame
            · exact hc c hin
        rw [if_neg hsame, hall, List.mem_cons, List.mem_cons, ih hrest]
        constructor
        · rintro (rfl | ⟨hq, hle⟩ | hnew)
          · exact Or.inl ⟨Or.inl rfl, fun heq => absurd heq.symm hsame⟩
          · exact Or.inl ⟨Or.inr hq, hle⟩
          · exact Or.inr hnew
        · rintro (⟨rfl | hq, hle⟩ | hnew)
          · exact Or.inl rfl
          · exact Or.inr (Or.inl ⟨hq, hle⟩)
          · exact Or.inr (Or.inr hnew)

theorem exists_last {L : List (ℕ × ℕ)} {b c : ℕ} (h : (c, b) ∈ L) :
    ∃ a, (a, b) ∈ L ∧ c ≤ a ∧ ∀ d, (d, b) ∈ L → d ≤ a := by
  have hmem : ∀ {q}, q ∈ L.toFinset.filter (fun q => q.2 = b) ↔ q ∈ L ∧ q.2 = b := by
    intro q
    rw [Finset.mem_filter, List.mem_toFinset]
  obtain ⟨⟨a, b'⟩, ha, hmax⟩ := Finset.exists_max_image _ Prod.fst ⟨(c, b), hmem.mpr ⟨h, rfl⟩⟩
  obtain ⟨hin, rfl⟩ := hmem.mp ha
  exact ⟨a, hin, hmax (c, _) (hmem.mpr ⟨h, rfl⟩), fun d hd => hmax (d, _) (hmem.mpr ⟨hd, rfl⟩)⟩

/-- Of the pairs with one second vertex the one with the last first vertex is kept. -/
theorem foldl_keepNearest_spec (L : List (ℕ × ℕ)) :
    ((L.foldl keepNearest []).map Prod.snd).Nodup
      ∧ ∀ q, q ∈ L.foldl keepNearest [] ↔ q ∈ L ∧ ∀ c, (c, q.2) ∈ L → c ≤ q.1 := by
  induction L using List.reverseRecOn with
  | nil => simp
  | append_singleton L p ih =>
      obtain ⟨hnodup, hmem⟩ := ih
      rw [List.foldl_append, List.foldl_cons, List.foldl_nil]
      refine ⟨nodup_keepNearest hnodup, fun q => ?_⟩
      rw [mem_keepNearest hnodup, hmem]
      simp only [hmem, List.mem_append, List.mem_singleton]
      constructor
      · rintro (⟨⟨hq, hlast⟩, hle⟩ | ⟨rfl, hnew⟩)
        · refine ⟨Or.inl hq, fun c hc => ?_⟩
          rcases hc with hc | rfl
          · exact hlast c hc
          · exact hle rfl
        · refine ⟨Or.inr rfl, fun c hc => ?_⟩
          rcases hc with hc | heq
          · obtain ⟨a, ha, hle, hmax⟩ := exists_last hc
            exact hle.trans (hnew a ⟨ha, hmax⟩).le
          · exact (congrArg Prod.fst heq).le
      · rintro ⟨hq, hlast⟩
        by_cases hin : q ∈ L
        · refine Or.inl ⟨⟨hin, fun c hc => hlast c (Or.inl hc)⟩, fun heq => ?_⟩
          exact hlast p.1 (Or.inr (Prod.ext rfl heq))
        · obtain rfl := hq.resolve_left hin
          refine Or.inr ⟨rfl, fun c hc => lt_of_le_of_ne (hlast c (Or.inl hc.1)) ?_⟩
          rintro rfl
          exact hin hc.1

end

section

variable {sc : GraphMini.Schedule} {size : ℕ} {p : ℕ × ℕ}

/-- The pairs are the comparisons of each place with the last one that is moved to it. -/
theorem mem_graphZero : p ∈ graphZeroAggressiveOptimize sc.adjMat size ↔
    ∃ a b : Fin size, Nearest (sc.automorphisms size) a b ∧ p = (a.val, b.val) := by
  have hL : ∀ p, p ∈ ((List.range size).foldl stabilize (graphZeroGetAutomorphisms sc.adjMat size, [])).2
      ↔ ∃ a b : Fin size, Moves (sc.automorphisms size) a b ∧ p = (a.val, b.val) := by
    intro p
    rw [(@stabilize_spec sc size size le_rfl).2 p]
    constructor
    · rintro ⟨a, b, -, hab, rfl⟩
      exact ⟨a, b, hab, rfl⟩
    · rintro ⟨a, b, hab, rfl⟩
      exact ⟨a, b, a.isLt, hab, rfl⟩
  rw [graphZeroAggressiveOptimize, (foldl_keepNearest_spec _).2, hL]
  simp only [hL]
  constructor
  · rintro ⟨⟨a, b, hab, rfl⟩, hlast⟩
    exact ⟨a, b, ⟨hab, fun c hc => hlast c ⟨c, b, hc, rfl⟩⟩, rfl⟩
  · rintro ⟨a, b, ⟨hab, hlast⟩, rfl⟩
    refine ⟨⟨a, b, hab, rfl⟩, ?_⟩
    rintro c ⟨a', b', hab', heq⟩
    obtain ⟨rfl, hb⟩ := Prod.mk.inj heq
    obtain rfl : b = b' := Fin.ext hb
    exact hlast a' hab'

theorem pair_mem_graphZero {a b : Fin size} :
    (a.val, b.val) ∈ graphZeroAggressiveOptimize sc.adjMat size ↔ Nearest (sc.automorphisms size) a b := by
  rw [mem_graphZero]
  constructor
  · rintro ⟨a', b', h, heq⟩
    obtain ⟨ha, hb⟩ := Prod.mk.inj heq
    rwa [Fin.ext ha, Fin.ext hb]
  · exact fun h => ⟨a, b, h, rfl⟩

theorem below_graphZero : Below size (graphZeroAggressiveOptimize sc.adjMat size) := by
  intro p hp
  obtain ⟨a, b, hab, rfl⟩ := mem_graphZero.mp hp
  exact ⟨hab.1.lt, b.isLt⟩

theorem nodup_graphZero : ((graphZeroAggressiveOptimize sc.adjMat size).map Prod.snd).Nodup :=
  (foldl_keepNearest_spec _).1

theorem obeysAll_graphZero {α : Type} [LinearOrder α] {f : Fin size → α} :
    ObeysAll (graphZeroAggressiveOptimize sc.adjMat size) f
      ↔ ∀ a b, Nearest (sc.automorphisms size) a b → f b < f a := by
  constructor
  · exact fun h a b hab => h a b (pair_mem_graphZero.mpr hab)
  · exact fun h a b hab => h a b (pair_mem_graphZero.mp hab)

theorem existsUnique_graphZero {α : Type} [LinearOrder α] {f : Fin size → α} (hf : Function.Injective f) :
    ∃! β, β ∈ sc.automorphisms size ∧ ObeysAll (graphZeroAggressiveOptimize sc.adjMat size) (f ∘ β) := by
  obtain ⟨β, ⟨hβ, hkeeps⟩, hunique⟩ := existsUnique_keeps (A := sc.automorphisms size) hf
  refine ⟨β, ⟨hβ, obeysAll_graphZero.mpr hkeeps⟩, fun γ ⟨hγ, hobeys⟩ => ?_⟩
  exact hunique γ ⟨hγ, obeysAll_graphZero.mp hobeys⟩

end

/-- The pairs of GraphZero are fewer than the vertices, and of the automorphic images of a labelling exactly one
keeps them. If a pair is left out this is true no more. -/
theorem graphZero_picks_one (sc : GraphMini.Schedule) {size : ℕ} (hsize : 0 < size) :
    Below size (graphZeroAggressiveOptimize sc.adjMat size)
      ∧ (graphZeroAggressiveOptimize sc.adjMat size).length < size
      ∧ (∀ {α : Type} [LinearOrder α] {f : Fin size → α}, Function.Injective f →
        ∃! β, β ∈ sc.automorphisms size ∧ ObeysAll (graphZeroAggressiveOptimize sc.adjMat size) (f ∘ β))
      ∧ ∀ p ∈ graphZeroAggressiveOptimize sc.adjMat size, ∃ f : Fin size → ℕ, Function.Injective f
        ∧ ¬ ∃! β, β ∈ sc.automorphisms size
          ∧ ObeysAll ((graphZeroAggressiveOptimize sc.adjMat size).erase p) (f ∘ β) := by
  have hnodup := @nodup_graphZero sc size
  have hbelow := @below_graphZero sc size
  refine ⟨hbelow, ?_, fun {α} _ {f} hf => ?_, fun p hp => ?_⟩
  · -- the second vertices differ, and none of them is the first of all
    have hseconds : (graphZeroAggressiveOptimize sc.adjMat size).map Prod.snd ⊆ List.range' 1 (size - 1) := by
      intro b hb
      obtain ⟨p, hp, rfl⟩ := List.mem_map.mp hb
      obtain ⟨hlt, hlast⟩ := hbelow p hp
      rw [List.mem_range'_1]
      omega
    have hle := (List.subperm_of_subset hnodup hseconds).length_le
    rw [List.length_map, List.length_range'] at hle
    omega
  · exact existsUnique_graphZero hf
  · obtain ⟨a, b, hab, rfl⟩ := mem_graphZero.mp hp
    obtain ⟨f, hf, β, hβ, hne, hone, hother⟩ := exists_two_of_spared hab
    have hrest : ∀ c d : Fin size,
        (c.val, d.val) ∈ (graphZeroAggressiveOptimize sc.adjMat size).erase (a.val, b.val) →
          Nearest (sc.automorphisms size) c d ∧ (c, d) ≠ (a, b) := by
      intro c d hcd
      rw [(List.Nodup.of_map _ hnodup).mem_erase_iff] at hcd
      refine ⟨pair_mem_graphZero.mp hcd.2, ?_⟩
      rintro ⟨⟩
      exact hcd.1 rfl
    refine ⟨f, hf, fun hexists => hne ?_⟩
    apply hexists.unique
    · exact ⟨hβ, fun c d hcd => hother c d (hrest c d hcd).1 (hrest c d hcd).2⟩
    · exact ⟨Subgroup.one_mem _, fun c d hcd => hone c d (hrest c d hcd).1 (hrest c d hcd).2⟩

/-- Each vertex of a square but the first is compared once. -/
example : graphZeroAggressiveOptimize square.adjMat 4 = [(0, 1), (0, 2), (1, 3)] := by decide +kernel

theorem graphZero_picks_one_square :
    Below 4 (graphZeroAggressiveOptimize square.adjMat 4)
      ∧ (graphZeroAggressiveOptimize square.adjMat 4).length < 4
      ∧ (∀ {α : Type} [LinearOrder α] {f : Fin 4 → α}, Function.Injective f →
        ∃! β, β ∈ square.automorphisms 4 ∧ ObeysAll (graphZeroAggressiveOptimize square.adjMat 4) (f ∘ β))
      ∧ ∀ p ∈ graphZeroAggressiveOptimize square.adjMat 4, ∃ f : Fin 4 → ℕ, Function.Injective f
        ∧ ¬ ∃! β, β ∈ square.automorphisms 4
          ∧ ObeysAll ((graphZeroAggressiveOptimize square.adjMat 4).erase p) (f ∘ β) :=
  graphZero_picks_one square (by decide)

end GraphPi

end GraphMini
