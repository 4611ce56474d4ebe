import GraphMini.GraphPi.DisjointSetUnion
import GraphMini.Lib.Colorings
import GraphMini.Lib.InclusionExclusion
import Mathlib.Data.Fintype.CardEmbedding

/-!
# The coefficients of the inclusion-exclusion mode

`Schedule::init_in_exclusion_optimize` counts, for every size, the sets of edges that connect a complete
graph of that size, those with an even and those with an odd number of edges. For every partition of the
last vertices into groups it multiplies these counts, and what it keeps is the difference. So each
partition is listed once, with the coefficient of inclusion and exclusion.
-/

namespace GraphMini

namespace GraphPi

open Colorings InclusionExclusion

/-- The array `edge`. -/
def edgeArray (n : ℕ) : List (ℕ × ℕ) :=
  (List.range n).flatMap fun i => (List.range i).map fun j => (i, j)

/-- The edges of the mask `s` are merged and counted. -/
def mergeMask (n s : ℕ) : ℕ × DisjointSetUnion :=
  (List.range (n * (n - 1) / 2)).foldl
    (fun state i =>
      if s.testBit i then
        let edge := (edgeArray n).getD i (0, 0)
        (state.1 + 1, state.2.merge edge.1 edge.2)
      else state)
    (0, DisjointSetUnion.init n)

/-- `1 << m`, where it fits an `int`. -/
def intShift (m : ℕ) : Option ℕ := if m < 31 then some (2 ^ m) else none

/-- `in_exclusion_val[2 * n - 2]` and `in_exclusion_val[2 * n - 1]`. -/
def connectedMasks (n : ℕ) : Option (ℤ × ℤ) :=
  if n = 1 then some (1, 0)
  else
    (intShift (n * (n - 1) / 2)).map fun bound => (List.range bound).foldl
      (fun val s =>
        let (bitCnt, dsu) := mergeMask n s
        if dsu.setSize = 1 then
          if bitCnt % 2 = 1 then (val.1, val.2 + 1) else (val.1 + 1, val.2)
        else val)
      (0, 0)

/-- The array `in_exclusion_val`, two entries for each size. -/
def inExclusionVal (masks : List (ℤ × ℤ)) (i : ℕ) : ℤ :=
  let val := masks.getD (i / 2) (0, 0)
  if i % 2 = 0 then val.1 else val.2

/-- The vertices of each group. -/
def groupOf (num : ℕ) (id : List ℕ) (idCnt : ℕ) : List (List ℕ) :=
  (List.range idCnt).map fun i => (List.range num).filter fun j => id.getD j 0 = i

/-- The counts of the groups, even and odd, multiplied. -/
def groupVal (masks : List (ℤ × ℤ)) (id : List ℕ) (idCnt : ℕ) : ℤ :=
  let size := fun i => id.count i
  let inExclusionVal := inExclusionVal masks
  let val := (List.range' 1 (idCnt - 1)).foldl
    (fun (val : ℤ × ℤ) i =>
      (val.1 * inExclusionVal (size i * 2 - 2) + val.2 * inExclusionVal (size i * 2 - 1),
        val.1 * inExclusionVal (size i * 2 - 1) + val.2 * inExclusionVal (size i * 2 - 2)))
    (inExclusionVal (size 0 * 2 - 2), inExclusionVal (size 0 * 2 - 1))
  val.1 - val.2

/-- `get_in_exclusion_optimize_group`: the next vertex begins a group or goes to one of the others. -/
def getInExclusionOptimizeGroup (masks : List (ℤ × ℤ)) (num : ℕ) :
    ℕ → List ℕ → ℕ → List (List (List ℕ) × ℤ)
  | 0, id, idCnt => [(groupOf num id idCnt, groupVal masks id idCnt)]
  | left + 1, id, idCnt =>
      getInExclusionOptimizeGroup masks num left (id ++ [idCnt]) (idCnt + 1)
        ++ (List.range idCnt).flatMap fun i => getInExclusionOptimizeGroup masks num left (id ++ [i]) idCnt

/-- `init_in_exclusion_optimize`, from the number of the last vertices to the groups and their values. It asserts
that there is a last vertex. -/
def initInExclusionOptimize (num : ℕ) : Option (List (List (List ℕ)) × List ℤ) := do
  if num = 0 then none
  let masks ← (List.range' 1 num).mapM connectedMasks
  some (getInExclusionOptimizeGroup masks num num [] 0).unzip

/-! ### The sets of edges that connect a complete graph -/

section

variable {n s i j : ℕ}

theorem mem_edgeArray : (i, j) ∈ edgeArray n ↔ j < i ∧ i < n := by
  simp only [edgeArray, List.mem_flatMap, List.mem_map, List.mem_range, Prod.mk.injEq]
  constructor
  · rintro ⟨i', hi, j', hj, rfl, rfl⟩
    exact ⟨hj, hi⟩
  · rintro ⟨hj, hi⟩
    exact ⟨i, hi, j, hj, rfl, rfl⟩

theorem length_edgeArray (n : ℕ) : (edgeArray n).length = n * (n - 1) / 2 := by
  rw [edgeArray, List.length_flatMap, ← Finset.sum_range_id, ← List.sum_toFinset _ List.nodup_range,
    List.toFinset_range]
  simp

/-- The pairs of a mask. -/
def maskPairs (n s : ℕ) : List (ℕ × ℕ) :=
  (chosen (n * (n - 1) / 2) s).map fun i => (edgeArray n).getD i (0, 0)

theorem mergeMask_spec (n s : ℕ) :
    (mergeMask n s).1 = (chosen (n * (n - 1) / 2) s).length ∧ Joins n (mergeMask n s).2 (maskPairs n s) := by
  have hbegins : ∀ m ≤ n * (n - 1) / 2,
      ((List.range m).foldl
        (fun state i =>
          if s.testBit i then
            let edge := (edgeArray n).getD i (0, 0)
            (state.1 + 1, state.2.merge edge.1 edge.2)
          else state)
        (0, DisjointSetUnion.init n)).1 = (chosen m s).length ∧
      Joins n ((List.range m).foldl
        (fun state i =>
          if s.testBit i then
            let edge := (edgeArray n).getD i (0, 0)
            (state.1 + 1, state.2.merge edge.1 edge.2)
          else state)
        (0, DisjointSetUnion.init n)).2 ((chosen m s).map fun i => (edgeArray n).getD i (0, 0)) := by
    intro m hm
    induction m with
    | zero => exact ⟨rfl, joins_init n⟩
    | succ m ih =>
        obtain ⟨hcnt, hjoins⟩ := ih (by omega)
        have hlt : m < (edgeArray n).length := by
          rw [length_edgeArray]
          omega
        have hchosen : chosen (m + 1) s = chosen m s ++ if s.testBit m then [m] else [] := by
          rw [chosen, List.range_succ, List.filter_append, List.filter_singleton, Bool.cond_eq_ite]
          rfl
        rw [List.range_succ, List.foldl_append, List.foldl_cons, List.foldl_nil, hchosen]
        by_cases hbit : s.testBit m = true
        · simp only [hbit, if_true, List.length_append, List.map_append, List.length_singleton, List.map_cons,
            List.map_nil]
          refine ⟨by rw [hcnt], ?_⟩
          have hmem : (edgeArray n).getD m (0, 0) ∈ edgeArray n := by
            rw [List.getD_eq_getElem _ _ hlt]
            exact List.getElem_mem hlt
          obtain ⟨hj, hi⟩ := mem_edgeArray.mp hmem
          exact hjoins.merge hi (hj.trans hi)
        · simp only [hbit, Bool.false_eq_true, if_false, List.append_nil]
          exact ⟨hcnt, hjoins⟩
  exact hbegins _ le_rfl

/-- A coloring that tells the ends of every edge apart is injective. -/
theorem injective_iff_edgeArray {q : ℕ} {f : Fin n → Fin q} :
    (∀ i < n * (n - 1) / 2, ¬ color f ((edgeArray n).getD i (0, 0)).1 = color f ((edgeArray n).getD i (0, 0)).2) ↔
      Function.Injective f := by
  rw [← length_edgeArray]
  constructor
  · intro h
    have hlt : ∀ a b : Fin n, b < a → f a ≠ f b := by
      intro a b hba heq
      obtain ⟨i, hi, hedge⟩ := List.getElem_of_mem (mem_edgeArray.mpr ⟨hba, a.isLt⟩)
      apply h i hi
      rw [List.getD_eq_getElem _ _ hi, hedge, color_of_lt a.isLt, color_of_lt b.isLt]
      exact congrArg Fin.val heq
    intro a b heq
    by_contra hne
    rcases lt_or_gt_of_ne hne with hab | hba
    · exact hlt b a hab heq.symm
    · exact hlt a b hba heq
  · intro hf i hi heq
    rw [List.getD_eq_getElem _ _ hi] at heq
    have hmem : ((edgeArray n)[i].1, (edgeArray n)[i].2) ∈ edgeArray n := List.getElem_mem hi
    obtain ⟨hj, hlt⟩ := mem_edgeArray.mp hmem
    rw [color_of_lt hlt, color_of_lt (hj.trans hlt)] at heq
    have hsame := congrArg Fin.val (hf (Fin.ext heq))
    exact hj.ne' hsame

/-- The masks count the injective colorings. -/
theorem descFactorial_eq (n q : ℕ) : (q.descFactorial n : ℤ)
    = ∑ s ∈ Finset.range (2 ^ (n * (n - 1) / 2)),
        sign (n * (n - 1) / 2) s * (q : ℤ) ^ (mergeMask n s).2.setSize := by
  have hinjective : (Finset.univ.filter fun f : Fin n → Fin q => ∀ i < n * (n - 1) / 2,
      ¬ color f ((edgeArray n).getD i (0, 0)).1 = color f ((edgeArray n).getD i (0, 0)).2).card
      = q.descFactorial n := by
    calc (Finset.univ.filter fun f : Fin n → Fin q => ∀ i < n * (n - 1) / 2,
          ¬ color f ((edgeArray n).getD i (0, 0)).1 = color f ((edgeArray n).getD i (0, 0)).2).card
        = (Finset.univ.filter fun f : Fin n → Fin q => Function.Injective f).card := by
          congr 1
          apply Finset.filter_congr
          intro f _
          exact injective_iff_edgeArray
      _ = Fintype.card (Fin n ↪ Fin q) := by
          rw [← Fintype.card_subtype]
          exact Fintype.card_congr (Equiv.subtypeInjectiveEquivEmbedding _ _)
      _ = q.descFactorial n := by simp [Fintype.card_embedding_eq]
  rw [← hinjective, card_none]
  apply Finset.sum_congr rfl
  intro s _
  have hcount := (mergeMask_spec n s).2.card_colorings q
  simp only [maskPairs, List.forall_mem_map] at hcount
  rw [hcount]
  push_cast
  rfl

theorem intShift_eq (hn : n ≤ 8) : intShift (n * (n - 1) / 2) = some (2 ^ (n * (n - 1) / 2)) := by
  have hle : n * (n - 1) ≤ 8 * 7 := Nat.mul_le_mul hn (by omega)
  exact if_pos (by omega)

/-- The difference of the counts is the coefficient of a block, as long as the masks fit an `int`. -/
theorem connectedMasks_sub (hn : 0 < n) (hmost : n ≤ 8) :
    ∃ val, connectedMasks n = some val ∧ val.1 - val.2 = coefficient n := by
  by_cases hone : n = 1
  · refine ⟨(1, 0), if_pos hone, ?_⟩
    simp [hone, coefficient]
  rw [connectedMasks, if_neg hone, intShift_eq hmost]
  refine ⟨_, rfl, ?_⟩
  set m := n * (n - 1) / 2 with hm
  have hbegins : ∀ k ≤ 2 ^ m, ((List.range k).foldl
      (fun (val : ℤ × ℤ) s =>
        let (bitCnt, dsu) := mergeMask n s
        if dsu.setSize = 1 then
          if bitCnt % 2 = 1 then (val.1, val.2 + 1) else (val.1 + 1, val.2)
        else val)
      (0, 0)).1 - ((List.range k).foldl
      (fun (val : ℤ × ℤ) s =>
        let (bitCnt, dsu) := mergeMask n s
        if dsu.setSize = 1 then
          if bitCnt % 2 = 1 then (val.1, val.2 + 1) else (val.1 + 1, val.2)
        else val)
      (0, 0)).2 = ∑ s ∈ Finset.range k with (mergeMask n s).2.setSize = 1, sign m s := by
    intro k hk
    induction k with
    | zero => simp
    | succ k ih =>
        have hih := ih (by omega)
        rw [List.range_succ, List.foldl_append, List.foldl_cons, List.foldl_nil, Finset.range_add_one,
          Finset.filter_insert]
        have hsign : sign m k = if (mergeMask n k).1 % 2 = 1 then -1 else 1 := by
          rw [(mergeMask_spec n k).1, ← hm, sign]
          split
          · next hodd => exact Odd.neg_one_pow (Nat.odd_iff.mpr hodd)
          · next heven => exact Even.neg_one_pow (Nat.even_iff.mpr (by omega))
        by_cases hset : (mergeMask n k).2.setSize = 1
        · rw [if_pos hset, Finset.sum_insert (by simp), hsign]
          simp only [hset, if_true]
          split
          · linarith
          · linarith
        · rw [if_neg hset]
          simp only [hset, if_false]
          exact hih
  rw [hbegins _ le_rfl]
  obtain ⟨k, rfl⟩ : ∃ k, n = k + 1 := ⟨n - 1, by omega⟩
  exact sum_sign_eq (descFactorial_eq (k + 1))

end

/-! ### The groups -/

/-- The ways to put one more vertex into a group. -/
def nextGroup (x : List ℕ × ℕ) : List (List ℕ × ℕ) :=
  (x.1 ++ [x.2], x.2 + 1) :: (List.range x.2).map fun i => (x.1 ++ [i], x.2)

/-- The ways to put the first vertices into groups, with the number of the groups. -/
def assignments : ℕ → List (List ℕ × ℕ)
  | 0 => [([], 0)]
  | k + 1 => (assignments k).flatMap nextGroup

/-- Every vertex is in one of the groups, and every group has a vertex. -/
structure Assigns (k : ℕ) (x : List ℕ × ℕ) : Prop where
  length : x.1.length = k
  lt : ∀ a ∈ x.1, a < x.2
  mem : ∀ i < x.2, i ∈ x.1

/-- The vertices of a group. -/
def groupBlock (k : ℕ) (id : List ℕ) (i : ℕ) : Finset ℕ := {j ∈ Finset.range k | id.getD j 0 = i}

section

variable {k num i cnt : ℕ} {x : List ℕ × ℕ} {id : List ℕ}

/-- A search in depth is a search level by level. -/
theorem iterate_flatMap {α : Type} (next : α → List α) (k : ℕ) (l : List α) :
    (fun l => l.flatMap next)^[k] l = l.flatMap fun x => (fun l => l.flatMap next)^[k] [x] := by
  induction k generalizing l with
  | zero => simp
  | succ k ih =>
      rw [Function.iterate_succ_apply, ih, List.flatMap_assoc]
      apply List.flatMap_congr
      intro x _
      rw [Function.iterate_succ_apply, List.flatMap_singleton, ← ih]

theorem getInExclusionOptimizeGroup_eq (masks : List (ℤ × ℤ)) (num left : ℕ) (x : List ℕ × ℕ) :
    getInExclusionOptimizeGroup masks num left x.1 x.2
      = ((fun l => l.flatMap nextGroup)^[left] [x]).map fun x => (groupOf num x.1 x.2, groupVal masks x.1 x.2) := by
  induction left generalizing x with
  | zero => rfl
  | succ left ih =>
      have hnew := ih (x.1 ++ [x.2], x.2 + 1)
      have hold : ∀ i, getInExclusionOptimizeGroup masks num left (x.1 ++ [i]) x.2 = _ :=
        fun i => ih (x.1 ++ [i], x.2)
      rw [Function.iterate_succ_apply, List.flatMap_singleton, iterate_flatMap, nextGroup, List.flatMap_cons,
        List.map_append, List.flatMap_map, List.map_flatMap, getInExclusionOptimizeGroup]
      simp only [hnew, hold]

theorem assignments_eq (k : ℕ) : assignments k = (fun l => l.flatMap nextGroup)^[k] [([], 0)] := by
  induction k with
  | zero => rfl
  | succ k ih => rw [assignments, ih, Function.iterate_succ_apply']

/-- The counts for each size, as long as the masks fit an `int`. -/
theorem masks_spec (hnum : num ≤ 8) : ∃ masks, (List.range' 1 num).mapM connectedMasks = some masks
    ∧ masks.length = num
    ∧ ∀ n < num, (masks.getD n (0, 0)).1 - (masks.getD n (0, 0)).2 = coefficient (n + 1) := by
  induction num with
  | zero => exact ⟨[], rfl, rfl, fun n hn => absurd hn (Nat.not_lt_zero n)⟩
  | succ num ih =>
      obtain ⟨masks, hmasks, hlength, hall⟩ := ih (by omega)
      obtain ⟨val, hval, hsub⟩ := connectedMasks_sub (Nat.succ_pos num) hnum
      refine ⟨masks ++ [val], ?_, by simp [hlength], fun n hn => ?_⟩
      · rw [List.range'_1_concat, List.mapM_append, hmasks, add_comm, List.mapM_cons, hval]
        rfl
      · rcases Nat.lt_succ_iff_lt_or_eq.mp hn with hlt | rfl
        · rw [List.getD_append _ _ _ _ (by omega)]
          exact hall n hlt
        · rw [List.getD_append_right _ _ _ _ hlength.le, hlength, Nat.sub_self]
          exact hsub

/-- The ninth mask does not fit. -/
theorem masks_none (hnum : 8 < num) : (List.range' 1 num).mapM connectedMasks = none := by
  have hninth : connectedMasks 9 = none := rfl
  obtain ⟨rest, rfl⟩ : ∃ rest, num = 9 + rest := ⟨num - 9, by omega⟩
  have hsplit : List.range' 1 (9 + rest) = List.range' 1 8 ++ 9 :: List.range' 10 rest := by
    rw [← List.range'_append_1, List.range'_concat]
    simp
  obtain ⟨masks, hmasks, -⟩ := masks_spec (le_refl 8)
  rw [hsplit, List.mapM_append, hmasks, List.mapM_cons, hninth]
  rfl

theorem initInExclusionOptimize_eq {masks : List (ℤ × ℤ)} (hpos : 0 < num)
    (hmasks : (List.range' 1 num).mapM connectedMasks = some masks) : initInExclusionOptimize num
    = some ((assignments num).map fun x => groupOf num x.1 x.2,
      (assignments num).map fun x => groupVal masks x.1 x.2) := by
  have hgroups := getInExclusionOptimizeGroup_eq masks num num ([], 0)
  rw [← assignments_eq] at hgroups
  rw [initInExclusionOptimize, if_neg hpos.ne', hmasks]
  simp only [Option.bind_eq_bind, Option.bind_some]
  rw [hgroups, List.unzip_eq_map, List.map_map, List.map_map]
  rfl

theorem assigns_of_mem (hx : x ∈ assignments k) : Assigns k x := by
  induction k generalizing x with
  | zero =>
      rw [assignments, List.mem_singleton] at hx
      rw [hx]
      constructor <;> simp
  | succ k ih =>
      obtain ⟨y, hy, hin⟩ := List.mem_flatMap.mp hx
      obtain ⟨hlength, hlt, hmem⟩ := ih hy
      rcases List.mem_cons.mp hin with rfl | hin
      · refine ⟨by simp [hlength], fun a ha => ?_, fun i hi => ?_⟩
        · rcases List.mem_append.mp ha with ha | ha
          · exact (hlt a ha).trans (Nat.lt_succ_self _)
          · rw [List.mem_singleton.mp ha]
            exact Nat.lt_succ_self _
        · rcases Nat.lt_succ_iff_lt_or_eq.mp hi with hi | rfl
          · exact List.mem_append_left _ (hmem i hi)
          · exact List.mem_append_right _ (List.mem_singleton_self _)
      · obtain ⟨j, hj, rfl⟩ := List.mem_map.mp hin
        refine ⟨by simp [hlength], fun a ha => ?_, fun i hi => List.mem_append_left _ (hmem i hi)⟩
        rcases List.mem_append.mp ha with ha | ha
        · exact hlt a ha
        · rw [List.mem_singleton.mp ha]
          exact List.mem_range.mp hj

theorem toFinset_group (k : ℕ) (id : List ℕ) (i : ℕ) :
    ((List.range k).filter fun j => id.getD j 0 = i).toFinset = groupBlock k id i := by
  ext j
  simp [groupBlock]

theorem mem_blocks_groupOf {B : Finset ℕ} :
    B ∈ blocks (groupOf k id cnt) ↔ ∃ i < cnt, groupBlock k id i = B := by
  rw [blocks, List.mem_toFinset, groupOf, List.map_map, List.mem_map]
  simp only [List.mem_range, Function.comp_apply, toFinset_group]

theorem groupBlock_append (hlength : id.length = k) (a i : ℕ) :
    groupBlock (k + 1) (id ++ [a]) i = if a = i then insert k (groupBlock k id i) else groupBlock k id i := by
  have hlast : (id ++ [a]).getD k 0 = a := by
    rw [List.getD_append_right _ _ _ _ hlength.le, hlength]
    simp
  have hfirst : ∀ j < k, (id ++ [a]).getD j 0 = id.getD j 0 := fun j hj =>
    List.getD_append _ _ _ _ (by omega)
  ext j
  rw [groupBlock, Finset.mem_filter, Finset.mem_range, Nat.lt_succ_iff_lt_or_eq]
  by_cases hai : a = i
  · rw [if_pos hai, Finset.mem_insert, groupBlock, Finset.mem_filter, Finset.mem_range]
    constructor
    · rintro ⟨hj | rfl, hid⟩
      · exact Or.inr ⟨hj, hfirst j hj ▸ hid⟩
      · exact Or.inl rfl
    · rintro (rfl | ⟨hj, hid⟩)
      · exact ⟨Or.inr rfl, hlast.trans hai⟩
      · exact ⟨Or.inl hj, (hfirst j hj).trans hid⟩
  · rw [if_neg hai, groupBlock, Finset.mem_filter, Finset.mem_range]
    constructor
    · rintro ⟨hj | rfl, hid⟩
      · exact ⟨hj, hfirst j hj ▸ hid⟩
      · exact absurd (hlast.symm.trans hid) hai
    · rintro ⟨hj, hid⟩
      exact ⟨Or.inl hj, (hfirst j hj).trans hid⟩

namespace Assigns

theorem groupBlock_nonempty (h : Assigns k (id, cnt)) (hi : i < cnt) : (groupBlock k id i).Nonempty := by
  obtain ⟨j, hj, hid⟩ := List.getElem_of_mem (h.mem i hi)
  have hlength : id.length = k := h.length
  refine ⟨j, Finset.mem_filter.mpr ⟨Finset.mem_range.mpr (hlength ▸ hj), ?_⟩⟩
  rw [List.getD_eq_getElem _ _ hj, hid]

theorem groupBlock_inj (h : Assigns k (id, cnt)) {i' : ℕ} (hi : i < cnt)
    (heq : groupBlock k id i = groupBlock k id i') : i = i' := by
  obtain ⟨j, hj⟩ := h.groupBlock_nonempty hi
  have hj' := hj
  rw [heq] at hj'
  exact (Finset.mem_filter.mp hj).2.symm.trans (Finset.mem_filter.mp hj').2

theorem isPartition (h : Assigns k (id, cnt)) : IsPartition k (blocks (groupOf k id cnt)) := by
  have hlength : id.length = k := h.length
  constructor
  · intro hempty
    obtain ⟨i, hi, heq⟩ := mem_blocks_groupOf.mp hempty
    exact (h.groupBlock_nonempty hi).ne_empty heq
  · intro j
    constructor
    · rintro ⟨B, hB, hj⟩
      obtain ⟨i, -, rfl⟩ := mem_blocks_groupOf.mp hB
      exact Finset.mem_range.mp (Finset.mem_filter.mp hj).1
    · intro hj
      have hmem : id.getD j 0 ∈ id := by
        rw [List.getD_eq_getElem _ _ (by omega)]
        exact List.getElem_mem _
      refine ⟨_, mem_blocks_groupOf.mpr ⟨_, h.lt _ hmem, rfl⟩, ?_⟩
      exact Finset.mem_filter.mpr ⟨Finset.mem_range.mpr hj, rfl⟩
  · intro B hB B' hB' j hj hj'
    obtain ⟨i, -, rfl⟩ := mem_blocks_groupOf.mp hB
    obtain ⟨i', -, rfl⟩ := mem_blocks_groupOf.mp hB'
    rw [← (Finset.mem_filter.mp hj).2, ← (Finset.mem_filter.mp hj').2]

/-- The next vertex begins a group. -/
theorem blocks_alone (h : Assigns k (id, cnt)) :
    blocks (groupOf (k + 1) (id ++ [cnt]) (cnt + 1)) = alone k (blocks (groupOf k id cnt)) := by
  have hempty : groupBlock k id cnt = ∅ := by
    apply Finset.eq_empty_of_forall_notMem
    intro j hj
    obtain ⟨hlt, hid⟩ := Finset.mem_filter.mp hj
    have hlength : id.length = k := h.length
    have hlt' := h.lt (id.getD j 0) (by
      rw [List.getD_eq_getElem _ _ (hlength ▸ Finset.mem_range.mp hlt)]
      exact List.getElem_mem _)
    exact absurd hid hlt'.ne
  ext B
  rw [alone, Finset.mem_insert, mem_blocks_groupOf, mem_blocks_groupOf]
  constructor
  · rintro ⟨i, hi, rfl⟩
    rw [groupBlock_append h.length]
    rcases Nat.lt_succ_iff_lt_or_eq.mp hi with hlt | rfl
    · rw [if_neg hlt.ne']
      exact Or.inr ⟨i, hlt, rfl⟩
    · rw [if_pos rfl, hempty]
      exact Or.inl rfl
  · rintro (rfl | ⟨i, hi, rfl⟩)
    · refine ⟨cnt, Nat.lt_succ_self cnt, ?_⟩
      rw [groupBlock_append h.length, if_pos rfl, hempty]
      rfl
    · refine ⟨i, hi.trans (Nat.lt_succ_self cnt), ?_⟩
      rw [groupBlock_append h.length, if_neg hi.ne']

/-- The next vertex goes to a group. -/
theorem blocks_join (h : Assigns k (id, cnt)) (hi : i < cnt) :
    blocks (groupOf (k + 1) (id ++ [i]) cnt) = join k (blocks (groupOf k id cnt)) (groupBlock k id i) := by
  ext B
  rw [InclusionExclusion.join, Finset.mem_insert, Finset.mem_erase, mem_blocks_groupOf, mem_blocks_groupOf]
  constructor
  · rintro ⟨i', hi', rfl⟩
    rw [groupBlock_append h.length]
    by_cases heq : i = i'
    · rw [if_pos heq, heq]
      exact Or.inl rfl
    · rw [if_neg heq]
      exact Or.inr ⟨fun hsame => heq (h.groupBlock_inj hi' hsame).symm, i', hi', rfl⟩
  · rintro (rfl | ⟨hne, i', hi', rfl⟩)
    · refine ⟨i, hi, ?_⟩
      rw [groupBlock_append h.length, if_pos rfl]
    · refine ⟨i', hi', ?_⟩
      rw [groupBlock_append h.length, if_neg]
      rintro rfl
      exact hne rfl

theorem lists (h : Assigns k (id, cnt)) : Lists k (groupOf k id cnt) := by
  refine ⟨?_, ?_, h.isPartition⟩
  · rw [groupOf, List.map_map]
    refine List.Nodup.map_on ?_ List.nodup_range
    intro i hi i' _ heq
    simp only [Function.comp_apply, toFinset_group] at heq
    exact h.groupBlock_inj (List.mem_range.mp hi) heq
  · intro block hblock
    obtain ⟨i, -, rfl⟩ := List.mem_map.mp hblock
    exact List.nodup_range.filter _

end Assigns

/-- The partition of the vertices but the last. -/
def withoutLast (k : ℕ) (P : Finset (Finset ℕ)) : Finset (Finset ℕ) :=
  if {k} ∈ P then P.erase {k} else unjoin k P

theorem withoutLast_next {y : List ℕ × ℕ} (h : Assigns k x) (hy : y ∈ nextGroup x) :
    withoutLast k (blocks (groupOf (k + 1) y.1 y.2)) = blocks (groupOf k x.1 x.2) := by
  have hpartition : IsPartition k (blocks (groupOf k x.1 x.2)) := Assigns.isPartition h
  rcases List.mem_cons.mp hy with rfl | hy
  · rw [h.blocks_alone, withoutLast, alone, if_pos (Finset.mem_insert_self _ _)]
    exact Finset.erase_insert hpartition.singleton_notMem
  · obtain ⟨i, hi, rfl⟩ := List.mem_map.mp hy
    have hB : groupBlock k x.1 i ∈ blocks (groupOf k x.1 x.2) :=
      mem_blocks_groupOf.mpr ⟨i, List.mem_range.mp hi, rfl⟩
    rw [h.blocks_join (List.mem_range.mp hi), withoutLast, if_neg (hpartition.last_notMem_join hB),
      hpartition.unjoin_join hB]

/-- No partition is listed twice. -/
theorem nodup_blocks (k : ℕ) : ((assignments k).map fun x => blocks (groupOf k x.1 x.2)).Nodup := by
  induction k with
  | zero => exact List.nodup_singleton _
  | succ k ih =>
      rw [assignments, List.map_flatMap, List.nodup_flatMap]
      constructor
      · intro x hx
        have h := assigns_of_mem hx
        have hpartition : IsPartition k (blocks (groupOf k x.1 x.2)) := Assigns.isPartition h
        have hblock : ∀ i < x.2, groupBlock k x.1 i ∈ blocks (groupOf k x.1 x.2) := fun i hi =>
          mem_blocks_groupOf.mpr ⟨i, hi, rfl⟩
        rw [nextGroup, List.map_cons, List.map_map, List.nodup_cons]
        constructor
        · intro hin
          obtain ⟨i, hi, heq⟩ := List.mem_map.mp hin
          rw [Function.comp_apply, h.blocks_join (List.mem_range.mp hi), h.blocks_alone] at heq
          apply hpartition.last_notMem_join (hblock i (List.mem_range.mp hi))
          rw [heq]
          exact Finset.mem_insert_self _ _
        · refine List.Nodup.map_on ?_ List.nodup_range
          intro i hi i' hi' heq
          have hlt := List.mem_range.mp hi
          have hlt' := List.mem_range.mp hi'
          rw [Function.comp_apply, Function.comp_apply, h.blocks_join hlt, h.blocks_join hlt'] at heq
          have hhome := congrArg (fun P => (home k P).erase k) heq
          simp only [hpartition.home_join (hblock i hlt), hpartition.home_join (hblock i' hlt')] at hhome
          rw [Finset.erase_insert (hpartition.notMem_last (hblock i hlt)),
            Finset.erase_insert (hpartition.notMem_last (hblock i' hlt'))] at hhome
          exact h.groupBlock_inj hlt hhome
      · refine (List.pairwise_map.mp ih).imp_of_mem ?_
        intro x x' hx hx' hne P hP hP'
        obtain ⟨y, hy, rfl⟩ := List.mem_map.mp hP
        obtain ⟨y', hy', heq⟩ := List.mem_map.mp hP'
        apply hne
        rw [← withoutLast_next (assigns_of_mem hx) hy, ← withoutLast_next (assigns_of_mem hx') hy', heq]

/-- Every partition is listed. -/
theorem mem_blocks_of_isPartition {P : Finset (Finset ℕ)} (hP : IsPartition k P) :
    P ∈ (assignments k).map fun x => blocks (groupOf k x.1 x.2) := by
  induction k generalizing P with
  | zero =>
      have hempty : P ∈ partitions 0 := mem_partitions.mpr hP
      rw [partitions_zero, Finset.mem_singleton] at hempty
      rw [hempty]
      exact List.mem_singleton_self _
  | succ k ih =>
      rw [assignments, List.map_flatMap, List.mem_flatMap]
      by_cases hlast : {k} ∈ P
      · obtain ⟨x, hx, heq⟩ := List.mem_map.mp (ih (hP.erase_last hlast))
        refine ⟨x, hx, ?_⟩
        rw [nextGroup, List.map_cons, (assigns_of_mem hx).blocks_alone, heq, alone, Finset.insert_erase hlast]
        exact List.mem_cons_self
      · obtain ⟨x, hx, heq⟩ := List.mem_map.mp (ih (hP.unjoin hlast))
        have hhome : (home k P).erase k ∈ blocks (groupOf k x.1 x.2) := by
          rw [heq]
          exact Finset.mem_insert_self _ _
        obtain ⟨i, hi, hblock⟩ := mem_blocks_groupOf.mp hhome
        refine ⟨x, hx, ?_⟩
        rw [nextGroup, List.map_cons, List.map_map]
        apply List.mem_cons_of_mem
        refine List.mem_map.mpr ⟨i, List.mem_range.mpr hi, ?_⟩
        rw [Function.comp_apply, (assigns_of_mem hx).blocks_join hi, heq, hblock, hP.join_unjoin]

/-- As many places hold a value as it occurs. -/
theorem length_group (hlength : id.length = k) (i : ℕ) :
    ((List.range k).filter fun j => id.getD j 0 = i).length = id.count i := by
  have hid : id = (List.range k).map fun j => id.getD j 0 := by
    refine List.ext_getElem (by simp [hlength]) fun j hj _ => ?_
    simp [hj]
  conv_rhs => rw [hid]
  rw [List.count, List.countP_map, List.countP_eq_length_filter]
  rfl

theorem inExclusionVal_sub {masks : List (ℤ × ℤ)} {size : ℕ} (hsize : 0 < size)
    (hsub : (masks.getD (size - 1) (0, 0)).1 - (masks.getD (size - 1) (0, 0)).2 = coefficient size) :
    inExclusionVal masks (size * 2 - 2) - inExclusionVal masks (size * 2 - 1) = coefficient size := by
  have heven : (size * 2 - 2) / 2 = size - 1 ∧ (size * 2 - 2) % 2 = 0 := by omega
  have hodd : (size * 2 - 1) / 2 = size - 1 ∧ (size * 2 - 1) % 2 = 1 := by omega
  rw [inExclusionVal, inExclusionVal, heven.1, hodd.1, if_pos heven.2, if_neg (by omega)]
  exact hsub

/-- The difference of the products is the product of the differences. -/
theorem groupVal_eq {masks : List (ℤ × ℤ)} (h : Assigns k (id, cnt)) (hk : 0 < k)
    (hmasks : ∀ n < k, (masks.getD n (0, 0)).1 - (masks.getD n (0, 0)).2 = coefficient (n + 1)) :
    groupVal masks id cnt = ((groupOf k id cnt).map fun block => coefficient block.length).prod := by
  have hpos : ∀ i < cnt, 0 < id.count i := fun i hi => List.count_pos_iff.mpr (h.mem i hi)
  have hcnt : 0 < cnt := by
    obtain ⟨a, ha⟩ : ∃ a, a ∈ id := List.exists_mem_of_length_pos (h.length.symm ▸ hk)
    exact (Nat.zero_le a).trans_lt (h.lt a ha)
  have hsub : ∀ i < cnt, inExclusionVal masks (id.count i * 2 - 2) - inExclusionVal masks (id.count i * 2 - 1)
      = coefficient (id.count i) := by
    intro i hi
    have hcount : id.count i ≤ k := h.length ▸ List.count_le_length
    have hone := hpos i hi
    have hsucc := hmasks (id.count i - 1) (by omega)
    rw [Nat.sub_add_cancel hone] at hsucc
    exact inExclusionVal_sub hone hsucc
  have hfold : ∀ (l : List ℕ), (∀ i ∈ l, i < cnt) → ∀ val : ℤ × ℤ,
      (l.foldl (fun (val : ℤ × ℤ) i =>
        (val.1 * inExclusionVal masks (id.count i * 2 - 2) + val.2 * inExclusionVal masks (id.count i * 2 - 1),
          val.1 * inExclusionVal masks (id.count i * 2 - 1)
            + val.2 * inExclusionVal masks (id.count i * 2 - 2))) val).1
      - (l.foldl (fun (val : ℤ × ℤ) i =>
        (val.1 * inExclusionVal masks (id.count i * 2 - 2) + val.2 * inExclusionVal masks (id.count i * 2 - 1),
          val.1 * inExclusionVal masks (id.count i * 2 - 1)
            + val.2 * inExclusionVal masks (id.count i * 2 - 2))) val).2
      = (val.1 - val.2) * (l.map fun i => coefficient (id.count i)).prod := by
    intro l
    induction l with
    | nil => simp
    | cons i l ih =>
        intro hl val
        rw [List.foldl_cons, ih (fun i' hi' => hl i' (List.mem_cons_of_mem i hi')), List.map_cons, List.prod_cons,
          ← hsub i (hl i List.mem_cons_self)]
        ring
  have hrange : List.range cnt = 0 :: List.range' 1 (cnt - 1) := by
    obtain ⟨c, rfl⟩ : ∃ c, cnt = c + 1 := ⟨cnt - 1, by omega⟩
    rw [List.range_eq_range', List.range'_succ]
    rfl
  have hblocks : (groupOf k id cnt).map (fun block => coefficient block.length)
      = (List.range cnt).map fun i => coefficient (id.count i) := by
    rw [groupOf, List.map_map]
    apply List.map_congr_left
    intro i _
    rw [Function.comp_apply, length_group h.length]
  rw [hblocks, groupVal, hfold _ (fun i hi => by
    have hi := List.mem_range'_1.mp hi
    omega), hrange, List.map_cons, List.prod_cons, hsub 0 hcnt]

end

/-- Every partition of the last vertices is listed once, with its coefficient. -/
theorem coefficients_init {num : ℕ} (hnum : 0 < num) (hmost : num ≤ 8) :
    ∃ groups, initInExclusionOptimize num = some groups ∧ Coefficients num groups.2 groups.1 := by
  obtain ⟨masks, hmasks, -, hsub⟩ := masks_spec hmost
  refine ⟨_, initInExclusionOptimize_eq hnum hmasks, ?_⟩
  constructor
  · intro group hgroup
    obtain ⟨x, hx, rfl⟩ := List.mem_map.mp hgroup
    exact Assigns.lists (assigns_of_mem hx)
  · rw [List.map_map]
    exact nodup_blocks num
  · intro P hP
    rw [List.map_map]
    exact mem_blocks_of_isPartition hP
  · intro i hi
    rw [List.length_map] at hi
    rw [List.getD_eq_getElem _ _ (by simpa using hi), List.getD_eq_getElem _ _ (by simpa using hi),
      List.getElem_map, List.getElem_map]
    exact groupVal_eq (assigns_of_mem (List.getElem_mem hi)) hnum hsub

/-- With more than eight last vertices the loop bound is none that an `int` can hold. -/
theorem initInExclusionOptimize_none {num : ℕ} (hmany : 8 < num) : initInExclusionOptimize num = none := by
  rw [initInExclusionOptimize, if_neg (by omega), masks_none hmany]
  rfl

/-- The sizes of the groups' common sets, with the values of the groups, count the tuples of distinct vertices. -/
theorem groups_count_tuples {α : Type*} [DecidableEq α] (C : ℕ → Finset α) (num : ℕ) (hnum : 0 < num)
    (hmost : num ≤ 8) :
    ∃ groups, initInExclusionOptimize num = some groups ∧ amount C groups.2 groups.1 = (tuples C num).card := by
  obtain ⟨groups, hinit, hcoefficients⟩ := coefficients_init hnum hmost
  exact ⟨groups, hinit, amount_eq hcoefficients⟩

/-- Three distinct vertices of three sets that grow. -/
theorem groups_count_tuples_three : amount (fun j => Finset.range (j + 2)) [1, -1, -1, -1, 2]
    [[[0], [1], [2]], [[0, 2], [1]], [[0], [1, 2]], [[0, 1], [2]], [[0, 1, 2]]]
      = (tuples (fun j => Finset.range (j + 2)) 3).card := by
  have hinit : initInExclusionOptimize 3
      = some ([[[0], [1], [2]], [[0, 2], [1]], [[0], [1, 2]], [[0, 1], [2]], [[0, 1, 2]]], [1, -1, -1, -1, 2]) := by
    decide +kernel
  obtain ⟨groups, hgroups, hcount⟩ := groups_count_tuples (fun j => Finset.range (j + 2)) 3 (by decide) (by decide)
  obtain rfl := Option.some.inj (hinit.symm.trans hgroups)
  exact hcount

end GraphPi

end GraphMini
