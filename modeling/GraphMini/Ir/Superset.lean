import GraphMini.Ir.PlanIR

/-!
# Supersets, prefixes and siblings

The set of a later depth is computed from one that contains it. The candidates are the prefix of the
set at an earlier depth, and the sibling that lacks the restriction at the set's own depth. On sets
whose bits lie at or below their depth the comparisons of `ir.cpp` find exactly these.
-/

namespace GraphMini

namespace VertexSetIR

/-- No bit lies above the loop depth, as the constructor leaves it. -/
structure Bounded (v : VertexSetIR) : Prop where
  edges_le : ∀ i ∈ v.edges, i ≤ v.loopDepth
  restricts_le : ∀ i ∈ v.restricts, i ≤ v.loopDepth

/-- The part of a set that is known at an earlier depth. -/
def prefixAt (v : VertexSetIR) (dep : ℕ) : VertexSetIR := cut v.edges v.restricts dep

/-- The set without the restriction at its own depth. -/
def unrestricted (v : VertexSetIR) : VertexSetIR :=
  { v with restricts := v.restricts.erase v.loopDepth }

variable {t : AdjMatType} {l r u v : VertexSetIR} {dep : ℕ}

theorem cut_bounded (edges restricts : Finset ℕ) (dep : ℕ) : (cut edges restricts dep).Bounded :=
  ⟨by simp [cut], by simp [cut]⟩

theorem same_iff :
    l.same r = true ↔ l.edges = r.edges ∧ l.restricts = r.restricts ∧ l.loopDepth = r.loopDepth := by
  simp [same, and_assoc]

theorem same_refl (v : VertexSetIR) : v.same v = true := same_iff.mpr ⟨rfl, rfl, rfl⟩

theorem same_symm (h : l.same r = true) : r.same l = true := by
  obtain ⟨he, hr, hd⟩ := same_iff.mp h
  exact same_iff.mpr ⟨he.symm, hr.symm, hd.symm⟩

theorem same_trans (h : l.same r = true) (h' : r.same u = true) : l.same u = true := by
  obtain ⟨he, hr, hd⟩ := same_iff.mp h
  obtain ⟨he', hr', hd'⟩ := same_iff.mp h'
  exact same_iff.mpr ⟨he.trans he', hr.trans hr', hd.trans hd'⟩

/-- Sets with one id and the same contents are one set. -/
theorem eq_of_same (h : l.same r = true) (hid : l.id = r.id) : l = r := by
  obtain ⟨he, hr, hd⟩ := same_iff.mp h
  cases l
  cases r
  simp_all

theorem isSupersetOf_iff :
    l.isSupersetOf t r = true ↔ l.loopDepth ≤ r.loopDepth ∧ ∀ i ≤ l.loopDepth,
      (i ∈ l.edges → i ∈ r.edges) ∧ (t = .vertexInduced → i ∈ r.edges → i ∈ l.edges)
        ∧ (i ∈ l.restricts → i ∈ r.restricts) := by
  unfold isSupersetOf
  by_cases hdep : l.loopDepth ≤ r.loopDepth
  · simp only [not_lt.mpr hdep, if_false, List.all_eq_true, List.mem_range,
      Nat.lt_succ_iff, hdep, true_and]
    refine forall_congr' fun i => imp_congr_right fun _ => ?_
    by_cases ht : t = .vertexInduced
    · by_cases h₁ : i ∈ l.edges <;> by_cases h₂ : i ∈ r.edges <;>
        simp [ht, isEdge, isRestricted, h₁, h₂]
      all_goals tauto
    · by_cases h₁ : i ∈ l.edges <;> by_cases h₂ : i ∈ r.edges <;>
        simp [ht, isEdge, isRestricted, h₁, h₂]
      all_goals tauto
  · simp [hdep, not_le.mp hdep]

theorem isSupersetOf_refl (v : VertexSetIR) : v.isSupersetOf t v = true :=
  isSupersetOf_iff.mpr ⟨le_rfl, fun _ _ => ⟨fun h => h, fun _ h => h, fun h => h⟩⟩

theorem isSupersetOf_trans (h : l.isSupersetOf t r = true) (h' : r.isSupersetOf t u = true) :
    l.isSupersetOf t u = true := by
  rw [isSupersetOf_iff] at *
  obtain ⟨hdep, hbits⟩ := h
  obtain ⟨hdep', hbits'⟩ := h'
  refine ⟨hdep.trans hdep', fun i hi => ?_⟩
  obtain ⟨hedge, hback, hres⟩ := hbits i hi
  obtain ⟨hedge', hback', hres'⟩ := hbits' i (hi.trans hdep)
  exact ⟨hedge' ∘ hedge, fun ht hu => hback ht (hback' ht hu), hres' ∘ hres⟩

/-- At one depth the relation is antisymmetric. -/
theorem same_of_isSupersetOf (hl : l.Bounded) (hr : r.Bounded) (hdep : l.loopDepth = r.loopDepth)
    (h : l.isSupersetOf t r = true) (h' : r.isSupersetOf t l = true) : l.same r = true := by
  obtain ⟨-, hbits⟩ := isSupersetOf_iff.mp h
  obtain ⟨-, hbits'⟩ := isSupersetOf_iff.mp h'
  refine same_iff.mpr ⟨?_, ?_, hdep⟩
  · ext i
    exact ⟨fun hi => (hbits i (hl.edges_le i hi)).1 hi,
      fun hi => (hbits' i (hr.edges_le i hi)).1 hi⟩
  · ext i
    exact ⟨fun hi => (hbits i (hl.restricts_le i hi)).2.2 hi,
      fun hi => (hbits' i (hr.restricts_le i hi)).2.2 hi⟩

theorem isSupersetOf_congr_left (h : l.same u = true) :
    l.isSupersetOf t r = u.isSupersetOf t r := by
  obtain ⟨he, hr, hd⟩ := same_iff.mp h
  simp [isSupersetOf, isEdge, isRestricted, he, hr, hd]

theorem isSupersetOf_congr_right (h : r.same u = true) :
    l.isSupersetOf t r = l.isSupersetOf t u := by
  obtain ⟨he, hr, hd⟩ := same_iff.mp h
  simp [isSupersetOf, isEdge, isRestricted, he, hr, hd]

theorem mem_prefixAt_edges {i : ℕ} : i ∈ (v.prefixAt dep).edges ↔ i ∈ v.edges ∧ i ≤ dep := by
  simp [prefixAt, cut]

theorem mem_prefixAt_restricts {i : ℕ} :
    i ∈ (v.prefixAt dep).restricts ↔ i ∈ v.restricts ∧ i ≤ dep := by
  simp [prefixAt, cut]

@[simp] theorem prefixAt_loopDepth : (v.prefixAt dep).loopDepth = dep := rfl

theorem prefixAt_bounded : (v.prefixAt dep).Bounded := cut_bounded _ _ _

/-- A prefix is a superset. -/
theorem prefixAt_isSupersetOf (hdep : dep ≤ v.loopDepth) :
    (v.prefixAt dep).isSupersetOf t v = true := by
  refine isSupersetOf_iff.mpr ⟨hdep, fun i hi => ⟨?_, ?_, ?_⟩⟩
  · exact fun h => (mem_prefixAt_edges.mp h).1
  · exact fun _ h => mem_prefixAt_edges.mpr ⟨h, hi⟩
  · exact fun h => (mem_prefixAt_restricts.mp h).1

/-- A superset at a depth contains the prefix of that depth. -/
theorem isSupersetOf_prefixAt (hu : u.loopDepth = dep) :
    u.isSupersetOf t v = true → u.isSupersetOf t (v.prefixAt dep) = true := by
  intro h
  obtain ⟨-, hbits⟩ := isSupersetOf_iff.mp h
  refine isSupersetOf_iff.mpr ⟨hu.le, fun i hi => ?_⟩
  obtain ⟨hedge, hback, hres⟩ := hbits i hi
  refine ⟨?_, ?_, ?_⟩
  · exact fun h => mem_prefixAt_edges.mpr ⟨hedge h, hu ▸ hi⟩
  · exact fun ht h => hback ht (mem_prefixAt_edges.mp h).1
  · exact fun h => mem_prefixAt_restricts.mpr ⟨hres h, hu ▸ hi⟩

/-- Between a set and its prefix at a depth there is nothing else of that depth. -/
theorem same_prefixAt (hu : u.Bounded) (hdep : u.loopDepth = dep)
    (h : u.isSupersetOf t v = true) (h' : (v.prefixAt dep).isSupersetOf t u = true) :
    u.same (v.prefixAt dep) = true :=
  same_of_isSupersetOf hu prefixAt_bounded hdep (isSupersetOf_prefixAt hdep h) h'

/-- A set that is restricted at its own depth is cut from the sibling that is not. -/
theorem same_unrestricted_iff (hl : l.Bounded)
    (hdep : l.loopDepth = r.loopDepth) (hmem : r.loopDepth ∈ r.restricts) :
    l.same r.unrestricted = true ↔
      l.isSupersetOf t r = true ∧ l.edgeNum = r.edgeNum ∧ r.restrictNum = l.restrictNum + 1
        ∧ r.loopDepth ∉ l.restricts := by
  have hcard : (r.restricts.erase r.loopDepth).card + 1 = r.restricts.card :=
    Finset.card_erase_add_one hmem
  constructor
  · intro h
    obtain ⟨he, hres, -⟩ := same_iff.mp h
    simp only [unrestricted] at he hres
    refine ⟨isSupersetOf_iff.mpr ⟨hdep.le, fun i _ => ⟨?_, ?_, ?_⟩⟩, ?_, ?_, ?_⟩
    · exact fun h => he ▸ h
    · exact fun _ h => he ▸ h
    · exact fun h => Finset.mem_of_mem_erase (hres ▸ h)
    · rw [edgeNum, edgeNum, he]
    · rw [restrictNum, restrictNum, hres, hcard]
    · rw [hres]
      exact Finset.notMem_erase _ _
  · rintro ⟨hsup, hedge, hnum, hnot⟩
    obtain ⟨-, hbits⟩ := isSupersetOf_iff.mp hsup
    refine same_iff.mpr ⟨?_, ?_, hdep⟩
    · refine Finset.eq_of_subset_of_card_le ?_ hedge.ge
      exact fun i hi => (hbits i (hl.edges_le i hi)).1 hi
    · refine Finset.eq_of_subset_of_card_le ?_ ?_
      · intro i hi
        refine Finset.mem_erase.mpr ⟨?_, (hbits i (hl.restricts_le i hi)).2.2 hi⟩
        rintro rfl
        exact hnot hi
      · simp only [unrestricted]
        simp only [restrictNum] at hnum
        omega

end VertexSetIR

namespace PlanIR

open VertexSetIR

variable {plan : PlanIR}

/-- The step of `get_parent_vset(vset, dep)`. -/
def parentStep (t : AdjMatType) (vset : VertexSetIR) (out : Option VertexSetIR) (op : VertexSetIR) :
    Option VertexSetIR :=
  if op.isSupersetOf t vset && op.id != vset.id && out.all (fun o => o.isSupersetOf t op) then some op
  else out

/-- Once the prefix has been found, only copies of it replace it. -/
theorem foldl_parentStep_of_same {t : AdjMatType} {vset : VertexSetIR} {dep : ℕ}
    {ops : List VertexSetIR} (hops : ∀ op ∈ ops, op.loopDepth = dep ∧ op.Bounded)
    {u : VertexSetIR} (hu : u.same (vset.prefixAt dep) = true) :
    ∃ u', ops.foldl (parentStep t vset) (some u) = some u' ∧ u'.same (vset.prefixAt dep) = true
      ∧ (u' = u ∨ u' ∈ ops) := by
  induction ops generalizing u with
  | nil => exact ⟨u, rfl, hu, Or.inl rfl⟩
  | cons op ops ih =>
      have hrest : ∀ o ∈ ops, o.loopDepth = dep ∧ o.Bounded :=
        fun o ho => hops o (List.mem_cons_of_mem _ ho)
      obtain ⟨hdep, hbounded⟩ := hops op List.mem_cons_self
      by_cases htest : (op.isSupersetOf t vset && op.id != vset.id
          && (some u).all (fun o => o.isSupersetOf t op)) = true
      · have hstep : parentStep t vset (some u) op = some op := if_pos htest
        simp only [Bool.and_eq_true, Option.all_some] at htest
        have hsame : op.same (vset.prefixAt dep) = true :=
          same_prefixAt hbounded hdep htest.1.1 (isSupersetOf_congr_left hu ▸ htest.2)
        obtain ⟨u', hfold, hu', hmem⟩ := ih hrest hsame
        refine ⟨u', by rw [List.foldl_cons, hstep, hfold], hu', Or.inr ?_⟩
        rcases hmem with rfl | hmem
        · exact List.mem_cons_self
        · exact List.mem_cons_of_mem _ hmem
      · have hstep : parentStep t vset (some u) op = some u := if_neg htest
        obtain ⟨u', hfold, hu', hmem⟩ := ih hrest hu
        exact ⟨u', by rw [List.foldl_cons, hstep, hfold], hu',
          hmem.imp_right (List.mem_cons_of_mem _)⟩

/-- The prefix is found wherever it stands among the operations of its depth. -/
theorem foldl_parentStep {t : AdjMatType} {vset : VertexSetIR} {dep : ℕ} {ops : List VertexSetIR}
    (hops : ∀ op ∈ ops, op.loopDepth = dep ∧ op.Bounded) (hid : ∀ op ∈ ops, op.id ≠ vset.id)
    (hle : dep ≤ vset.loopDepth) (hfound : ∃ op ∈ ops, op.same (vset.prefixAt dep) = true)
    {out : Option VertexSetIR}
    (hout : ∀ o, out = some o → o.loopDepth = dep ∧ o.isSupersetOf t vset = true) :
    ∃ u ∈ ops, ops.foldl (parentStep t vset) out = some u ∧ u.same (vset.prefixAt dep) = true := by
  induction ops generalizing out with
  | nil => simp at hfound
  | cons op ops ih =>
      have hrest : ∀ o ∈ ops, o.loopDepth = dep ∧ o.Bounded :=
        fun o ho => hops o (List.mem_cons_of_mem _ ho)
      by_cases hsame : op.same (vset.prefixAt dep) = true
      · -- the prefix itself is taken, whatever stands in `out`
        have hsup : op.isSupersetOf t vset = true :=
          isSupersetOf_congr_left hsame ▸ prefixAt_isSupersetOf hle
        have hall : out.all (fun o => o.isSupersetOf t op) = true := by
          cases out with
          | none => rfl
          | some o =>
              obtain ⟨hdep, ho⟩ := hout o rfl
              simpa [isSupersetOf_congr_right hsame] using isSupersetOf_prefixAt hdep ho
        have hne : (op.id != vset.id) = true := by simpa using hid op List.mem_cons_self
        have hstep : parentStep t vset out op = some op := by simp [parentStep, hsup, hall, hne]
        obtain ⟨u, hfold, hu, hmem⟩ := foldl_parentStep_of_same (t := t) hrest hsame
        refine ⟨u, ?_, by rw [List.foldl_cons, hstep, hfold], hu⟩
        rcases hmem with rfl | hmem
        · exact List.mem_cons_self
        · exact List.mem_cons_of_mem _ hmem
      · have hfound' : ∃ o ∈ ops, o.same (vset.prefixAt dep) = true := by
          obtain ⟨o, ho, hsame'⟩ := hfound
          rcases List.mem_cons.mp ho with rfl | ho
          · exact absurd hsame' hsame
          · exact ⟨o, ho, hsame'⟩
        have hout' : ∀ o, parentStep t vset out op = some o
            → o.loopDepth = dep ∧ o.isSupersetOf t vset = true := by
          intro o ho
          unfold parentStep at ho
          split at ho
          · rename_i htest
            obtain rfl : op = o := by simpa using ho
            simp only [Bool.and_eq_true] at htest
            exact ⟨(hops op List.mem_cons_self).1, htest.1.1⟩
          · exact hout o ho
        obtain ⟨u, hmem, hfold, hu⟩ :=
          ih hrest (fun o ho => hid o (List.mem_cons_of_mem _ ho)) hfound' hout'
        exact ⟨u, List.mem_cons_of_mem _ hmem, by rw [List.foldl_cons, hfold], hu⟩

/-- Without a superset nothing is found. -/
theorem foldl_parentStep_eq_none {t : AdjMatType} {vset : VertexSetIR} {ops : List VertexSetIR}
    (h : ∀ op ∈ ops, op.isSupersetOf t vset = false) :
    ops.foldl (parentStep t vset) none = none := by
  induction ops with
  | nil => rfl
  | cons op ops ih =>
      have hstep : parentStep t vset none op = none := by
        simp [parentStep, h op List.mem_cons_self]
      rw [List.foldl_cons, hstep, ih fun o ho => h o (List.mem_cons_of_mem _ ho)]

theorem getParentVsetAt_eq (vset : VertexSetIR) (dep : ℕ) :
    plan.getParentVsetAt vset dep
      = if 0 < vset.loopDepth then (plan.ops dep).foldl (parentStep plan.adjMatType vset) none
        else none := rfl

end PlanIR

end GraphMini
