import GraphMini.Codegen.Closure
import GraphMini.Ir.Superset
import Mathlib.Data.List.GetD

/-!
# The operations of a plan

The sets of one depth are sorted, rid of duplicates and numbered. What the later passes need of the
sort is small: it permutes, and it puts a set after the sibling it is cut from.
-/

namespace GraphMini

open VertexSetIR StdAlgorithm

/-- A set comes after the sibling it is cut from, where the list has that sibling. -/
def SiblingFirst (l : List VertexSetIR) : Prop :=
  ∀ l₁ v l₂, l = l₁ ++ v :: l₂ → v.loopDepth ∈ v.restricts →
    (∃ u ∈ l, u.same v.unrestricted = true) → ∃ u ∈ l₁, u.same v.unrestricted = true

/-- A set without its number. -/
def clearId (v : VertexSetIR) : VertexSetIR := { v with id := -1 }

theorem SiblingFirst.of_map_clearId {l : List VertexSetIR} (h : SiblingFirst (l.map clearId)) :
    SiblingFirst l := by
  intro l₁ v l₂ hsplit hmem ⟨u, hu, hsame⟩
  obtain ⟨w, hw, hwsame⟩ := h (l₁.map clearId) (clearId v) (l₂.map clearId)
    (by rw [hsplit, List.map_append, List.map_cons]) hmem
    ⟨clearId u, List.mem_map_of_mem hu, hsame⟩
  obtain ⟨w', hw', rfl⟩ := List.mem_map.mp hw
  exact ⟨w', hw', hwsame⟩

/-- An order in which restrictions do not go down puts a set after its sibling. -/
theorem siblingFirst_of_pairwise {l : List VertexSetIR}
    (h : l.Pairwise fun u v => u.restrictNum ≤ v.restrictNum) : SiblingFirst l := by
  rintro l₁ v l₂ rfl hmem ⟨u, hu, hsame⟩
  have hlt : u.restrictNum < v.restrictNum := by
    rw [restrictNum, (same_iff.mp hsame).2.1]
    exact Finset.card_lt_card (Finset.erase_ssubset hmem)
  rcases List.mem_append.mp hu with hu | hu
  · exact ⟨u, hu, hsame⟩
  · rcases List.mem_cons.mp hu with rfl | hu
    · exact absurd hlt (lt_irrefl _)
    · have := List.rel_of_pairwise_cons (List.pairwise_append.mp h).2.1 hu
      omega

/-! ### Numbers -/

section Number

variable {α : Type} {setId : α → ℤ → α}

theorem numberOps_getD (n : ℕ) (ls : List (List α)) (dep : ℕ) :
    (numberOps setId n ls).getD dep []
      = (ls.getD dep []).mapIdx fun i op =>
          setId op ((n + (ls.take dep).flatten.length + i : ℕ) : ℤ) := by
  induction ls generalizing n dep with
  | nil => simp [numberOps]
  | cons ops rest ih =>
      cases dep with
      | zero => simp [numberOps]
      | succ dep =>
          simp only [numberOps, List.getD_cons_succ, ih, List.take_succ_cons, List.flatten_cons,
            List.length_append, add_assoc]

end Number

/-! ### The plan of a schedule -/

section Plan

variable (sort : List VertexSetIR → List VertexSetIR) (edge restrict : ℕ → Finset ℕ) (pSize : ℕ)

/-- `std::sort` permutes the sets of one depth. -/
def PermutesOps : Prop :=
  ∀ dep < pSize - 1, (sort (candidateOps edge restrict pSize dep)).Perm
    (candidateOps edge restrict pSize dep)

/-- What a plan needs of `std::sort`: it permutes the sets of one depth and puts a set after its
sibling. -/
def SortsOps : Prop :=
  ∀ dep < pSize - 1, (sort (candidateOps edge restrict pSize dep)).Perm
    (candidateOps edge restrict pSize dep) ∧ SiblingFirst (sort (candidateOps edge restrict pSize dep))

/-- The sets of a depth before they are numbered. -/
def rawOps (dep : ℕ) : List VertexSetIR :=
  unique VertexSetIR.same (sort (candidateOps edge restrict pSize dep))

/-- How many sets the depths before `dep` have. -/
def opsBefore (dep : ℕ) : ℕ :=
  (((List.range (pSize - 1)).map (rawOps sort edge restrict pSize)).take dep).flatten.length

variable {sort edge restrict pSize}

theorem SortsOps.permutes (h : SortsOps sort edge restrict pSize) :
    PermutesOps sort edge restrict pSize := fun dep hdep => (h dep hdep).1

/-- Sorting by the number of restrictions is enough. -/
theorem sortsOps_of_restrictNum : SortsOps
    (fun l => l.mergeSort fun u v => decide (u.restrictNum ≤ v.restrictNum))
    edge restrict pSize := by
  refine fun dep _ => ⟨List.mergeSort_perm _ _, siblingFirst_of_pairwise ?_⟩
  refine (List.pairwise_mergeSort ?_ ?_ _).imp fun h => by simpa using h
  · intro u v w huv hvw
    simp only [decide_eq_true_eq] at *
    exact huv.trans hvw
  · intro u v
    simpa using le_total _ _

theorem mem_candidateOps {dep : ℕ} {op : VertexSetIR} :
    op ∈ candidateOps edge restrict pSize dep ↔
      0 < op.edgeNum ∧ ∃ v, dep < v ∧ v < pSize ∧ cut (edge v) (restrict v) dep = op := by
  simp only [candidateOps, List.mem_filter, List.mem_map, List.mem_range'_1, decide_eq_true_eq]
  constructor
  · rintro ⟨⟨v, hv, rfl⟩, hpos⟩
    exact ⟨hpos, v, by omega, by omega, rfl⟩
  · rintro ⟨hpos, v, hlow, hhigh, rfl⟩
    exact ⟨⟨v, by omega, rfl⟩, hpos⟩

theorem eq_of_same_candidateOps {dep : ℕ} {l : List VertexSetIR}
    (hperm : l.Perm (candidateOps edge restrict pSize dep)) :
    ∀ x ∈ l, ∀ y ∈ l, x.same y = true → x = y := by
  intro x hx y hy hsame
  obtain ⟨-, v, -, -, rfl⟩ := mem_candidateOps.mp (hperm.mem_iff.mp hx)
  obtain ⟨-, v', -, -, rfl⟩ := mem_candidateOps.mp (hperm.mem_iff.mp hy)
  exact eq_of_same hsame rfl

section Raw

variable {dep : ℕ} (hdep : dep < pSize - 1)

include hdep

theorem mem_rawOps (hsort : PermutesOps sort edge restrict pSize) {op : VertexSetIR} :
    op ∈ rawOps sort edge restrict pSize dep ↔ op ∈ candidateOps edge restrict pSize dep := by
  have hperm := hsort dep hdep
  rw [rawOps, mem_unique (eq_of_same_candidateOps hperm), hperm.mem_iff]

theorem siblingFirst_rawOps (hsort : SortsOps sort edge restrict pSize) :
    SiblingFirst (rawOps sort edge restrict pSize dep) := by
  obtain ⟨hperm, hfirst⟩ := hsort dep hdep
  have heq := eq_of_same_candidateOps hperm
  intro l₁ v l₂ hsplit hmem hsibling
  obtain ⟨m₁, m₂, hm, hsub⟩ := exists_split_of_unique heq hsplit
  obtain ⟨u, hu, hsame⟩ := hsibling
  obtain ⟨u', hu', hsame'⟩ := hfirst m₁ v m₂ hm hmem ⟨u, (mem_unique heq).mp hu, hsame⟩
  exact ⟨u', hsub u' hu', hsame'⟩

end Raw

/-- Numbering keeps the sets of a depth in order. -/
theorem planOps_getD {dep : ℕ} (hdep : dep < pSize - 1) :
    (planOps sort edge restrict pSize).getD dep []
      = (rawOps sort edge restrict pSize dep).mapIdx fun i op =>
          { op with id := ((opsBefore sort edge restrict pSize dep + i : ℕ) : ℤ) } := by
  rw [planOps, numberOps_getD]
  simp only [Nat.zero_add]
  congr 1
  rw [List.getD_eq_getElem _ _ (by simpa using hdep)]
  simp [rawOps]

theorem planOps_getD_of_le {dep : ℕ} (hdep : pSize - 1 ≤ dep) :
    (planOps sort edge restrict pSize).getD dep [] = [] := by
  rw [planOps, numberOps_getD, List.getD_eq_default _ _ (by simpa using hdep)]
  rfl

variable (sort edge restrict) in
theorem opsBefore_add_le {dep dep' : ℕ} (hlt : dep < dep') (hdep' : dep' < pSize - 1) :
    opsBefore sort edge restrict pSize dep + (rawOps sort edge restrict pSize dep).length
      ≤ opsBefore sort edge restrict pSize dep' := by
  set ls := (List.range (pSize - 1)).map (rawOps sort edge restrict pSize) with hls
  have hget : ls[dep]? = some (rawOps sort edge restrict pSize dep) := by
    simp [hls, List.getElem?_range (show dep < pSize - 1 by omega)]
  have hstep : opsBefore sort edge restrict pSize (dep + 1)
      = opsBefore sort edge restrict pSize dep + (rawOps sort edge restrict pSize dep).length := by
    rw [opsBefore, ← hls, List.take_add_one, hget, List.flatten_append, List.length_append]
    simp [opsBefore, hls]
  rw [← hstep]
  refine List.Sublist.length_le (List.Sublist.flatten ?_)
  exact List.take_sublist_take_left (by omega)

/-- A numbered set is a set of its depth, with the number of its place. -/
theorem mem_planOps_getD {dep : ℕ} {op : VertexSetIR}
    (h : op ∈ (planOps sort edge restrict pSize).getD dep []) :
    dep < pSize - 1 ∧ ∃ i, ∃ hi : i < (rawOps sort edge restrict pSize dep).length,
      op.same (rawOps sort edge restrict pSize dep)[i] = true
        ∧ op.id = ((opsBefore sort edge restrict pSize dep + i : ℕ) : ℤ) := by
  by_cases hdep : dep < pSize - 1
  · rw [planOps_getD hdep, List.mem_mapIdx] at h
    obtain ⟨i, hi, rfl⟩ := h
    exact ⟨hdep, i, hi, same_iff.mpr ⟨rfl, rfl, rfl⟩, rfl⟩
  · rw [planOps_getD_of_le (by omega)] at h
    simp at h

/-- The ids of one depth go up by one. -/
theorem ids_planOps_getD (dep : ℕ) :
    ((planOps sort edge restrict pSize).getD dep []).Pairwise fun u v => u.id < v.id := by
  by_cases hdep : dep < pSize - 1
  · rw [planOps_getD hdep, List.pairwise_iff_getElem]
    intro i j hi hj hlt
    simp only [List.getElem_mapIdx]
    exact_mod_cast by omega
  · rw [planOps_getD_of_le (by omega)]
    exact List.Pairwise.nil

/-- Forgetting the numbers gives the sets back. -/
theorem map_clearId_planOps (hsort : PermutesOps sort edge restrict pSize) {dep : ℕ}
    (hdep : dep < pSize - 1) :
    ((planOps sort edge restrict pSize).getD dep []).map clearId
      = rawOps sort edge restrict pSize dep := by
  rw [planOps_getD hdep]
  refine List.ext_getElem (by simp) fun i hi hi' => ?_
  obtain ⟨-, v, -, -, hv⟩ :=
    mem_candidateOps.mp ((mem_rawOps hdep hsort).mp (List.getElem_mem hi'))
  have hid : ((rawOps sort edge restrict pSize dep)[i]).id = -1 := by rw [← hv]; rfl
  exact eq_of_same (by simp [same_iff, clearId]) (by simp [clearId, hid])

/-- A set still comes after its sibling when both are numbered. -/
theorem siblingFirst_planOps (hsort : SortsOps sort edge restrict pSize) (dep : ℕ) :
    SiblingFirst ((planOps sort edge restrict pSize).getD dep []) := by
  by_cases hdep : dep < pSize - 1
  · refine SiblingFirst.of_map_clearId ?_
    rw [map_clearId_planOps hsort.permutes hdep]
    exact siblingFirst_rawOps hdep hsort
  · rw [planOps_getD_of_le (by omega)]
    intro l₁ v l₂ h
    simp at h

end Plan

end GraphMini
