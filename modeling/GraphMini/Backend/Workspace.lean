import GraphMini.Backend.Graph

/-!
# The workspace of a vertex set operation

`AllocateWorkSpace` hands out buffers of `MAX_DEGREE + 1` ids, and the emitted plan sets
`MAX_DEGREE` to `get_maxdeg()`. The operations that fill such a buffer never write more than their
receiver holds, and every receiver is part of an adjacency list.
-/

namespace GraphMini

namespace VertexSet

/-- How many ids `remove` copies into a pooled buffer. -/
def removeWrites (s : VertexSet) (upper : ℕ) : ℕ :=
  if s.removeFinds upper then s.data.length - 1 else 0

theorem intersect_sublist {s other : VertexSet} (hs : s.data.SortedLT) (ho : other.data.SortedLT)
    (upper : Option ℕ) : (s.intersect other upper).data.Sublist s.data := by
  rw [intersect_data hs ho]
  exact List.filter_sublist

theorem subtract_sublist {s other : VertexSet} (hs : s.data.SortedLT) (ho : other.data.SortedLT)
    (upper : Option ℕ) : (s.subtract other upper).data.Sublist s.data := by
  rw [subtract_data hs ho]
  exact List.filter_sublist

theorem bounded_sublist (s : VertexSet) (upper : ℕ) : (s.bounded upper).data.Sublist s.data :=
  List.take_sublist _ _

theorem remove_sublist {s : VertexSet} (hs : s.data.SortedLT) (upper : ℕ) :
    (s.remove upper).data.Sublist s.data := by
  rw [remove_data hs]
  exact List.filter_sublist

end VertexSet

namespace Graph

variable (g : Graph)

/-- The number of ids in a pooled buffer. -/
def workSpace : ℕ := g.getMaxdeg + 1

/-- The adjacency lists of the graph and the sets computed from them. -/
inductive Derived : VertexSet → Prop where
  | adj {v : ℕ} (hv : v < g.numVertex) : Derived (g.N v)
  | intersect {s other : VertexSet} (hs : Derived s) (ho : Derived other) (upper : Option ℕ) :
      Derived (s.intersect other upper)
  | subtract {s other : VertexSet} (hs : Derived s) (ho : Derived other) (upper : Option ℕ) :
      Derived (s.subtract other upper)
  | bounded {s : VertexSet} (hs : Derived s) (upper : ℕ) : Derived (s.bounded upper)
  | remove {s : VertexSet} (hs : Derived s) (upper : ℕ) : Derived (s.remove upper)

/-- No operation on derived sets writes beyond its buffer. -/
def FitsWorkSpace : Prop :=
  ∀ s, g.Derived s →
    (∀ other, g.Derived other → ∀ upper, (s.intersect other upper).size ≤ g.workSpace
      ∧ (s.subtract other upper).size ≤ g.workSpace)
    ∧ ∀ upper, s.removeWrites upper ≤ g.workSpace

variable {g}

/-- A derived set is part of an adjacency list. -/
theorem Derived.sublist (hg : g.Valid) {s : VertexSet} (h : g.Derived s) :
    s.data.SortedLT ∧ ∃ v < g.numVertex, s.data.Sublist (g.N v).data := by
  induction h with
  | adj hv => exact ⟨hg.sorted _ hv, _, hv, List.Sublist.refl _⟩
  | intersect hs ho upper ihs iho =>
      obtain ⟨hsorted, v, hv, hsub⟩ := ihs
      have hsub' := VertexSet.intersect_sublist hsorted iho.1 upper
      exact ⟨SortedList.sublist hsorted hsub', v, hv, hsub'.trans hsub⟩
  | subtract hs ho upper ihs iho =>
      obtain ⟨hsorted, v, hv, hsub⟩ := ihs
      have hsub' := VertexSet.subtract_sublist hsorted iho.1 upper
      exact ⟨SortedList.sublist hsorted hsub', v, hv, hsub'.trans hsub⟩
  | @bounded s hs upper ihs =>
      obtain ⟨hsorted, v, hv, hsub⟩ := ihs
      have hsub' := VertexSet.bounded_sublist s upper
      exact ⟨SortedList.sublist hsorted hsub', v, hv, hsub'.trans hsub⟩
  | remove hs upper ihs =>
      obtain ⟨hsorted, v, hv, hsub⟩ := ihs
      have hsub' := VertexSet.remove_sublist hsorted upper
      exact ⟨SortedList.sublist hsorted hsub', v, hv, hsub'.trans hsub⟩

/-- Taking a list out of itself leaves nothing. -/
theorem subtract_self_data (hg : g.Valid) {v : ℕ} (hv : v < g.numVertex) :
    ((g.N v).subtract (g.N v) none).data = [] := by
  have hsorted := hg.sorted v hv
  rw [VertexSet.subtract_data hsorted hsorted, List.filter_eq_nil_iff]
  intro x hx
  simp [hx]

/-- Taking nothing out of an adjacency list copies it. -/
theorem subtract_nil_data (hg : g.Valid) {v : ℕ} (hv : v < g.numVertex) {s : VertexSet}
    (hnil : s.data = []) (hvid : s.vid = invalidId) :
    ((g.N v).subtract s none).data = (g.N v).data := by
  have hsorted := hg.sorted v hv
  rw [VertexSet.subtract_data hsorted (hnil ▸ List.Pairwise.nil.sortedLT), List.filter_eq_self]
  intro x hx
  have hlt := (hg.lt_numVertex v hv x hx).trans hg.numVertex_lt
  have hne : x ≠ s.vid := by
    rw [hvid]
    exact hlt.ne
  simp [hnil, hne, reaches]

/-- The longest adjacency list is what the buffers have to hold. -/
theorem fitsWorkSpace_iff (hg : g.Valid) :
    g.FitsWorkSpace ↔ ∀ v < g.numVertex, (g.N v).size ≤ g.workSpace := by
  constructor
  · intro h v hv
    have hnil := subtract_self_data hg hv
    have hle := ((h _ (.adj hv)).1 _ (.subtract (.adj hv) (.adj hv) none) none).2
    rwa [VertexSet.size, subtract_nil_data hg hv hnil rfl] at hle
  · intro h s hs
    obtain ⟨hsorted, v, hv, hsub⟩ := hs.sublist hg
    have hle : s.data.length ≤ g.workSpace := hsub.length_le.trans (h v hv)
    refine ⟨fun other ho upper => ?_, fun upper => ?_⟩
    · have hother := (ho.sublist hg).1
      exact ⟨(VertexSet.intersect_sublist hsorted hother upper).length_le.trans hle,
        (VertexSet.subtract_sublist hsorted hother upper).length_le.trans hle⟩
    · rw [VertexSet.removeWrites]
      split <;> omega

end Graph

end GraphMini
