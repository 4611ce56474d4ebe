import GraphMini.Backend.MiniGraphBuild
import GraphMini.Backend.Indices

/-!
# What a mini-graph answers

The exact entry of a vertex is the part of its adjacency list in the intersect set, cut to the
smaller ids if the mini-graph is bounded. The answer of `N` lies between this and the whole adjacency
list. Each entry of an object is stored, has room reserved for it, or is left to the parent, and
reading keeps what is stored: this carries the answers through any chain of parents.
-/

namespace GraphMini

open Finset (range)

theorem Graph.Valid.NBound_data {g : Graph} (hg : g.Valid) {v : ℕ} (hv : v < g.numVertex) :
    (g.NBound v).data = (g.N v).data.filter fun x => decide (x < v) := by
  rw [← SortedList.take_countP_lt (hg.sorted v hv), ← hg.offset_eq v hv]
  have hle : g.offset.getD v 0 ≤ g.degree v := by
    rw [hg.offset_eq v hv]
    exact List.countP_le_length.trans (List.length_take_le _ _)
  simp only [Graph.NBound, Graph.N, Graph.row, List.take_take, min_eq_left hle]

theorem Graph.Valid.length_N_lt {g : Graph} (hg : g.Valid) {v : ℕ} (hv : v < g.numVertex) :
    (g.N v).data.length < g.numVertex := by
  have hsub : (g.N v).data ⊆ (List.range g.numVertex).erase v := by
    intro x hx
    have hlt := hg.lt_numVertex v hv x hx
    have hne : x ≠ v := by
      rintro rfl
      exact hg.loopless x hv hx
    exact (List.mem_erase_of_ne hne).mpr (List.mem_range.mpr hlt)
  have hle := ((hg.sorted v hv).nodup.subperm hsub).length_le
  rw [List.length_erase_of_mem (List.mem_range.mpr hv), List.length_range] at hle
  omega

namespace BuildRequest

variable (g : Graph) (req : BuildRequest)

/-- The ids of the intersect set adjacent to `v`, below `v` when bounded. -/
def exact (v : ℕ) : List ℕ :=
  req.intersect.data.filter fun x => decide (g.Adj v x) && (!req.bounded || decide (x < v))

/-- The entries that are pruned whenever they are read. -/
def Precise (v : ℕ) : Prop := req.type = .eager ∨ req.type = .online ∨ v ∈ req.iter.data

/-- `MiniGraphCostModel` prunes entry `i`, of the vertex `v`, in its build. -/
def PrunesAtOnce (i v : ℕ) : Prop :=
  if req.iter.start = req.vertex.start then v ∈ req.iter.data
  else (req.iter.data.dropWhile (· < v)).head?.getD (req.beyond i) = v

instance (i v : ℕ) : Decidable (req.PrunesAtOnce i v) := by
  unfold PrunesAtOnce
  infer_instance

/-- The entries that are never pruned. -/
def LeftFree (i v : ℕ) : Prop :=
  match req.type with
  | .eager => False
  | .lazy => v ∉ req.iter.data
  | .online => False
  | .costModel => ¬ req.PrunesAtOnce i v ∧ req.shouldPrune i = false

/-- The sets of a build straight from the data graph. -/
structure Sets : Prop where
  vertex_sorted : req.vertex.data.SortedLT
  vertex_lt : ∀ v ∈ req.vertex.data, v < g.numVertex
  intersect_sorted : req.intersect.data.SortedLT
  intersect_lt : ∀ x ∈ req.intersect.data, x < invalidId
  iter_sorted : req.iter.data.SortedLT
  consistent : req.vertex.Consistent req.iter

/-- `parent` covers the request: it has its vertices and its intersect set, and leaves out the larger
ids only if the request does. -/
structure CoveredBy (parent : BuildRequest) : Prop where
  vertex_subset : ∀ v ∈ req.vertex.data, v ∈ parent.vertex.data
  intersect_subset : ∀ x ∈ req.intersect.data, x ∈ parent.intersect.data
  bounded : parent.bounded = true → req.bounded = true
  consistent : parent.vertex.Consistent req.vertex

/-- A build whose parent, if there is one, is one of the objects built before. -/
structure Admissible (reqs : List BuildRequest) : Prop where
  sets : req.Sets g
  covered : ∀ p, req.parent = some p → ∃ parent, lookup reqs p = some parent ∧ req.CoveredBy parent

end BuildRequest

/-- What the answer `s` for the vertex `v` has to be. -/
structure Answers (g : Graph) (req : BuildRequest) (v : ℕ) (s : VertexSet) : Prop where
  vid : s.vid = v
  exact_sublist : (req.exact g v).Sublist s.data
  sublist_adj : s.data.Sublist (g.N v).data
  eq_exact : req.Precise v → s.data = req.exact g v

section Exact

variable {g : Graph} {req : BuildRequest} {v : ℕ} {s : VertexSet}

theorem BuildRequest.mem_exact {x : ℕ} :
    x ∈ req.exact g v ↔ x ∈ req.intersect.data ∧ g.Adj v x ∧ (req.bounded = true → x < v) := by
  simp only [BuildRequest.exact, List.mem_filter, Bool.and_eq_true, Bool.or_eq_true,
    Bool.not_eq_true', decide_eq_true_eq]
  cases req.bounded <;> simp

theorem BuildRequest.exact_sorted (hreq : req.Sets g) : (req.exact g v).SortedLT :=
  SortedList.filter hreq.intersect_sorted _

theorem BuildRequest.exact_sublist_adj (hg : g.Valid) (hreq : req.Sets g) (hv : v < g.numVertex) :
    (req.exact g v).Sublist (g.N v).data :=
  SortedList.sublist_of_subset (exact_sorted hreq) (hg.sorted v hv) fun _ hx => (mem_exact.mp hx).2.1

/-- Every entry is shorter than the numbers that say that it is not stored. -/
theorem BuildRequest.length_exact_lt (hg : g.Valid) (hreq : req.Sets g) (hv : v < g.numVertex) :
    (req.exact g v).length < notPrune := by
  have h₁ := (exact_sublist_adj hg hreq hv).length_le
  have h₂ := hg.length_N_lt hv
  have h₃ := hg.numVertex_lt
  simp only [notPrune, invalidId] at *
  omega

theorem BuildRequest.length_exact_le : (req.exact g v).length ≤ req.intersect.size :=
  List.length_filter_le _ _

/-- A covering parent has all ids of the exact list. -/
theorem BuildRequest.CoveredBy.mem_exact {parent : BuildRequest} (hcov : req.CoveredBy parent) {x : ℕ}
    (hx : x ∈ req.exact g v) : x ∈ parent.exact g v := by
  obtain ⟨hint, hadj, hbound⟩ := BuildRequest.mem_exact.mp hx
  exact BuildRequest.mem_exact.mpr
    ⟨hcov.intersect_subset x hint, hadj, fun hb => hbound (hcov.bounded hb)⟩

/-- The stored list is an answer. -/
theorem answers_exact (hg : g.Valid) (hreq : req.Sets g) (hv : v < g.numVertex) :
    Answers g req v { data := req.exact g v, vid := v } where
  vid := rfl
  exact_sublist := List.Sublist.refl _
  sublist_adj := req.exact_sublist_adj hg hreq hv
  eq_exact _ := rfl

/-- An answer of a covering parent may be delegated to by an entry that need not be pruned. -/
theorem Answers.of_parent {parent : BuildRequest} (hcov : req.CoveredBy parent)
    (hs : Answers g parent v s) (hprecise : req.Precise v → s.data = req.exact g v)
    (hg : g.Valid) (hreq : req.Sets g) (hv : v < g.numVertex) : Answers g req v s where
  vid := hs.vid
  sublist_adj := hs.sublist_adj
  eq_exact := hprecise
  exact_sublist := by
    have hsorted := SortedList.sublist (hg.sorted v hv) hs.sublist_adj
    exact SortedList.sublist_of_subset (BuildRequest.exact_sorted hreq) hsorted
      fun x hx => hs.exact_sublist.subset (hcov.mem_exact hx)

end Exact

end GraphMini
