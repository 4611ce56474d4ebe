import GraphMini.Backend.Graph
import GraphMini.Ir.Superset

/-!
# What a set of the plan stands for

While the vertices placed so far are fixed, a set of the plan stands for the data vertices that fit
every placed vertex: joined to those it has an edge to, below those that restrict it, apart from the
others, and in a vertex induced plan not joined to them. Each vertex set operation adds the condition
of one placed vertex.
-/

namespace GraphMini

open VertexSetIR

section

variable (t : AdjMatType) (g : Graph)

/-- `x` fits the data vertex `y` of the pattern vertex `i`. -/
def Fits (edges restricts : Finset ℕ) (i y x : ℕ) : Prop :=
  x ≠ y ∧ (i ∈ edges → g.Adj y x) ∧ (t = .vertexInduced → i ∉ edges → ¬ g.Adj y x)
    ∧ (i ∈ restricts → x < y)

/-- `x` fits the first `m` placed vertices. -/
def Candidate (edges restricts : Finset ℕ) (placed : List ℕ) (m x : ℕ) : Prop :=
  x < g.numVertex ∧ ∀ i < m, Fits t g edges restricts i (placed.getD i 0) x

/-- The set holds the candidates of the operation. -/
def Denotes (placed : List ℕ) (op : VertexSetIR) (s : VertexSet) : Prop :=
  s.data.SortedLT
    ∧ ∀ x, x ∈ s.data ↔ Candidate t g op.edges op.restricts placed (op.loopDepth + 1) x

instance (edges restricts : Finset ℕ) (i y x : ℕ) : Decidable (Fits t g edges restricts i y x) := by
  unfold Fits
  infer_instance

instance (edges restricts : Finset ℕ) (placed : List ℕ) (m x : ℕ) :
    Decidable (Candidate t g edges restricts placed m x) := by
  unfold Candidate
  infer_instance

end

variable {t : AdjMatType} {g : Graph} {edges restricts : Finset ℕ} {placed : List ℕ} {m x : ℕ}

theorem candidate_succ_iff :
    Candidate t g edges restricts placed (m + 1) x ↔
      Candidate t g edges restricts placed m x
        ∧ Fits t g edges restricts m (placed.getD m 0) x := by
  simp only [Candidate, Nat.lt_succ_iff_lt_or_eq, or_imp, forall_and, forall_eq, and_assoc]

theorem Candidate.mono {m' : ℕ} (h : Candidate t g edges restricts placed m x) (hle : m' ≤ m) :
    Candidate t g edges restricts placed m' x :=
  ⟨h.1, fun i hi => h.2 i (by omega)⟩

/-- Only the bits below `m` and the first `m` placed vertices count. -/
theorem candidate_congr {edges' restricts' : Finset ℕ} {placed' : List ℕ}
    (hedges : ∀ i < m, i ∈ edges ↔ i ∈ edges') (hrestricts : ∀ i < m, i ∈ restricts ↔ i ∈ restricts')
    (hplaced : ∀ i < m, placed.getD i 0 = placed'.getD i 0) :
    Candidate t g edges restricts placed m x ↔ Candidate t g edges' restricts' placed' m x := by
  refine and_congr_right fun _ => forall₂_congr fun i hi => ?_
  simp only [Fits, hedges i hi, hrestricts i hi, hplaced i hi]

/-- Placing more vertices does not change what a set of an earlier depth stands for. -/
theorem candidate_append {y : List ℕ} (hm : m ≤ placed.length) :
    Candidate t g edges restricts (placed ++ y) m x ↔ Candidate t g edges restricts placed m x := by
  refine candidate_congr (fun _ _ => Iff.rfl) (fun _ _ => Iff.rfl) fun i hi => ?_
  rw [List.getD_append _ _ _ _ (by omega)]

/-- A set cut to the depths that count stands for the same vertices. -/
theorem candidate_cut {dep : ℕ} (hm : m ≤ dep + 1) :
    Candidate t g (cut edges restricts dep).edges (cut edges restricts dep).restricts placed m x
      ↔ Candidate t g edges restricts placed m x := by
  have hbelow : ∀ i < m, i ≤ dep := fun i hi => by omega
  refine candidate_congr (fun i hi => ?_) (fun i hi => ?_) fun _ _ => rfl
  · simp [cut, hbelow i hi]
  · simp [cut, hbelow i hi]

namespace Denotes

variable {op u : VertexSetIR} {s s' : VertexSet}

theorem append {y : List ℕ} (h : Denotes t g placed op s) (hdep : op.loopDepth < placed.length) :
    Denotes t g (placed ++ y) op s :=
  ⟨h.1, fun x => (h.2 x).trans (candidate_append (Nat.succ_le_of_lt hdep)).symm⟩

theorem congr (h : Denotes t g placed op s) (hsame : op.same u = true) : Denotes t g placed u s := by
  obtain ⟨he, hr, hd⟩ := same_iff.mp hsame
  unfold Denotes at *
  rwa [he, hr, hd] at h

/-- A set derived from the prefix keeps the elements that fit the vertex of its own depth. -/
theorem of_filter {dep : ℕ} (h : Denotes t g placed u s) (hsame : u.same (op.prefixAt dep) = true)
    (hdep : op.loopDepth = dep + 1) {p : ℕ → Bool} (hdata : s'.data = s.data.filter p)
    (hp : ∀ x ∈ s.data,
      (p x = true ↔ Fits t g op.edges op.restricts (dep + 1) (placed.getD (dep + 1) 0) x)) :
    Denotes t g placed op s' := by
  refine ⟨hdata ▸ SortedList.filter h.1 p, fun x => ?_⟩
  rw [hdata, List.mem_filter, hdep, candidate_succ_iff]
  have hpre : x ∈ s.data ↔ Candidate t g op.edges op.restricts placed (dep + 1) x := by
    rw [(h.congr hsame).2 x, prefixAt_loopDepth, prefixAt, candidate_cut le_rfl]
  rw [← hpre]
  exact and_congr_right fun hx => hp x hx

/-- A set cut from its sibling keeps the elements below the vertex of its own depth. -/
theorem of_sibling (h : Denotes t g placed u s) (hsame : u.same op.unrestricted = true)
    (hmem : op.loopDepth ∈ op.restricts)
    (hdata : s'.data = s.data.filter fun x => decide (x < placed.getD op.loopDepth 0)) :
    Denotes t g placed op s' := by
  refine ⟨hdata ▸ SortedList.filter h.1 _, fun x => ?_⟩
  rw [hdata, List.mem_filter, decide_eq_true_eq, (h.congr hsame).2 x]
  have hbelow : Candidate t g op.unrestricted.edges op.unrestricted.restricts placed op.loopDepth x
      ↔ Candidate t g op.edges op.restricts placed op.loopDepth x := by
    refine candidate_congr (fun _ _ => Iff.rfl) (fun i hi => ?_) fun _ _ => rfl
    simp [unrestricted, hi.ne]
  have hunrestricted : op.unrestricted.loopDepth = op.loopDepth := rfl
  rw [hunrestricted, candidate_succ_iff, candidate_succ_iff, hbelow, and_assoc]
  refine and_congr_right fun _ => ?_
  simp only [Fits, unrestricted, Finset.mem_erase, hmem]
  tauto

end Denotes

/-! ### The condition of one vertex -/

section

variable {i y : ℕ}

theorem fits_edge_iff (hg : g.Valid) (hy : y < g.numVertex) (hi : i ∈ edges) :
    Fits t g edges restricts i y x ↔ g.Adj y x ∧ (i ∈ restricts → x < y) := by
  have hne : g.Adj y x → x ≠ y := by
    rintro hadj rfl
    exact hg.loopless _ hy hadj
  simp only [Fits, hi]
  tauto

theorem fits_nonEdge_iff (hi : i ∉ edges) :
    Fits t g edges restricts i y x ↔
      x ≠ y ∧ (t = .vertexInduced → ¬ g.Adj y x) ∧ (i ∈ restricts → x < y) := by
  simp only [Fits, hi]
  tauto

end

end GraphMini
