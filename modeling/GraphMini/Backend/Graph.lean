import GraphMini.Backend.VertexSetSpec

/-!
# The data graph

`Graph` of `backend/graph.h`: compressed sparse rows with the statistics of the metadata. `N` and
`NBound` are views of one row.
-/

namespace GraphMini

structure Graph where
  indices : List ℕ
  indptr : List ℕ
  offset : List ℕ
  triangles : List ℕ := []
  numVertex : ℕ
  numEdge : ℕ
  numTriangle : ℕ := 0
  maxDegree : ℕ := 0
  maxOffset : ℕ := 0
  maxTriangle : ℕ := 0
deriving DecidableEq, Repr

namespace Graph

def getVnum (g : Graph) : ℕ := g.numVertex

/-- `get_maxdeg`, which returns the field of `get_maxtri`. -/
def getMaxdeg (g : Graph) : ℕ := g.maxTriangle

def degree (g : Graph) (v : ℕ) : ℕ := g.indptr.getD (v + 1) 0 - g.indptr.getD v 0

/-- The first `len` entries of the row of `v`. -/
def row (g : Graph) (v len : ℕ) : List ℕ := (g.indices.drop (g.indptr.getD v 0)).take len

/-- The adjacency list of `v`. -/
def N (g : Graph) (v : ℕ) : VertexSet := { data := g.row v (g.degree v), vid := v }

/-- The adjacency list of `v` bounded by `v`. -/
def NBound (g : Graph) (v : ℕ) : VertexSet := { data := g.row v (g.offset.getD v 0), vid := v }

/-- `y` is in the adjacency list of `x`. -/
def Adj (g : Graph) (x y : ℕ) : Prop := y ∈ (g.N x).data

instance (g : Graph) (x y : ℕ) : Decidable (g.Adj x y) := by
  unfold Adj
  infer_instance

/-- The rows partition `indices`, every row is strictly increasing, adjacency is symmetric and
loop-free, offsets count the smaller neighbours, and the vertices are fewer than `INVALID_ID`, as the
preprocessor makes them. -/
structure Valid (g : Graph) : Prop where
  indptr_zero : g.indptr.getD 0 0 = 0
  indptr_mono : ∀ v < g.numVertex, g.indptr.getD v 0 ≤ g.indptr.getD (v + 1) 0
  indptr_last : g.indptr.getD g.numVertex 0 = g.numEdge
  indices_length : g.indices.length = g.numEdge
  sorted : ∀ v < g.numVertex, (g.N v).data.SortedLT
  lt_numVertex : ∀ x < g.numVertex, ∀ y ∈ (g.N x).data, y < g.numVertex
  symm : ∀ x < g.numVertex, ∀ y ∈ (g.N x).data, g.Adj y x
  loopless : ∀ x < g.numVertex, ¬ g.Adj x x
  offset_eq : ∀ v < g.numVertex, g.offset.getD v 0 = (g.N v).data.countP (fun x => decide (x < v))
  numVertex_lt : g.numVertex < invalidId

variable {g : Graph}

@[simp] theorem N_vid (v : ℕ) : (g.N v).vid = v := rfl

theorem mem_N {x y : ℕ} : y ∈ (g.N x).data ↔ g.Adj x y := Iff.rfl

end Graph

end GraphMini
