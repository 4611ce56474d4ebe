import GraphMini.Backend.Graph
import GraphMini.Lib.Buffer

/-!
# Mini-graphs

The four classes of `backend/minigraph.h`. A mini-graph keeps, for each vertex of its vertex set, the
part of the adjacency list that lies in its intersect set, all of them in one flat buffer. An entry
is pruned when the mini-graph is built, when it is first read, or never; an entry that is never
pruned is read from the parent mini-graph or from the data graph.

The objects of a run are a list, the newest first, so a parent lies in the tail. A list that `N`
returns is a view: it stands for what its place holds when it is read.
-/

namespace GraphMini

/-- The mini-graph classes. -/
inductive MgType where
  | eager
  | lazy
  | online
  | costModel
deriving DecidableEq, Repr

/-- `NOT_PRUNE`, which is `-2` as an `IdType`. -/
def notPrune : ℕ := 2 ^ 32 - 2

/-- `WILL_PRUNE`, which is `-1` as an `IdType`. -/
def willPrune : ℕ := 2 ^ 32 - 1

/-- A vertex set with the address of its first element, `begin()`. -/
structure VertexArray extends VertexSet where
  start : ℕ
deriving DecidableEq, Repr

/-- Arrays that start at one address are one array, cut to two lengths. -/
def VertexArray.Consistent (a b : VertexArray) : Prop :=
  a.start = b.start → a.data <+: b.data ∨ b.data <+: a.data

instance (a b : VertexArray) : Decidable (a.Consistent b) := by
  unfold VertexArray.Consistent
  infer_instance

inductive Place where
  | graph
  | miniGraph (id : ℕ)
deriving DecidableEq, Repr

/-- A vertex set that points into a row of the data graph or into the buffer of a mini-graph. -/
structure View where
  place : Place
  pos : ℕ
  len : ℕ
  vid : ℕ
deriving DecidableEq, Repr

/-- `parent` is `m_mg`; `mgIndices` are the positions of the own vertices in the parent,
`m_mg_indices` (`m_indices` of `MiniGraphEager`). -/
structure MiniGraph where
  type : MgType
  bounded : Bool
  parent : Option ℕ
  vertex : VertexArray
  intersect : VertexSet
  ctn : Buffer ℕ
  pos : Buffer ℕ
  degree : Buffer ℕ
  mgIndices : List ℕ

/-- A call of `N`: the list it returns, and the objects after it. -/
abbrev MgRead : Type := ℕ → ℕ → Option (View × List MiniGraph)

/-- What was put at the front of a list as number `id`. -/
def lookup {α : Type} : List α → ℕ → Option α
  | [], _ => none
  | a :: rest, id => if id = rest.length then some a else lookup rest id

/-- What a view shows at present. -/
def View.read (g : Graph) (objects : List MiniGraph) (view : View) : Option VertexSet :=
  match view.place with
  | .graph => some { data := (g.indices.drop view.pos).take view.len, vid := view.vid }
  | .miniGraph id => do
      let m ← lookup objects id
      return { data := ← m.ctn.read view.pos view.len, vid := view.vid }

/-- `DATA_GRAPH->N(v)`. -/
def Graph.view (g : Graph) (v : ℕ) : View :=
  { place := .graph, pos := g.indptr.getD v 0, len := g.degree v, vid := v }

/-! ### Positions of vertices -/

/-- `get_indices` where the second set is much smaller: a binary search for each of its ids. -/
def indicesSearch (data : List ℕ) : ℕ → List ℕ → List ℕ
  | _, [] => []
  | itr, id :: ids =>
      if itr < data.length then
        let pos := binarySearch data id itr (data.length - itr)
        if data[pos]? = some id then pos :: indicesSearch data (pos + 1) ids
        else indicesSearch data pos ids
      else []

/-- `get_indices` otherwise: the two-pointer scan. -/
def indicesScan (idxL : ℕ) : List ℕ → List ℕ → List ℕ
  | left :: ls, right :: rs =>
      if left < right then indicesScan (idxL + 1) ls (right :: rs)
      else if right < left then indicesScan idxL (left :: ls) rs
      else idxL :: indicesScan (idxL + 1) ls rs
  | _, _ => []
termination_by ls rs => ls.length + rs.length

def getIndices (vertices toIter : VertexArray) : List ℕ :=
  if vertices.start = toIter.start then List.range (min vertices.size toIter.size)
  else if toIter.size * 50 < vertices.size then indicesSearch vertices.data 0 toIter.data
  else indicesScan 0 vertices.data toIter.data

/-- `indices` of every class; it asserts that each id has been found. -/
def MiniGraph.indices (m : MiniGraph) (toIter : VertexArray) : Option (List ℕ) :=
  let out := getIndices m.vertex toIter
  if out.length = toIter.size then some out else none

/-! ### Reading -/

namespace MiniGraph

variable (g : Graph) (m : MiniGraph) (rest : List MiniGraph) (parentN : MgRead) (id i : ℕ)

/-- Storing into an array of `IdType` truncates. -/
def setPos (value : ℕ) : Option MiniGraph := do
  return { m with pos := ← m.pos.set i (value % 2 ^ 32) }

def setDegree (value : ℕ) : Option MiniGraph := do
  return { m with degree := ← m.degree.set i (value % 2 ^ 32) }

/-- `VertexSet(m_vertex[i], m_ctn.begin() + m_pos[i], m_degree[i])`. -/
def stored : Option View := do
  return {
    place := .miniGraph id
    pos := ← m.pos.get i
    len := ← m.degree.get i
    vid := ← m.vertex.data[i]? }

/-- `m_mg ? m_mg->N(m_mg_indices[i]) : DATA_GRAPH->N(m_vertex[i])`. -/
def unpruned : Option (View × List MiniGraph) := do
  match m.parent with
  | none => return (g.view (← m.vertex.data[i]?), rest)
  | some parent => parentN parent (← m.mgIndices[i]?)

/-- The ids that `m_intersect.intersect` writes for entry `i`: from `NBound` or `N` of the data graph,
or from the entry of the parent with the vertex as the upper bound. -/
def pruned : Option (List ℕ × List MiniGraph) := do
  let v ← m.vertex.data[i]?
  match m.parent with
  | none => return ((m.intersect.intersect (if m.bounded then g.NBound v else g.N v) none).data, rest)
  | some parent =>
      let (view, rest) ← parentN parent (← m.mgIndices[i]?)
      let s ← view.read g rest
      return ((m.intersect.intersect s (if m.bounded then some v else none)).data, rest)

/-- Writes the ids of entry `i` to its place and stores their number. -/
def fill (ids : List ℕ) : Option MiniGraph := do
  let start ← m.pos.get i
  let ctn ← m.ctn.write start ids
  { m with ctn }.setDegree i ids.length

/-- Fills entry `i` and returns it. -/
def fillAndRead : Option (View × List MiniGraph) := do
  let (ids, rest) ← m.pruned g rest parentN i
  let m ← m.fill i ids
  return (← m.stored id i, m :: rest)

end MiniGraph

section
variable (g : Graph) (m : MiniGraph) (rest : List MiniGraph) (parentN : MgRead) (id i : ℕ)

def MiniGraphEager.N : Option (View × List MiniGraph) := do
  return (← m.stored id i, m :: rest)

def MiniGraphLazy.N : Option (View × List MiniGraph) := do
  if (← m.degree.get i) = invalidId then
    let (view, rest) ← m.unpruned g rest parentN i
    return (view, m :: rest)
  else return (← m.stored id i, m :: rest)

def MiniGraphOnline.N : Option (View × List MiniGraph) := do
  if (← m.degree.get i) = invalidId then m.fillAndRead g rest parentN id i
  else return (← m.stored id i, m :: rest)

def MiniGraphCostModel.N : Option (View × List MiniGraph) := do
  let degree ← m.degree.get i
  if degree = notPrune then
    let (view, rest) ← m.unpruned g rest parentN i
    return (view, m :: rest)
  else if degree = willPrune then m.fillAndRead g rest parentN id i
  else return (← m.stored id i, m :: rest)

end

/-- `N` of the class that the object has. -/
def miniGraphN (g : Graph) : List MiniGraph → MgRead
  | [], _, _ => none
  | m :: rest, id, i =>
      if id = rest.length then
        match m.type with
        | .eager => MiniGraphEager.N m rest id i
        | .lazy => MiniGraphLazy.N g m rest (miniGraphN g rest) id i
        | .online => MiniGraphOnline.N g m rest (miniGraphN g rest) id i
        | .costModel => MiniGraphCostModel.N g m rest (miniGraphN g rest) id i
      else do
        let (view, rest) ← miniGraphN g rest id i
        return (view, m :: rest)

end GraphMini
