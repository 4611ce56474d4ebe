import GraphMini.Backend.MiniGraph

/-!
# Building mini-graphs

`build` of the four classes. The overload with a parent and the one without differ in where the
adjacency lists come from, which `MiniGraph.pruned` decides, and where else they differ the branch on
the parent is written out. A build runs on a freshly constructed object.
-/

namespace GraphMini

/-- `AllocateWorkSpace`: a container for `n` ids may be larger than asked for, according to what the
pool has available at this request. -/
structure MiniGraphPool where
  capacity : ℕ → ℕ → ℕ
  le_capacity : ∀ request n, n ≤ capacity request n

/-- The constructor and the arguments of `build`. `shouldPrune` is what `should_prune` decides on the
entries, and `beyond i` is the word after the last id of `iter` at the time the loop of
`MiniGraphCostModel` looks at entry `i`. -/
structure BuildRequest where
  type : MgType
  bounded : Bool
  parent : Option ℕ
  vertex : VertexArray
  intersect : VertexSet
  iter : VertexArray
  shouldPrune : ℕ → Bool := fun _ => true
  beyond : ℕ → ℕ := fun _ => invalidId

namespace MiniGraph

variable (g : Graph) (pool : MiniGraphPool) (m : MiniGraph) (objects : List MiniGraph) (i : ℕ)

/-- `Reserve`: a larger container replaces a smaller one. -/
def reserve (n : ℕ) : MiniGraph :=
  if m.ctn.capacity < n then { m with ctn := Buffer.fresh (pool.capacity 0 n) } else m

/-- `Resize`: a larger container takes over the words of a smaller one. -/
def resize (n : ℕ) : MiniGraph :=
  if m.ctn.capacity < n then { m with ctn := m.ctn.grow (pool.capacity i n) } else m

/-- The object with its sets and with room for their positions and degrees. -/
def start (req : BuildRequest) : MiniGraph where
  type := req.type
  bounded := req.bounded
  parent := req.parent
  vertex := req.vertex
  intersect := req.intersect
  ctn := Buffer.fresh 0
  pos := Buffer.fresh (pool.capacity 0 (req.vertex.size + 1024))
  degree := Buffer.fresh (pool.capacity 1 (req.vertex.size + 1024))
  mgIndices := []

/-- `m_mg->indices(m_vertex)`. -/
def link : Option MiniGraph :=
  match m.parent with
  | none => some m
  | some parent => do
      let mg ← lookup objects parent
      return { m with mgIndices := ← mg.indices m.vertex }

/-- `for (auto &x: m_degree) x = INVALID_ID;` -/
def clearDegrees : Option MiniGraph :=
  (List.range m.vertex.size).foldlM (fun m i => m.setDegree i invalidId) m

/-- The entry is pruned at once, into the buffer after the entries before it. -/
def pruneNow : Option (MiniGraph × List MiniGraph) := do
  let pos ← m.pos.get i
  let m := m.resize pool i (m.intersect.size + pos)
  let (ids, objects) ← m.pruned g objects (miniGraphN g objects) i
  let m ← m.fill i ids
  let m ← m.setPos (i + 1) (pos + ids.length)
  return (m, objects)

/-- Room is left for the entry, which `N` fills. -/
def pruneLater : Option MiniGraph := do
  let v ← m.vertex.data[i]?
  let estIntersectSize := min m.intersect.size (g.degree v)
  let pos ← m.pos.get i
  let m := m.resize pool i (estIntersectSize + pos)
  let m ← m.setPos (i + 1) (pos + estIntersectSize)
  m.setDegree i willPrune

def pruneNever : Option MiniGraph := do
  let m ← m.setDegree i notPrune
  let pos ← m.pos.get i
  m.setPos (i + 1) pos

/-- The entries that are not known to be iterated over. -/
def pruneByModel (req : BuildRequest) : Option MiniGraph :=
  if req.shouldPrune i then m.pruneLater g pool i else m.pruneNever i

/-- The room `MiniGraphOnline` leaves for an entry. -/
def room : Option ℕ :=
  match m.parent with
  | none => do
      let v ← m.vertex.data[i]?
      return min (if m.bounded then g.offset.getD v 0 else g.degree v) m.intersect.size
  | some parent => do
      let mg ← lookup objects parent
      return min (m.intersect.size % 2 ^ 32) (← mg.degree.get (← m.mgIndices[i]?))

end MiniGraph

section
variable (g : Graph) (pool : MiniGraphPool) (req : BuildRequest) (objects : List MiniGraph)

def MiniGraphEager.build : Option (MiniGraph × List MiniGraph) := do
  let m ← (MiniGraph.start pool req).setPos 0 0
  let m ← m.link objects
  (List.range req.vertex.size).foldlM (fun (m, objects) i => m.pruneNow g pool objects i) (m, objects)

/-- The overload with a parent asserts that every id of `iter` has been found. -/
def MiniGraphLazy.build : Option (MiniGraph × List MiniGraph) := do
  let m ← (MiniGraph.start pool req).setPos 0 0
  let m ← m.clearDegrees
  let indices := getIndices req.vertex req.iter
  let m ← m.link objects
  if req.parent.isSome ∧ indices.length ≠ req.iter.size then none
  else
    let (m, objects, _) ← indices.foldlM
      (fun ((m : MiniGraph), (objects : List MiniGraph), (numEdges : ℕ)) i => do
        let m ← m.setPos i numEdges
        let m := m.resize pool i (m.intersect.size + numEdges)
        let (ids, objects) ← m.pruned g objects (miniGraphN g objects) i
        let m ← m.fill i ids
        return (m, objects, numEdges + ids.length))
      (m, objects, 0)
    return (m, objects)

def MiniGraphOnline.build : Option (MiniGraph × List MiniGraph) := do
  let m ← (MiniGraph.start pool req).setPos 0 0
  let m ← m.clearDegrees
  let indices := getIndices req.vertex req.iter
  let m ← m.link objects
  if req.parent.isSome ∧ req.iter.size < indices.length then none
  else
    let m ← (List.range req.vertex.size).foldlM
      (fun m i => do m.setPos (i + 1) ((← m.pos.get i) + (← m.room g objects i))) m
    let m := m.reserve pool (← m.pos.get req.vertex.size)
    indices.foldlM
      (fun (m, objects) i => do
        let (ids, objects) ← m.pruned g objects (miniGraphN g objects) i
        return (← m.fill i ids, objects))
      (m, objects)

/-- The loop over `vertex` and `iter` side by side; `iter` is what lies from `iter_ptr` on. -/
def MiniGraphCostModel.buildMerge (g : Graph) (pool : MiniGraphPool) (req : BuildRequest) :
    List ℕ → List ℕ → MiniGraph → List MiniGraph → Option (MiniGraph × List MiniGraph)
  | _, [], m, objects => some (m, objects)
  | iter, i :: is, m, objects => do
      let v ← m.vertex.data[i]?
      -- `advance` also looks at the word after the last id, but does not go beyond it
      let iter := iter.dropWhile (· < v)
      if iter.head?.getD (req.beyond i) = v then
        let (m, objects) ← m.pruneNow g pool objects i
        buildMerge g pool req iter is m objects
      else buildMerge g pool req iter is (← m.pruneByModel g pool i req) objects

/-- Without a parent, the loop over the entries that `iter` shares with `vertex` stands behind a test
for an empty vertex set, which has already left the function. -/
def MiniGraphCostModel.build : Option (MiniGraph × List MiniGraph) :=
  if req.parent.isNone ∧ req.vertex.size = 0 then do
    let m := { MiniGraph.start pool req with
      pos := Buffer.fresh (pool.capacity 0 1), degree := Buffer.fresh 0 }
    return (← m.setPos 0 0, objects)
  else do
    let m ← (MiniGraph.start pool req).setPos 0 0
    let m ← m.link objects
    if req.iter.start = req.vertex.start then
      let shared := if req.parent.isNone ∧ req.vertex.size ≠ 0 then 0 else req.iter.size
      let (m, objects) ← (List.range shared).foldlM
        (fun (m, objects) i => m.pruneNow g pool objects i) (m, objects)
      let m ← (List.range' req.iter.size (req.vertex.size - req.iter.size)).foldlM
        (fun m i => m.pruneByModel g pool i req) m
      return (m, objects)
    else
      buildMerge g pool req req.iter.data (List.range req.vertex.size) m objects

/-- `build` of the class. -/
def MiniGraph.build : Option (MiniGraph × List MiniGraph) :=
  match req.type with
  | .eager => MiniGraphEager.build g pool req objects
  | .lazy => MiniGraphLazy.build g pool req objects
  | .online => MiniGraphOnline.build g pool req objects
  | .costModel => MiniGraphCostModel.build g pool req objects

/-- Constructs an object and builds it. -/
def miniGraphBuild : Option (List MiniGraph) := do
  let (m, objects) ← MiniGraph.build g pool req objects
  return m :: objects

end

end GraphMini
