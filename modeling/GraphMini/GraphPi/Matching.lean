import GraphMini.Exec.Result
import GraphMini.GraphPi.Graph
import GraphMini.GraphPi.Schedule

/-!
# The matcher

`Graph::pattern_matching` with `pattern_matching_aggressive_func`: a loop for every pattern vertex, over the
set of its prefix, which the loops before have intersected. The last vertices of a schedule with inclusion
and exclusion are counted by the groups of their sets. Whether the loop at depth 1 has anything to run over
is up to the library that `Graphmpi` comes from. The sets that are computed lie in buffers of fixed sizes, and a
run that writes beyond the end of one has no result.
-/

namespace GraphMini

namespace GraphPi

/-- `graphmpi.cpp`, or the `mpi_stubs.cpp` that the build links. -/
inductive Graphmpi where
  | mpi
  | stubs
deriving DecidableEq, Repr

/-- `get_loop`. Only a run over several processes sets `loop_flag`. -/
def Graphmpi.getLoop : Graphmpi → List ℕ → List ℕ
  | .mpi, loopData => loopData
  | .stubs, _ => []

/-- The array `vertex_set`, indexed by the prefixes. -/
abbrev VertexSets := ℕ → List ℕ

/-- A buffer of `capacity` ids with a set written to it. -/
def inBuffer (capacity : ℕ) (set : List ℕ) : Option (List ℕ) := if set.length ≤ capacity then some set else none

/-- `intersection` and `intersection_with`, the loop of `VertexSet::intersect`. -/
def intersection (set0 set1 : List ℕ) : List ℕ := intersectLoop none set0 set1

/-- `std::lower_bound` -/
def lowerBound (data : List ℕ) (val : ℕ) : ℕ := binarySearch data val 0 data.length

/-- `std::binary_search` -/
def hasValue (data : List ℕ) (val : ℕ) : Bool :=
  let i := lowerBound data val
  decide (i < data.length) && !decide (val < data.getD i 0)

/-- `unorderd_subtraction_size` -/
def unorderdSubtractionSize (set0 set1 : List ℕ) : ℤ :=
  set1.foldl (fun ret val => if hasValue set0 val then ret - 1 else ret) (set0.length : ℤ)

section

variable (g : Graph) (sc : Schedule)

/-- The set of a loop; a prefix id of -1 is none. -/
def setOf (vertexSet : VertexSets) : Option ℕ → List ℕ
  | none => []
  | some prefixId => vertexSet prefixId

def loopSet (vertexSet : VertexSets) (depth : ℕ) : List ℕ :=
  setOf vertexSet (sc.loopSetPrefixId.getD depth none)

def minVertex (depth : ℕ) (subtractionSet : List ℕ) : ℕ :=
  (sc.restrictLast depth).foldl
    (fun minVertex i => if subtractionSet.getD i 0 < minVertex then subtractionSet.getD i 0 else minVertex)
    g.vCnt

/-- A set without a father is a row of the graph, any other is written to a buffer of its own. -/
def buildVertexSet (vertexSet : VertexSets) (prefixId vertex : ℕ) : Option (List ℕ) :=
  match sc.prefixes.fatherPrefixId.getD prefixId none with
  | none => some (g.row vertex)
  | some father => inBuffer g.maxIntersectionSize (intersection (vertexSet father) (g.row vertex))

/-- The sets that end with the new vertex, up to the first that is empty. -/
def buildVertexSets (vertex : ℕ) : List ℕ → VertexSets → Option (VertexSets × Bool)
  | [], vertexSet => some (vertexSet, false)
  | prefixId :: rest, vertexSet => do
      let set ← buildVertexSet g sc vertexSet prefixId vertex
      let vertexSet := Function.update vertexSet prefixId set
      if set.length = 0 then some (vertexSet, true) else buildVertexSets vertex rest vertexSet

/-- `tmp_set`, or the set itself where the group has one vertex. The intersection of a set with itself is
a copy, and further intersections leave less in the buffer. -/
def groupSet (vertexSet : VertexSets) (ids : ℕ → Option ℕ) : List ℕ → Option (List ℕ)
  | [] => some []
  | [i] => some (setOf vertexSet (ids i))
  | i :: j :: rest => do
      let tmpSet ← inBuffer g.maxDegree
        (if ids i = ids j then setOf vertexSet (ids i)
          else intersection (setOf vertexSet (ids i)) (setOf vertexSet (ids j)))
      some (rest.foldl (fun tmpSet k => intersection tmpSet (setOf vertexSet (ids k))) tmpSet)

/-- `val` times the sizes of the groups, as long as it is not zero. -/
def groupsVal (vertexSet : VertexSets) (ids : ℕ → Option ℕ) (subtractionSet : List ℕ) :
    List (List ℕ) → ℤ → Option ℤ
  | [], val => some val
  | group :: rest, val => do
      let set ← groupSet g vertexSet ids group
      let val := val * unorderdSubtractionSize set subtractionSet
      if val = 0 then some val else groupsVal vertexSet ids subtractionSet rest val

/-- The last vertices by inclusion and exclusion. -/
def countGroups (vertexSet : VertexSets) (depth : ℕ) (subtractionSet : List ℕ) : Option ℤ :=
  ((List.range sc.inExclusionOptimizeGroup.length).mapM fun optimizeRank =>
    groupsVal g vertexSet (fun i => sc.loopSetPrefixId.getD (depth + i) none) subtractionSet
      (sc.inExclusionOptimizeGroup.getD optimizeRank [])
      (sc.inExclusionOptimizeVal.getD optimizeRank 0)).map List.sum

/-- The last vertex. -/
def countLast (loopData : List ℕ) (depth : ℕ) (subtractionSet : List ℕ) : ℤ :=
  if 0 < sc.totalRestrictNum then
    let sizeAfterRestrict := lowerBound loopData (minVertex g sc depth subtractionSet)
    if 0 < sizeAfterRestrict then
      unorderdSubtractionSize (loopData.take sizeAfterRestrict) subtractionSet
    else 0
  else unorderdSubtractionSize loopData subtractionSet

/-- The loop of a depth; `next` is the call for the depth below. -/
def loopVertices (depth minVertex : ℕ) (subtractionSet : List ℕ)
    (next : ℕ → VertexSets × ℤ → Option (VertexSets × ℤ)) : List ℕ → VertexSets × ℤ → Option (VertexSets × ℤ)
  | [], state => some state
  | vertex :: rest, state =>
      if minVertex ≤ vertex then some state
      else if vertex ∈ subtractionSet then loopVertices depth minVertex subtractionSet next rest state
      else do
        let (vertexSet, isZero) ← buildVertexSets g sc vertex (sc.prefixes.last depth) state.1
        let state ← if isZero then some (vertexSet, state.2) else next vertex (vertexSet, state.2)
        loopVertices depth minVertex subtractionSet next rest state

/-- `pattern_matching_aggressive_func`; `left` is the number of vertices from `depth` on. The state is
`vertex_set` and what is added to `local_ans`. -/
def patternMatchingAggressiveFunc (library : Graphmpi) :
    ℕ → ℕ → List ℕ → VertexSets × ℤ → Option (VertexSets × ℤ)
  | 0, _, _, state => some state
  | left + 1, depth, subtractionSet, state =>
      let loopData := loopSet sc state.1 depth
      if loopData.length = 0 then some state
      else if depth + sc.inExclusionOptimizeNum = sc.size then
        (countGroups g sc state.1 depth subtractionSet).map fun count => (state.1, state.2 + count)
      else if depth + 1 = sc.size then
        some (state.1, state.2 + countLast g sc loopData depth subtractionSet)
      else
        loopVertices g sc depth (minVertex g sc depth subtractionSet) subtractionSet
          (fun vertex state => do
            let subtractionSet ← inBuffer g.maxIntersectionSize (subtractionSet ++ [vertex])
            patternMatchingAggressiveFunc library left (depth + 1) subtractionSet state)
          (if depth = 1 then library.getLoop loopData else loopData) state

/-- One round of the outermost loop. -/
def matchVertex (library : Graphmpi) (state : VertexSets × ℤ) (vertex : ℕ) : Option (VertexSets × ℤ) := do
  let vertexSet ← (sc.prefixes.last 0).foldlM
    (fun vertexSet prefixId =>
      (buildVertexSet g sc vertexSet prefixId vertex).map (Function.update vertexSet prefixId))
    state.1
  let subtractionSet ← inBuffer g.maxIntersectionSize [vertex]
  patternMatchingAggressiveFunc g sc library (sc.size - 1) 1 subtractionSet (vertexSet, state.2)

/-- What a thread counts: it takes its vertices in their order. -/
def matchThread (library : Graphmpi) {threads : ℕ} (schedule : ℕ → Fin threads) (thread : Fin threads) : Option ℤ :=
  (((List.range g.vCnt).filter fun vertex => schedule vertex = thread).foldlM
    (matchVertex g sc library) (fun _ => [], 0)).map Prod.snd

/-- `pattern_matching`: `schedule` says which thread gets which vertex. The sum of the threads is a `long long`,
as all that is added on the way, and so only what it comes to is wrapped. -/
def patternMatching (library : Graphmpi) {threads : ℕ} (schedule : ℕ → Fin threads) : Option ℤ := do
  let answers ← (List.finRange threads).mapM (matchThread g sc library schedule)
  if sc.inExclusionOptimizeRedundancy = 0 then none
  else some ((longLong answers.sum).tdiv sc.inExclusionOptimizeRedundancy)

end

end GraphPi

end GraphMini
