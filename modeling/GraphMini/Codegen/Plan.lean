import GraphMini.Ir.PlanIR
import GraphMini.Lib.StdAlgorithm

/-!
# Planning

`create_plan` of `codegen/codegen.cpp`: from a schedule to the sets each loop depth computes. A
matrix is its text, row after row. `std::sort` is a parameter of the planner; `insertionSort` is what
libstdc++ runs on fewer than 16 elements.
-/

namespace GraphMini

open StdAlgorithm

/-- What `Schedule::get_schedule` leaves in the schedule. -/
structure Schedule where
  adjMat : List Char
  restrictPair : List (ℕ × ℕ)
  inExclusionOptimizeNum : ℕ := 0
  inExclusionOptimizeGroup : List (List (List ℕ)) := []
  inExclusionOptimizeVal : List ℤ := []
  inExclusionOptimizeRedundancy : ℤ := 0

def vecIndex (i j pSize : ℕ) : ℕ := i * pSize + j

/-- The columns of a row that hold a `'1'`. -/
def rowOnes (mat : List Char) (v pSize : ℕ) : List ℕ :=
  (List.range pSize).filter fun j => mat.getD (vecIndex v j pSize) '0' == '1'

/-- Row `v1` of the closing pass: what restricts `v1` restricts every vertex that `v1` restricts. -/
def closeRow (pairVec : List (ℕ × ℕ)) (pSize : ℕ) (mat : List Char) (v1 : ℕ) : List Char :=
  let greaterThanV1 := rowOnes mat v1 pSize
  pairVec.foldl
    (fun mat pair =>
      if pair.1 == v1 then
        greaterThanV1.foldl (fun mat v1Plus => mat.set (vecIndex pair.2 v1Plus pSize) '1') mat
      else mat)
    mat

def restrictsToStr (pairVec : List (ℕ × ℕ)) (pSize : ℕ) : List Char :=
  let mat := pairVec.foldl (fun mat pair => mat.set (vecIndex pair.2 pair.1 pSize) '1')
    (List.replicate (pSize * pSize) '0')
  (List.range pSize).foldl (closeRow pairVec pSize) mat

/-- A `CHECK` or a fatal log message ends the generator with its text. -/
def check (condition : Bool) (message : String) : Except String Unit :=
  if condition then .ok () else .error message

def getPatternSize (adjMat : List Char) : Except String ℕ := do
  let patternSize := Nat.sqrt adjMat.length
  check (patternSize * patternSize == adjMat.length && decide (3 ≤ patternSize))
    "Invalid adj matrix size, it must be a square number"
  pure patternSize

def toEdgeIR (adjMat : List Char) (pSize vid : ℕ) : EdgeIR :=
  if vid = 0 then ∅ else (rowOnes adjMat vid pSize).toFinset

def toRestrictIR (resMat : List Char) (pSize vid : ℕ) : EdgeRestrictIR := toEdgeIR resMat pSize vid

/-- The sets that the vertices after `dep` need at loop depth `dep`, as they are pushed. -/
def candidateOps (edge restrict : ℕ → Finset ℕ) (pSize dep : ℕ) : List VertexSetIR :=
  ((List.range' (dep + 1) (pSize - (dep + 1))).map fun vid =>
      VertexSetIR.cut (edge vid) (restrict vid) dep).filter fun v => decide (0 < v.edgeNum)

/-- `op.id = next_id++` over the lists of all depths. -/
def numberOps {α : Type} (setId : α → ℤ → α) : ℕ → List (List α) → List (List α)
  | _, [] => []
  | nextId, ops :: rest =>
      (ops.mapIdx fun i op => setId op ((nextId + i : ℕ) : ℤ))
        :: numberOps setId (nextId + ops.length) rest

/-- The set at `dep` of the vertex that loop `dep + 1` runs over. -/
def iterCandidate (edge restrict : ℕ → Finset ℕ) (dep : ℕ) : VertexSetIR :=
  VertexSetIR.cut (edge (dep + 1)) (restrict (dep + 1)) dep

/-- `iter_set.at(dep)` with the id it got among the operations. -/
def findIter (ops : List VertexSetIR) (iter : VertexSetIR) : Except String VertexSetIR :=
  match ops.find? fun op => op.same iter with
  | none => .error "std::find"
  | some iterVs => do
      check iterVs.hasId "Invalid VertexSetIR (id = -1)"
      pure iterVs

/-- `out.iep_set` for one of the last vertices: the last set with the same computation. -/
def findIepSet (t : AdjMatType) (ops : List VertexSetIR) (child : VertexSetIR) :
    Except String VertexSetIR :=
  match lastMatch (fun parent => parent.sameIepComputation t child) ops with
  | none => .error "vset.has_value()"
  | some vset => .ok vset

/-- The sets of every depth, sorted, without duplicates and numbered. -/
def planOps (sort : List VertexSetIR → List VertexSetIR) (edge restrict : ℕ → Finset ℕ)
    (pSize : ℕ) : List (List VertexSetIR) :=
  numberOps (fun op id => { op with id }) 0
    ((List.range (pSize - 1)).map fun dep =>
      unique VertexSetIR.same (sort (candidateOps edge restrict pSize dep)))

def createPlan (sort : List VertexSetIR → List VertexSetIR) (sc : Schedule) (t : AdjMatType)
    (metaData : MetaData) : Except String PlanIR := do
  let pSize ← getPatternSize sc.adjMat
  let resMat := restrictsToStr sc.restrictPair pSize
  let edge := toEdgeIR sc.adjMat pSize
  let restrict := toRestrictIR resMat pSize
  let maxDep := pSize - 1
  (List.range maxDep).forM fun dep =>
    check (decide (0 < (iterCandidate edge restrict dep).edgeNum))
      "Invalid schedule: The set of vertex to iterate potentially contains all vertices in the graph"
  let setOps := planOps sort edge restrict pSize
  let iterSet ← (List.range maxDep).mapM fun dep =>
    findIter (setOps.getD dep []) (iterCandidate edge restrict dep)
  let out : PlanIR := { adjMatType := t, pSize, metaData, setOps, iterSet }
  if t = .edgeInducedIEP then
    let iepNum := sc.inExclusionOptimizeNum
    let iepDepth := pSize - iepNum - 1
    let iepSet ←
      if 1 < iepNum then
        (List.range iepNum).mapM fun vsetId =>
          findIepSet t (setOps.getD iepDepth []) (iterSet.getD (vsetId + iepDepth) {})
      else pure []
    pure { out with
      iepNum, iepDepth, iepSet
      iepGroups := sc.inExclusionOptimizeGroup
      iepVals := sc.inExclusionOptimizeVal
      iepRedundancy := sc.inExclusionOptimizeRedundancy }
  else pure out

end GraphMini
