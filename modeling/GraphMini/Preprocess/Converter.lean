import GraphMini.Backend.Graph
import GraphMini.Ir.PlanIR
import GraphMini.Lib.StdAlgorithm

/-!
# The graph converter

`GraphConverter` of `preprocess/graph_converter.cpp`, the metadata file of `meta.cpp` and `load_bin`
of `runner.cpp`. The input is the sequence of the edge lines. Arithmetic is that of `uint64_t`.
-/

namespace GraphMini

open StdAlgorithm

namespace Constant

def kResizeIncrement : ℕ := 4096

/-- `EmptyID<uint64_t>()`. -/
def emptyID : ℕ := 2 ^ 64 - 1

def kMetaNumVertex : String := "NUM_VERTEX"

def kMetaNumEdge : String := "NUM_EDGE"

def kMetaNumTriangle : String := "NUM_TRIANGLE"

def kMetaMaxDegree : String := "MAX_DEGREE"

def kMetaMaxOffset : String := "MAX_OFFSET"

def kMetaMaxTriangle : String := "MAX_TRIANGLE"

end Constant

/-- `+` on `uint64_t`. -/
def add64 (x y : ℕ) : ℕ := (x + y) % 2 ^ 64

/-- `std::vector::resize`. -/
def resize (l : List ℕ) (n x : ℕ) : List ℕ := l.take n ++ List.replicate (n - l.length) x

/-- `getID`: the new table, the id that replaces the raw one, and the next id. -/
def getID (idMap : List ℕ) (id nextID : ℕ) : List ℕ × ℕ × ℕ :=
  let idMap :=
    if idMap.length ≤ id then resize idMap (add64 id Constant.kResizeIncrement) Constant.emptyID
    else idMap
  if idMap.getD id Constant.emptyID = Constant.emptyID then
    (idMap.set id nextID, nextID, add64 nextID 1)
  else (idMap, idMap.getD id Constant.emptyID, nextID)

/-- The variables of the reading loop of `load_txt`. -/
structure ReadState where
  idMap : List ℕ := []
  nextID : ℕ := 0
  maxId : ℕ := 0
  degrees : List ℕ := []
  edgeVec : List (ℕ × ℕ) := []

/-- One round of the reading loop: an edge is pushed in both directions. -/
def readLine (s : ReadState) (line : ℕ × ℕ) : ReadState :=
  if line.1 = line.2 then s
  else
    let (idMap, src, nextID) := getID s.idMap line.1 s.nextID
    let (idMap, dst, nextID) := getID idMap line.2 nextID
    let maxId := max (max s.maxId src) dst
    let degrees :=
      if s.degrees.length ≤ maxId then resize s.degrees (add64 maxId Constant.kResizeIncrement) 0
      else s.degrees
    { idMap, nextID, maxId, degrees, edgeVec := s.edgeVec ++ [(src, dst), (dst, src)] }

/-- The comparison that sorts the edges. -/
def edgeLess (a b : ℕ × ℕ) : Bool :=
  if a.1 = b.1 then decide (a.2 < b.2) else decide (a.1 < b.1)

def sortEdges (edgeVec : List (ℕ × ℕ)) : List (ℕ × ℕ) :=
  edgeVec.insertionSort fun a b => edgeLess b a = false

def parallelMax (vec : List ℕ) : ℕ := vec.foldl max 0

def parallelSum (vec : List ℕ) : ℕ := vec.foldl add64 0

/-- `parallel_prefix_sum` from a sum on. -/
def prefixSum : ℕ → List ℕ → List ℕ
  | acc, [] => [acc]
  | acc, x :: vec => acc :: prefixSum (add64 acc x) vec

/-- `std::lower_bound`. -/
def lowerBound (data : List ℕ) (val : ℕ) : ℕ := binarySearch data val 0 data.length

/-- How often a loop up to `const int v1_degree` runs. -/
def intCount (degree : ℕ) : ℕ := if degree % 2 ^ 32 < 2 ^ 31 then degree % 2 ^ 32 else 0

structure GraphConverter where
  indices : List ℕ
  indptr : List ℕ
  triangles : List ℕ
  offsets : List ℕ
  degrees : List ℕ
  vNum : ℕ
  eNum : ℕ
  triNum : ℕ
  maxDeg : ℕ
  maxOffset : ℕ
  maxTri : ℕ
deriving DecidableEq, Repr

namespace GraphConverter

/-- The range from `v1_start` to `v1_end`. -/
def range (indices indptr : List ℕ) (v : ℕ) : List ℕ :=
  (indices.drop (indptr.getD v 0)).take (indptr.getD (v + 1) 0 - indptr.getD v 0)

/-- The counter of the triangles at a vertex. -/
def triangleCount (indices indptr : List ℕ) (v : ℕ) : ℕ :=
  let v1 := range indices indptr v
  (v1.take (intCount v1.length)).foldl
    (fun count v2 => add64 count (intersectCntLoop none v1 (range indices indptr v2) 0)) 0

def loadTxt (lines : List (ℕ × ℕ)) : GraphConverter :=
  let s := lines.foldl readLine {}
  let edgeVec := unique (fun a b => a == b) (sortEdges s.edgeVec)
  let vNum := s.nextID
  let indices := edgeVec.map Prod.snd
  let degrees := edgeVec.foldl (fun degrees pair => degrees.modify pair.1 fun d => add64 d 1)
    (resize s.degrees vNum 0)
  let indptr := prefixSum 0 degrees
  let offsets := (List.range vNum).map fun v => lowerBound (range indices indptr v) v
  let triangles := (List.range vNum).map fun v => triangleCount indices indptr v
  { indices, indptr, triangles, offsets, degrees, vNum
    eNum := indices.length
    triNum := parallelSum triangles
    maxDeg := parallelMax degrees
    maxOffset := parallelMax offsets
    maxTri := parallelMax triangles }

end GraphConverter

/-- `meta.txt`: its keys and numbers. -/
abbrev MetaFile := List (String × ℕ)

def MetaData.save (metaData : MetaData) : MetaFile :=
  [(Constant.kMetaNumVertex, metaData.numVertex), (Constant.kMetaNumEdge, metaData.numEdge),
    (Constant.kMetaNumTriangle, metaData.numTriangle), (Constant.kMetaMaxDegree, metaData.maxDegree),
    (Constant.kMetaMaxOffset, metaData.maxOffset), (Constant.kMetaMaxTriangle, metaData.maxTriangle)]

/-- `items[key]`: a later line of the file replaces an earlier one. -/
def MetaFile.item (file : MetaFile) (key : String) : Option ℕ := file.reverse.lookup key

/-- `MetaData::read`, which divides the number of triangles. -/
def MetaData.read (file : MetaFile) : Option MetaData := do
  return {
    numVertex := ← file.item Constant.kMetaNumVertex
    numEdge := ← file.item Constant.kMetaNumEdge
    numTriangle := (← file.item Constant.kMetaNumTriangle) / 6
    maxDegree := ← file.item Constant.kMetaMaxDegree
    maxOffset := ← file.item Constant.kMetaMaxOffset
    maxTriangle := ← file.item Constant.kMetaMaxTriangle }

/-- The directory of a converted graph. A file of `uint32_t` is there only if its numbers fit. -/
structure GraphDir where
  metaFile : MetaFile
  indicesU64 : List ℕ
  indptrU64 : List ℕ
  triangleU64 : List ℕ
  degreeU64 : List ℕ
  offsetU64 : List ℕ
  indicesU32 : Option (List ℕ)
  indptrU32 : Option (List ℕ)
  degreeU32 : Option (List ℕ)
  offsetU32 : Option (List ℕ)
  triangleU32 : Option (List ℕ)

def to32 (data : List ℕ) : List ℕ := data.map fun x => x % 2 ^ 32

/-- `if (bound < max) save_u32(path, to_32(data))`. -/
def saveU32 (bound : ℕ) (data : List ℕ) : Option (List ℕ) :=
  if bound < 2 ^ 32 - 1 then some (to32 data) else none

/-- `GraphConverter::convert`. -/
def convert (lines : List (ℕ × ℕ)) : GraphDir :=
  let c := GraphConverter.loadTxt lines
  let metaData : MetaData :=
    { numVertex := c.vNum, numEdge := c.eNum, numTriangle := c.triNum, maxDegree := c.maxDeg
      maxOffset := c.maxOffset, maxTriangle := c.maxTri }
  { metaFile := metaData.save
    indicesU64 := c.indices
    indptrU64 := c.indptr
    triangleU64 := c.triangles
    degreeU64 := c.degrees
    offsetU64 := c.offsets
    indicesU32 := saveU32 c.vNum c.indices
    indptrU32 := saveU32 c.eNum c.indptr
    degreeU32 := saveU32 c.maxDeg c.degrees
    offsetU32 := saveU32 c.maxOffset c.offsets
    triangleU32 := saveU32 c.maxTri c.triangles }

/-- `read_file`: a file that is too short is fatal. -/
def readFile (file : List ℕ) (numElements : ℕ) : Option (List ℕ) :=
  if numElements ≤ file.length then some (file.take numElements) else none

/-- `load_bin`. A mapped file is not checked for its size. -/
def loadBin (dir : GraphDir) (mmap : Bool) : Option Graph := do
  let metaData ← MetaData.read dir.metaFile
  let indptr ← readFile dir.indptrU64 (metaData.numVertex + 1)
  let offset ← readFile dir.offsetU64 metaData.numVertex
  let triangles ← readFile dir.triangleU64 metaData.numVertex
  let file ← dir.indicesU32
  let indices ←
    if mmap then some (file.take metaData.numEdge) else readFile file metaData.numEdge
  return {
    indices, indptr, offset, triangles
    numVertex := metaData.numVertex
    numEdge := metaData.numEdge
    numTriangle := metaData.numTriangle
    maxDegree := metaData.maxDegree
    maxOffset := metaData.maxOffset
    maxTriangle := metaData.maxTriangle }

end GraphMini
