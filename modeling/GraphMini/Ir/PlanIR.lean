import GraphMini.Ir.VertexSetIR

/-!
# Mini-graphs and plans

`MiniGraphIR` and `PlanIR` of `codegen/ir.h` and `ir.cpp`. The vectors that hold one list for each
loop depth are read through `ops`, `iter`, `mgs` and `used`; a plan has an entry for every depth at
which the generators read one.
-/

namespace GraphMini

structure MiniGraphIR where
  vertices : VertexSetIR := {}
  intersect : VertexSetIR := {}
  id : ℤ := -1
deriving DecidableEq

namespace MiniGraphIR

def loopDepth (mg : MiniGraphIR) : ℕ := mg.vertices.loopDepth

def vsetId (mg : MiniGraphIR) : ℤ := mg.vertices.id

def vintId (mg : MiniGraphIR) : ℤ := mg.intersect.id

/-- `operator==`, which does not compare ids. -/
def same (l r : MiniGraphIR) : Bool :=
  l.intersect.same r.intersect && l.vertices.same r.vertices

/-- `operator<`. -/
def less (l r : MiniGraphIR) : Bool :=
  if r.same l then false
  else if l.vertices.less r.vertices then true
  else if r.vertices.less l.vertices then false
  else l.intersect.less r.intersect

def isSupersetOfSets (t : AdjMatType) (mg : MiniGraphIR) (vertices intersect : VertexSetIR) : Bool :=
  mg.vertices.isSupersetOf t vertices && mg.intersect.isSupersetOf t intersect

def isSupersetOf (t : AdjMatType) (l r : MiniGraphIR) : Bool :=
  l.isSupersetOfSets t r.vertices r.intersect

/-- `computed`: the set is the mini-graph's intersect part cut with the neighbours of one more
vertex. -/
def computed (t : AdjMatType) (mg : MiniGraphIR) (vertices intersect : VertexSetIR) : Bool :=
  let flag := mg.isSupersetOfSets t vertices intersect
    && decide ((intersect.loopDepth : ℤ) - mg.intersect.loopDepth = 1)
    && decide ((intersect.edgeNum : ℤ) - mg.intersect.edgeNum = 1)
  if !flag then false
  else
    (List.range (mg.intersect.loopDepth + 1)).all fun i =>
      !(mg.intersect.isEdge i != intersect.isEdge i)
        && !(mg.intersect.isRestricted i != intersect.isRestricted i)

end MiniGraphIR

/-- `MetaData`, as far as the generators read it. -/
structure MetaData where
  numVertex : ℕ := 0
  numEdge : ℕ := 0
  numTriangle : ℕ := 0
  maxDegree : ℕ := 0
  maxOffset : ℕ := 0
  maxTriangle : ℕ := 0
deriving DecidableEq, Repr

structure PlanIR where
  adjMatType : AdjMatType
  pSize : ℕ
  iepNum : ℕ := 0
  iepDepth : ℕ := 0
  iepRedundancy : ℤ := 0
  metaData : MetaData := {}
  iepVals : List ℤ := []
  iepGroups : List (List (List ℕ)) := []
  setOps : List (List VertexSetIR)
  iterSet : List VertexSetIR
  mgOps : List (List MiniGraphIR) := []
  mgUsed : List (List MiniGraphIR) := []
  mgBounded : ℤ → Bool := fun _ => true
  iepSet : List VertexSetIR := []

/-- The last element that passes a test, as a loop that overwrites its result finds it. -/
def lastMatch {α : Type} (test : α → Bool) (l : List α) : Option α :=
  l.foldl (fun out x => if test x then some x else out) none

namespace PlanIR

variable (plan : PlanIR)

def ops (dep : ℕ) : List VertexSetIR := plan.setOps.getD dep []

def iter (dep : ℕ) : VertexSetIR := plan.iterSet.getD dep {}

def mgs (dep : ℕ) : List MiniGraphIR := plan.mgOps.getD dep []

def used (dep : ℕ) : List MiniGraphIR := plan.mgUsed.getD dep []

/-- The first loop of `get_parent_vset`: the same set without the restriction at its own depth. -/
def isSibling (op vset : VertexSetIR) : Bool :=
  op.isSupersetOf plan.adjMatType vset
    && op.id != vset.id
    && op.edgeNum == vset.edgeNum
    && decide ((vset.restrictNum : ℤ) - op.restrictNum = 1)
    && vset.isRestricted vset.loopDepth
    && !op.isRestricted vset.loopDepth

/-- `get_parent_vset(vset, dep)`. -/
def getParentVsetAt (vset : VertexSetIR) (dep : ℕ) : Option VertexSetIR :=
  if 0 < vset.loopDepth then
    (plan.ops dep).foldl
      (fun out op =>
        if op.isSupersetOf plan.adjMatType vset && op.id != vset.id
            && out.all (fun o => o.isSupersetOf plan.adjMatType op) then some op
        else out)
      none
  else none

/-- `get_parent_vset(vset)`: a sibling at the same depth, else the prefix one depth above. -/
def getParentVset (vset : VertexSetIR) : Option VertexSetIR :=
  match (plan.ops vset.loopDepth).find? fun op => plan.isSibling op vset with
  | some op => some op
  | none => plan.getParentVsetAt vset (vset.loopDepth - 1)

def isBounded (mg : MiniGraphIR) : Bool := plan.mgBounded mg.id

/-- `get_parent_mg(intersect)`. Both branches of the innermost test of the source assign, so the
last superset wins. -/
def getParentMg (intersect : VertexSetIR) : Option MiniGraphIR :=
  if intersect.loopDepth = 0 then none
  else if plan.adjMatType ≠ .vertexInduced && !intersect.isEdge intersect.loopDepth then none
  else
    let vertices := plan.iter (intersect.loopDepth - 1)
    lastMatch (fun mg => mg.isSupersetOfSets plan.adjMatType vertices intersect)
      ((List.range intersect.loopDepth).flatMap plan.mgs)

/-- `get_parent_mg(child)`: a bounded mini-graph serves bounded ones only. -/
def getParentMgOf (child : MiniGraphIR) : Option MiniGraphIR :=
  lastMatch
    (fun parent =>
      parent.isSupersetOf plan.adjMatType child && parent.id != child.id
        && !(plan.isBounded parent && !plan.isBounded child))
    ((List.range (child.loopDepth + 1)).flatMap plan.mgs)

def isLastOp (op : VertexSetIR) : Bool := op.loopDepth + 2 == plan.pSize

def getSerialLoop : ℕ :=
  if plan.iepNum ≤ 1 then max 1 (plan.pSize - 2) else max 1 (plan.pSize - plan.iepNum - 1)

/-- The last loop depth with operations: the inclusion-exclusion plans stop early. -/
def maxDep : ℕ := min (plan.pSize - 2) (plan.pSize - plan.iepNum - 1)

end PlanIR

end GraphMini
