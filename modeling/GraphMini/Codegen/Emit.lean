import GraphMini.Codegen.Plan
import GraphMini.Codegen.Program

/-!
# Code generation

The generators of `codegen/codegen.cpp` that both the sequential and the nested programs are built
from, and `gen_code_omp`. A generator that can end in a fatal `CHECK` returns its message.
-/

namespace GraphMini

inductive PruningType where
  | none
  | static
  | eager
  | online
  | costModel
deriving DecidableEq, Repr

inductive ParallelType where
  | openMP
  | tbbTop
  | nested
  | nestedRt
deriving DecidableEq, Repr

structure CodeGenConfig where
  adjMatType : AdjMatType := .vertexInduced
  pruningType : PruningType := .none
  parType : ParallelType := .openMP
deriving DecidableEq, Repr

/-- `gen_code_read_adj`: the adjacency list is read unless every operation of the depth has a
mini-graph. -/
def genCodeReadAdj (plan : PlanIR) (cfg : CodeGenConfig) (dep : ℕ) : List Stmt :=
  let noAdjNeeded :=
    if cfg.pruningType = .none then false
    else (plan.ops dep).all fun op => (plan.getParentMg op).isSome
  (if 0 < dep then [.declId dep (plan.iter (dep - 1)).id] else [])
    ++ (if !noAdjNeeded then [.declAdj dep] else [])

/-- The bound of an operation that is restricted at its own depth. -/
def upperBound (op : VertexSetIR) (upper : IdExpr) : Option IdExpr :=
  if op.isRestricted op.loopDepth then some upper else none

/-- One link of the chain that takes an earlier vertex out of a set without a parent. -/
def chainLink (t : AdjMatType) (op : VertexSetIR) (value : SetExpr) (subtractId : ℕ) : SetExpr :=
  if t = .vertexInduced then
    .subtract value (.adj subtractId)
      (if op.isRestricted subtractId then some (.adjVid subtractId) else none)
  else if op.isRestricted subtractId then .bounded value (.adjVid subtractId)
  else .remove value (.adjVid subtractId)

/-- The set of an operation whose only edge is at its own depth. -/
def chainExpr (t : AdjMatType) (op : VertexSetIR) : SetExpr :=
  let dep := op.loopDepth
  (List.range dep).foldl (chainLink t op)
    (if op.isRestricted dep then .bounded (.adj dep) (.id dep) else .adj dep)

/-- The set of an operation with a prefix one depth above. -/
def prefixExpr (t : AdjMatType) (op : VertexSetIR) (parentId : ℤ) : SetExpr :=
  let dep := op.loopDepth
  if op.isEdge dep then .intersect (.set parentId) (.adj dep) (upperBound op (.adjVid dep))
  else if t = .vertexInduced then
    .subtract (.set parentId) (.adj dep) (upperBound op (.adjVid dep))
  else if op.isRestricted dep then .bounded (.set parentId) (.adjVid dep)
  else .remove (.set parentId) (.adjVid dep)

/-- The counting form of `prefixExpr`. -/
def prefixCnt (t : AdjMatType) (op : VertexSetIR) (parentId : ℤ) : CntExpr :=
  let dep := op.loopDepth
  if op.isEdge dep then .intersectCnt (.set parentId) (.adj dep) (upperBound op (.adjVid dep))
  else if t = .vertexInduced then
    .subtractCnt (.set parentId) (.adj dep) (upperBound op (.adjVid dep))
  else if op.isRestricted dep then .boundedCnt (.set parentId) (.adjVid dep)
  else .removeCnt (.set parentId) (.adjVid dep)

/-- `gen_code_op`. -/
def genCodeOp (plan : PlanIR) (op : VertexSetIR) : Except String (List Stmt) :=
  let dep := op.loopDepth
  match plan.getParentVset op with
  | some parent => do
      check (decide (parent.loopDepth + 1 ≥ dep)) "Not optimal parent"
      if parent.loopDepth = dep then
        check (op.isRestricted dep) "Logic error (op is not restricted at loop_depth)"
        pure [.declSet op.id (.bounded (.set parent.id) (.id dep))]
      else if parent.loopDepth + 1 = dep then
        pure [if plan.isLastOp op then .count (prefixCnt plan.adjMatType op parent.id)
          else .declSet op.id (prefixExpr plan.adjMatType op parent.id)]
      else pure []
  | none => do
      check (op.edgeNum == 1 && op.isEdge dep)
        "Logic error: VertexSetIR should have one parent but get none"
      pure ([.declSet op.id (chainExpr plan.adjMatType op), .continueIfEmpty op.id]
        ++ (if plan.isLastOp op then [.count (.size (.set op.id))] else []))

def mgShouldEager (plan : PlanIR) (mg : MiniGraphIR) : Bool :=
  let nextVertices := plan.iter mg.loopDepth
  nextVertices.same mg.vertices
    && (plan.ops (mg.loopDepth + 1)).any fun nextIntersect =>
      mg.computed plan.adjMatType nextVertices nextIntersect

/-- `using MiniGraphType = ...`; a plan without pruning declares no mini-graph. -/
def miniGraphType : PruningType → MgType
  | .static => .lazy
  | .online => .online
  | .costModel => .costModel
  | _ => .eager

def genMgType (plan : PlanIR) (cfg : CodeGenConfig) (mg : MiniGraphIR) : MgType :=
  if mgShouldEager plan mg then .eager else miniGraphType cfg.pruningType

def genCodeMgInit (plan : PlanIR) (cfg : CodeGenConfig) (mg : MiniGraphIR) : Stmt :=
  .declMg mg.id (genMgType plan cfg mg) (plan.isBounded mg)

/-- The vertices of the mini-graph are the set iterated next, up to restrictions. -/
def skipBuildIndices (mg : MiniGraphIR) (iter : VertexSetIR) : Bool :=
  iter.loopDepth == mg.vertices.loopDepth
    && (List.range (iter.loopDepth + 1)).all fun i => iter.isEdge i == mg.vertices.isEdge i

def genCodeMgAdj (plan : PlanIR) (dep : ℕ) : List Stmt :=
  if dep = 0 then []
  else
    let iter := plan.iter (dep - 1)
    (plan.used dep).map fun mg =>
      .declMgAdj mg.id
        (if skipBuildIndices mg iter then .direct dep else .lookup iter.id dep)

def genCodeMgIndice (plan : PlanIR) (mg : MiniGraphIR) (dep : ℕ) : List Stmt :=
  let iter := plan.iter dep
  if skipBuildIndices mg iter then [] else [.declIndices mg.id iter.id]

/-- The sets whose sizes `gen_code_mg_est_visits` multiplies. -/
def genCodeMgEstVisits (plan : PlanIR) (mg : MiniGraphIR) (iterDep : ℕ) : List ℤ :=
  (plan.iter mg.loopDepth).id
    :: (List.range' (mg.loopDepth + 1) (iterDep - (mg.loopDepth + 1))).filterMap fun dep =>
      (plan.getParentVsetAt (plan.iter dep) mg.loopDepth).map VertexSetIR.id

/-- How many operations of a depth read a mini-graph that this one is a superset of. -/
def reuseMultiplier (plan : PlanIR) (mg : MiniGraphIR) (dep : ℕ) : ℕ :=
  (plan.ops dep).countP fun op =>
    (plan.getParentMg op).any fun parentMg =>
      mg.isSupersetOf plan.adjMatType parentMg || mg.same parentMg

/-- The summands of the reuse factor. -/
def reuseSummands (plan : PlanIR) (mg : MiniGraphIR) : List (List ℤ × ℕ) :=
  (List.range' (mg.loopDepth + 2) (plan.maxDep + 1 - (mg.loopDepth + 2))).filterMap fun dep =>
    let multiplier := reuseMultiplier plan mg dep
    if 0 < multiplier then some (genCodeMgEstVisits plan mg dep, multiplier) else none

/-- `gen_code_mg_build`. -/
def genCodeMgBuild (plan : PlanIR) (cfg : CodeGenConfig) (mg : MiniGraphIR) : List Stmt :=
  (if cfg.pruningType = .costModel && !mgShouldEager plan mg then
      [.setReuseMultiplier mg.id (reuseSummands plan mg)]
    else [])
    ++ [.build mg.id ((plan.getParentMgOf mg).map MiniGraphIR.id) mg.vsetId mg.vintId
        (plan.iter mg.loopDepth).id]

/-- `gen_code_mg_op`. -/
def genCodeMgOp (plan : PlanIR) (op : VertexSetIR) : Except String (List Stmt) :=
  match plan.getParentMg op with
  | none => genCodeOp plan op
  | some mg =>
      let dep := op.loopDepth
      match plan.getParentVset op with
      | none => .error "Logic error (find vset's pruned graph but not its parent)"
      | some parent => do
          let iter := plan.iter (dep - 1)
          let stmt ←
            if mg.computed plan.adjMatType iter op then do
              check (!plan.isLastOp op)
                "Logic error (vset should not be the last op if it can be read directly from a pruned graph)"
              pure (Stmt.declSet op.id
                (if op.isRestricted dep then .bounded (.mgAdj mg.id) (.id dep) else .mgAdj mg.id))
            else if op.isEdge dep then
              pure (if plan.isLastOp op then
                  .count (.intersectCnt (.set parent.id) (.mgAdj mg.id)
                    (upperBound op (.mgAdjVid mg.id)))
                else
                  .declSet op.id (.intersect (.set parent.id) (.mgAdj mg.id)
                    (upperBound op (.mgAdjVid mg.id))))
            else do
              check (decide (plan.adjMatType = .vertexInduced))
                "Logic error (EdgeInduced patterns does not require set subtraction)"
              pure (if plan.isLastOp op then
                  .count (.subtractCnt (.set parent.id) (.mgAdj mg.id)
                    (upperBound op (.mgAdjVid mg.id)))
                else
                  .declSet op.id (.subtract (.set parent.id) (.mgAdj mg.id)
                    (upperBound op (.mgAdjVid mg.id))))
          pure (stmt :: if plan.isLastOp op then [] else [.continueIfEmpty op.id])

/-- One block of a group: the size of the intersection of its sets, with a shortcut for two equal
ones. -/
def iepFactor (plan : PlanIR) (set : List ℕ) : CntExpr :=
  let iepSet (i : ℕ) := plan.iepSet.getD i {}
  match set with
  | [] => .size (.set (iepSet 0).id)
  | [i] => .size (.set (iepSet i).id)
  | [i, j] =>
      if (iepSet i).same (iepSet j) then .size (.set (iepSet i).id)
      else .intersectCnt (.set (iepSet i).id) (.set (iepSet j).id) none
  | i :: rest =>
      .intersectCnt
        (rest.dropLast.foldl (fun value j => .intersect value (.set (iepSet j).id) none)
          (.set (iepSet i).id))
        (.set (iepSet (rest.getLastD i)).id) none

def genCodeIep (plan : PlanIR) (groupId : ℕ) : Stmt :=
  .countIep (plan.iepVals.getD groupId 0)
    ((plan.iepGroups.getD groupId []).map (iepFactor plan))

/-- Whether the plan stops at `iep_depth` and counts by inclusion and exclusion there. -/
def usesIep (plan : PlanIR) (cfg : CodeGenConfig) : Bool :=
  decide (cfg.adjMatType = .edgeInducedIEP) && decide (1 < plan.iepNum)

/-- The operations of a depth. -/
def genOps (plan : PlanIR) (cfg : CodeGenConfig) (dep : ℕ) : Except String (List Stmt) := do
  let stmts ← (plan.ops dep).mapM fun op =>
    if cfg.pruningType = .none then genCodeOp plan op else genCodeMgOp plan op
  pure stmts.flatten

/-- The statements of a loop body with another loop below it. -/
def genLoopBody (plan : PlanIR) (cfg : CodeGenConfig) (dep : ℕ) : Except String (List Stmt) := do
  let ops ← genOps plan cfg dep
  if cfg.pruningType = .none then pure (genCodeReadAdj plan cfg dep ++ ops)
  else
    pure (genCodeReadAdj plan cfg dep ++ genCodeMgAdj plan dep ++ ops
      ++ ((plan.mgs dep).flatMap fun mg =>
          genCodeMgInit plan cfg mg :: genCodeMgBuild plan cfg mg)
      ++ ((plan.used (dep + 1)).flatMap fun mg => genCodeMgIndice plan mg dep))

/-- The statements of the innermost loop body. -/
def genLastBody (plan : PlanIR) (cfg : CodeGenConfig) (dep : ℕ) : Except String (List Stmt) := do
  let ops ← genOps plan cfg dep
  let iep :=
    if usesIep plan cfg then (List.range plan.iepGroups.length).map (genCodeIep plan) else []
  if cfg.pruningType = .none then pure (genCodeReadAdj plan cfg dep ++ ops ++ iep)
  else if usesIep plan cfg then
    pure (genCodeMgAdj plan dep ++ genCodeReadAdj plan cfg dep ++ ops ++ iep)
  else pure (genCodeReadAdj plan cfg dep ++ genCodeMgAdj plan dep ++ ops)

/-- The loop nest from `dep` on, with `remaining` loops below it. -/
def genNest (plan : PlanIR) (cfg : CodeGenConfig) (call : ℕ → Option ParCall) :
    ℕ → ℕ → Except String Block
  | 0, dep => return .last (← genLastBody plan cfg dep)
  | remaining + 1, dep => do
      let stmts ← genLoopBody plan cfg dep
      let body ← genNest plan cfg call remaining (dep + 1)
      return .loop stmts (call (dep + 1)) (dep + 1) (plan.iter dep).id body

/-- The depth of the innermost loop. -/
def lastDep (plan : PlanIR) (cfg : CodeGenConfig) : ℕ :=
  if usesIep plan cfg then plan.iepDepth else plan.pSize - 2

/-- `gen_code_omp`. -/
def genCodeOmp (plan : PlanIR) (cfg : CodeGenConfig) : Except String OmpProgram := do
  let body ← genNest plan cfg (fun _ => none) (lastDep plan cfg) 0
  return { pSize := plan.pSize, iepRedundancy := plan.iepRedundancy, body }

end GraphMini
