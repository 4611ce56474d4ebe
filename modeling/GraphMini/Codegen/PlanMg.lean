import GraphMini.Codegen.Emit
import GraphMini.Codegen.Scope

/-!
# Planning mini-graphs

`create_plan_mg` of `codegen/codegen.cpp`: which mini-graphs the loops build, at which depths they
are read, and which of them may leave out the larger ids.
-/

namespace GraphMini

open StdAlgorithm

/-- `IndeedUsed` and `mg_bounded`, by the ids of the mini-graphs. -/
structure MgMarks where
  indeedUsed : ℤ → Bool := fun _ => false
  bounded : ℤ → Bool := fun _ => true

section

variable (plan : PlanIR) (cfg : CodeGenConfig)

/-- The mini-graph that could be built at `pruneDep` for an operation of `compDep`. -/
def mgOp (compDep : ℕ) (vset : VertexSetIR) (pruneDep : ℕ) : Option MiniGraphIR :=
  if plan.adjMatType ≠ .vertexInduced && !vset.isEdge compDep then none
  else do
    let intersect ← plan.getParentVsetAt vset pruneDep
    let vertices ← plan.getParentVsetAt (plan.iter (compDep - 1)) pruneDep
    let mg : MiniGraphIR := { vertices, intersect }
    -- without a set that can be read from it right away, `Static` does not prune
    if cfg.pruningType = .static
        && !(plan.ops (pruneDep + 1)).any (mg.computed plan.adjMatType (plan.iter pruneDep)) then
      none
    else some mg

/-- The mini-graphs of `pruneDep`, as they are pushed. -/
def mgCandidates (pruneDep : ℕ) : List MiniGraphIR :=
  (List.range' (pruneDep + 2) (plan.maxDep + 1 - (pruneDep + 2))).reverse.flatMap fun compDep =>
    (plan.ops compDep).filterMap fun vset => mgOp plan cfg compDep vset pruneDep

/-- The mini-graphs of every depth, sorted, without duplicates and numbered. -/
def planMgs : List (List MiniGraphIR) :=
  numberOps (fun mg id => { mg with id }) 0
    ((List.range plan.pSize).map fun pruneDep =>
      unique MiniGraphIR.same (insertionSort MiniGraphIR.less (mgCandidates plan cfg pruneDep)))

/-- One operation: the mini-graph it reads is used. Only the first operation of a depth that reads
the mini-graph has a say in whether it may be bounded. -/
def markOp (s : MgMarks × List MiniGraphIR) (op : VertexSetIR) : MgMarks × List MiniGraphIR :=
  match plan.getParentMg op with
  | none => s
  | some mg =>
      let marks := { s.1 with indeedUsed := Function.update s.1.indeedUsed mg.id true }
      if s.2.any fun m => m.id == mg.id then (marks, s.2)
      else
        let bounded := marks.bounded mg.id && op.isRestricted op.loopDepth
        ({ marks with bounded := Function.update marks.bounded mg.id bounded }, s.2 ++ [mg])

/-- The operations of one depth. -/
def markDepth (s : MgMarks × List (List MiniGraphIR)) (dep : ℕ) :
    MgMarks × List (List MiniGraphIR) :=
  let out := (plan.ops dep).foldl (markOp plan) (s.1, [])
  (out.1, s.2 ++ [out.2])

/-- The operations of all depths from 1 on. -/
def markOps : MgMarks × List (List MiniGraphIR) :=
  (List.range' 1 plan.maxDep).foldl (markDepth plan) ({}, [[]])

/-- A mini-graph that is used makes the one it is built from used. -/
def markParent (marks : MgMarks) (child : MiniGraphIR) : MgMarks :=
  if marks.indeedUsed child.id then
    match { plan with mgBounded := marks.bounded }.getParentMgOf child with
    | none => marks
    | some parent =>
        let bounded := marks.bounded parent.id && marks.bounded child.id
        { indeedUsed := Function.update marks.indeedUsed parent.id true
          bounded := Function.update marks.bounded parent.id bounded }
  else marks

/-- The mini-graphs of all depths, from the last depth on. -/
def markParents (marks : MgMarks) : MgMarks :=
  ((List.range (plan.maxDep + 1)).reverse.flatMap plan.mgs).foldl (markParent plan) marks

end

/-- The loop that erases the mini-graphs nobody uses. Its iterator also steps over the mini-graph
after an erased one, and after an erased last one it leaves the vector for good. -/
def eraseUnused (indeedUsed : ℤ → Bool) : List MiniGraphIR → Option (List MiniGraphIR)
  | [] => some []
  | mg :: rest =>
      if indeedUsed mg.id then (mg :: ·) <$> eraseUnused indeedUsed rest
      else
        match rest with
        | [] => none
        | next :: rest => (next :: ·) <$> eraseUnused indeedUsed rest

/-- `create_plan_mg`; the behaviour of a plan without a result is undefined. -/
def createPlanMg (plan : PlanIR) (cfg : CodeGenConfig) : Option PlanIR := do
  let out := { plan with mgOps := planMgs plan cfg }
  let (marks, mgUsed) := markOps out
  let marks := markParents out marks
  return { out with
    mgOps := ← out.mgOps.mapM (eraseUnused marks.indeedUsed)
    mgUsed
    mgBounded := marks.bounded }

/-- The plan that `gen_code` hands to the generators. -/
def genPlan (sort : List VertexSetIR → List VertexSetIR) (sc : Schedule) (cfg : CodeGenConfig)
    (metaData : MetaData) : Except String (Option PlanIR) := do
  let plan ← createPlan sort sc cfg.adjMatType metaData
  return if cfg.pruningType = .none then some plan else createPlanMg plan cfg

/-- A plan whose sets were sorted by insertion, and its program, which the compiler takes. -/
structure Compiled (sc : Schedule) (cfg : CodeGenConfig) where
  plan : PlanIR
  prog : OmpProgram
  planned : genPlan (StdAlgorithm.insertionSort VertexSetIR.less) sc cfg {} = .ok (some plan)
  emitted : genCodeOmp plan cfg = .ok prog
  closed : prog.Closed

def compile (sc : Schedule) (cfg : CodeGenConfig) : Option (Compiled sc cfg) :=
  match hplan : genPlan (StdAlgorithm.insertionSort VertexSetIR.less) sc cfg {} with
  | .ok (some plan) =>
      match hprog : genCodeOmp plan cfg with
      | .ok prog => if hclosed : prog.Closed then some ⟨plan, prog, hplan, hprog, hclosed⟩ else none
      | .error _ => none
  | _ => none

end GraphMini
