import GraphMini.Codegen.Emit
import GraphMini.Codegen.Scope

/-!
# The nested programs

`gen_code_nested` writes one class `Loop<k>` for every loop that may run in parallel. A class has the
variables of the loops outside that its body takes as members, and `gen_code_tbb_call` hands them over.
-/

namespace GraphMini

/-- `push_back` of an element whose id is not there yet. -/
def pushNew {α : Type} (getId : α → ℤ) (l : List α) (a : α) : List α :=
  if l.any fun b => getId b == getId a then l else l ++ [a]

section

variable (plan : PlanIR) (cfg : CodeGenConfig)

/-- `gen_used_mg`: the mini-graphs from outside that are read at this depth or below it, and those that
the mini-graphs of this depth are built from. -/
def genUsedMg (loop : ℕ) : List MiniGraphIR :=
  if cfg.pruningType ≠ .none && decide (0 < loop) then
    let used := (List.range' loop (plan.pSize - 1 - loop)).flatMap plan.used
    let parents := (plan.mgs loop).filterMap plan.getParentMgOf
    ((used ++ parents).filter fun mg => decide (mg.loopDepth < loop)).foldl
      (pushNew MiniGraphIR.id) []
  else []

/-- `gen_used_set`: the prefixes that the operations of this depth are cut from, without the set that
is iterated. -/
def genUsedSet (loop : ℕ) : List VertexSetIR :=
  if 0 < loop then
    let iter := plan.iter (loop - 1)
    let parents := (plan.ops loop).filterMap fun set => plan.getParentVsetAt set (loop - 1)
    (parents.filter fun parent => parent.id != iter.id).foldl (pushNew VertexSetIR.id) []
  else []

/-- `gen_used_adj`: all adjacency lists from outside as soon as one operation needs them. -/
def genUsedAdj (loop : ℕ) : List ℕ :=
  if decide (0 < loop) && (List.range' loop (plan.pSize - 1 - loop)).any fun i =>
      (plan.ops i).any fun set => (plan.getParentVsetAt set (loop - 1)).isNone then
    List.range loop
  else []

/-- The indices into mini-graphs that are looked up before the loop starts. -/
def genUsedIndices (loop : ℕ) (iter : VertexSetIR) : List MiniGraphIR :=
  (plan.used loop).filter fun mg => !skipBuildIndices mg iter

/-- `4 * avg_deg`, or 100 in a graph with hubs. Both divisions need a positive divisor. -/
def parallelSize : Option ℕ :=
  let factor := 4
  let avgDeg := plan.metaData.numEdge / plan.metaData.numVertex
  if plan.metaData.numVertex = 0 || avgDeg = 0 then none
  else if 100 < plan.metaData.maxDegree / avgDeg then some (min (factor * avgDeg) 100)
  else some (factor * avgDeg)

/-- `gen_code_tbb_call`, before the loop `loop`. -/
def genCodeTbbCall (loop : ℕ) : Option ParCall :=
  if plan.getSerialLoop ≤ loop then none
  else if cfg.parType ≠ .nested ∧ cfg.parType ≠ .nestedRt then none
  else
    let iter := plan.iter (loop - 1)
    some {
      test := if cfg.parType = .nested then .always
        else .sizeAbove iter.id ((parallelSize plan).getD 0)
      loop
      iter := iter.id
      args := (genUsedAdj plan loop).map .adj
        ++ (genUsedSet plan loop).map (fun set => .set set.id)
        ++ [.set iter.id]
        ++ (if cfg.pruningType ≠ .none then
            (genUsedIndices plan loop iter).map (fun mg => .mgIndices mg.id iter.id)
              ++ (genUsedMg plan cfg loop).map fun mg => .mg mg.id
          else []) }

/-- The members of `Loop<loop>`. -/
def genMembers (loop : ℕ) : List Decl :=
  let iter := if 0 < loop then plan.iter (loop - 1) else {}
  (genUsedAdj plan loop).map (fun dep => ⟨.vertexSet, .adj dep⟩)
    ++ (genUsedSet plan loop).map (fun set => ⟨.vertexSet, .set set.id⟩)
    ++ (if 0 < loop then [⟨.vertexSet, .set iter.id⟩] else [])
    ++ (if cfg.pruningType ≠ .none then
        (genUsedIndices plan loop iter).map (fun mg =>
            ⟨.managedContainer, .mgIndices mg.id iter.id⟩)
          ++ (genUsedMg plan cfg loop).map fun mg => ⟨.miniGraph (genMgType plan cfg mg), .mg mg.id⟩
      else [])

/-- `gen_code_tbb_loop`; without a result where the size test of a call divides by zero. -/
def genCodeTbbLoop (loop : ℕ) : Except String (Option LoopClass) := do
  let body ← genNest plan cfg (genCodeTbbCall plan cfg) (lastDep plan cfg - loop) loop
  let divides := cfg.parType = .nestedRt ∧ loop + 1 < plan.getSerialLoop
  return if divides ∧ parallelSize plan = none then none
    else some { members := genMembers plan cfg loop, body }

/-- `gen_code_nested`. The classes are written from the last one on, so that a class comes after the
one it calls. -/
def genCodeNested : Except String (Option NestedProgram) := do
  let loops ← (List.range plan.getSerialLoop).mapM (genCodeTbbLoop plan cfg)
  return loops.allSome.map fun loops =>
    { pSize := plan.pSize, iepRedundancy := plan.iepRedundancy, loops }

end

/-! ### What a class must not miss -/

/-- The declaration that a statement is. -/
def Stmt.decl : Stmt → Option Decl
  | .declId dep _ => some ⟨.idType, .id dep⟩
  | .declAdj dep => some ⟨.vertexSet, .adj dep⟩
  | .declMgAdj mg _ => some ⟨.vertexSet, .mgAdj mg⟩
  | .declSet id _ => some ⟨.vertexSet, .set id⟩
  | .declMg mg type _ => some ⟨.miniGraph type, .mg mg⟩
  | .declIndices mg setId => some ⟨.managedContainer, .mgIndices mg setId⟩
  | _ => none

/-- The mini-graph that a statement declares or builds. -/
def Stmt.changes : Stmt → Option ℤ
  | .declMg mg _ _ => some mg
  | .build mg _ _ _ _ => some mg
  | _ => none

namespace Block

/-- The statements of all loops. -/
def stmts : Block → List Stmt
  | .last stmts => stmts
  | .loop stmts _ _ _ body => stmts ++ body.stmts

def calls : Block → List ParCall
  | .last _ => []
  | .loop _ call _ _ body => call.toList ++ body.calls

end Block

namespace LoopClass

/-- The variable that the loop of `operator()` declares. -/
def loopVar : ℕ → Var
  | 0 => .id 0
  | loop + 1 => .idx (loop + 1)

/-- Every variable that `operator()` names is a member or has been declared before. -/
def SelfContained (cls : LoopClass) (loop : ℕ) : Prop :=
  ClosedBlock (loopVar loop :: cls.members.map Decl.var) cls.body

/-- What the class declares, as members or in `operator()`. -/
def decls (cls : LoopClass) : List Decl :=
  cls.members ++ cls.body.stmts.filterMap Stmt.decl

/-- The call hands over what the constructor of the other class takes, in order and with the types it
declares. -/
def Passes (cls : LoopClass) (call : ParCall) (target : LoopClass) : Prop :=
  call.args = target.members.map Decl.var ∧
    ∀ member ∈ target.members, ∀ d ∈ cls.decls, d.var = member.var → d.type = member.type

end LoopClass

instance (cls : LoopClass) (loop : ℕ) : Decidable (cls.SelfContained loop) := decidableClosedBlock _ _

instance (cls : LoopClass) (call : ParCall) (target : LoopClass) : Decidable (cls.Passes call target) :=
  inferInstanceAs (Decidable (_ ∧ _))

end GraphMini
