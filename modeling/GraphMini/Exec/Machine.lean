import GraphMini.Backend.Graph
import GraphMini.Codegen.Program

/-!
# Running an emitted program

The meaning of the statements of `Codegen.Program` over values: a `VertexSet` is its contents, so no
pool buffer is reused while it is still read. A program that reads a variable without a declaration,
or that fails an assertion of the mini-graph classes, has no result.

The mini-graph classes are a parameter: a state, and what declaring, building and reading a
mini-graph do to it. `path` is the position of the run: the vertex of the outermost loop and the
index of each loop below it.
-/

namespace GraphMini

/-- The mini-graph objects of a run. -/
structure MgMachine where
  State : Type
  empty : State
  /-- A declaration constructs the object afresh. -/
  declare : State → ℤ → MgType → Bool → State
  build : List ℕ → State → ℤ → Option ℤ → VertexSet → VertexSet → VertexSet → Option State
  /-- `N` may fill its entry, so it returns the state too. -/
  N : State → ℤ → ℕ → Option (VertexSet × State)
  indices : List ℕ → State → ℤ → VertexSet → Option (List ℕ)
  /-- The end of a scope destroys the objects declared in it. -/
  leave : State → (ℤ → Bool) → State

/-- No mini-graph is ever built: a program without pruning declares none. -/
def MgMachine.absent : MgMachine where
  State := Unit
  empty := ()
  declare := fun state _ _ _ => state
  build := fun _ _ _ _ _ _ _ => none
  N := fun _ _ _ => none
  indices := fun _ _ _ _ => none
  leave := fun state _ => state

/-- The type of a variable. -/
abbrev Var.Ty : Var → Type
  | .id _ => ℕ
  | .idx _ => ℕ
  | .adj _ => VertexSet
  | .set _ => VertexSet
  | .mg _ => Unit
  | .mgAdj _ => VertexSet
  | .mgIndices _ _ => List ℕ

/-- The variables in scope with their values; a mini-graph's value lies in the machine's state. -/
def Env : Type := (v : Var) → Option v.Ty

namespace Env

def empty : Env := fun _ => none

def set (env : Env) (v : Var) (value : v.Ty) : Env := Function.update env v (some value)

def declared (env : Env) (v : Var) : Bool := (env v).isSome

@[simp] theorem set_self (env : Env) (v : Var) (value : v.Ty) : env.set v value v = some value :=
  Function.update_self _ _ _

theorem set_of_ne (env : Env) {v w : Var} (value : v.Ty) (h : w ≠ v) : env.set v value w = env w :=
  Function.update_of_ne h _ _

end Env

def evalId (env : Env) : IdExpr → Option ℕ
  | .id dep => env (.id dep)
  | .adjVid dep => (env (.adj dep)).map VertexSet.vid
  | .mgAdjVid mg => (env (.mgAdj mg)).map VertexSet.vid

/-- An upper bound that is absent evaluates to no bound. -/
def evalUpper (env : Env) : Option IdExpr → Option (Option ℕ)
  | none => some none
  | some e => (evalId env e).map some

def evalSet (env : Env) : SetExpr → Option VertexSet
  | .set id => env (.set id)
  | .adj dep => env (.adj dep)
  | .mgAdj mg => env (.mgAdj mg)
  | .intersect left right upper => do
      return (← evalSet env left).intersect (← evalSet env right) (← evalUpper env upper)
  | .subtract left right upper => do
      return (← evalSet env left).subtract (← evalSet env right) (← evalUpper env upper)
  | .bounded left upper => do return (← evalSet env left).bounded (← evalId env upper)
  | .remove left id => do return (← evalSet env left).remove (← evalId env id)

def evalCnt (env : Env) : CntExpr → Option ℕ
  | .size s => do return (← evalSet env s).size
  | .intersectCnt left right upper => do
      return (← evalSet env left).intersectCnt (← evalSet env right) (← evalUpper env upper)
  | .subtractCnt left right upper => do
      return (← evalSet env left).subtractCnt (← evalSet env right) (← evalUpper env upper)
  | .boundedCnt left upper => do return (← evalSet env left).boundedCnt (← evalId env upper)
  | .removeCnt left id => do return (← evalSet env left).removeCnt (← evalId env id)

def evalMgIndex (env : Env) (mg : ℤ) : MgIndex → Option ℕ
  | .direct dep => env (.idx dep)
  | .lookup setId dep => do
      let indices : List ℕ ← env (.mgIndices mg setId)
      let idx : ℕ ← env (.idx dep)
      indices[idx]?

/-- A point of a run inside one loop body. -/
structure Frame (M : MgMachine) where
  env : Env
  state : M.State
  counter : ℤ := 0

/-- What a statement does next: the statement after it, or `continue`. -/
inductive Flow where
  | next
  | skip
deriving DecidableEq, Repr

variable {M : MgMachine}

namespace Frame

def declare (f : Frame M) (v : Var) (value : v.Ty) : Frame M := { f with env := f.env.set v value }

end Frame

def execStmt (g : Graph) (path : List ℕ) (f : Frame M) : Stmt → Option (Flow × Frame M)
  | .declId dep iter => do
      let s : VertexSet ← f.env (.set iter)
      let idx : ℕ ← f.env (.idx dep)
      let id ← s.data[idx]?
      return (.next, f.declare (.id dep) id)
  | .declAdj dep => do
      let id : ℕ ← f.env (.id dep)
      return (.next, f.declare (.adj dep) (g.N id))
  | .declMgAdj mg index => do
      let _ ← f.env (.mg mg)
      let idx ← evalMgIndex f.env mg index
      let (s, state) ← M.N f.state mg idx
      return (.next, { f with state, env := f.env.set (.mgAdj mg) s })
  | .declSet id value => do
      let s ← evalSet f.env value
      return (.next, f.declare (.set id) s)
  | .continueIfEmpty id => do
      let s : VertexSet ← f.env (.set id)
      return (if s.size = 0 then .skip else .next, f)
  | .count amount => do
      let n ← evalCnt f.env amount
      return (.next, { f with counter := f.counter + n })
  | .countIep val factors => do
      let ns ← factors.mapM (evalCnt f.env)
      return (.next, { f with counter := f.counter + val * (ns.map Nat.cast).prod })
  | .declMg mg type bounded =>
      some (.next, { f with
        state := M.declare f.state mg type bounded, env := f.env.set (.mg mg) () })
  | .setReuseMultiplier mg summands => do
      let _ ← f.env (.mg mg)
      let _ ← summands.mapM fun summand => summand.1.mapM fun id => f.env (.set id)
      return (.next, f)
  | .build mg parent vset vint iter => do
      let _ ← f.env (.mg mg)
      let _ ← parent.mapM fun p => f.env (.mg p)
      let vertex : VertexSet ← f.env (.set vset)
      let intersect : VertexSet ← f.env (.set vint)
      let iter : VertexSet ← f.env (.set iter)
      let state ← M.build path f.state mg parent vertex intersect iter
      return (.next, { f with state })
  | .declIndices mg setId => do
      let _ ← f.env (.mg mg)
      let s : VertexSet ← f.env (.set setId)
      let indices ← M.indices path f.state mg s
      return (.next, f.declare (.mgIndices mg setId) indices)

def execStmts (g : Graph) (path : List ℕ) : List Stmt → Frame M → Option (Flow × Frame M)
  | [], f => some (.next, f)
  | stmt :: rest, f => do
      match ← execStmt g path f stmt with
      | (.next, f) => execStmts g path rest f
      | (.skip, f) => return (.skip, f)

/-- After a pass through a loop body only what was declared outside of it is left. -/
def Frame.leave (outer inner : Frame M) : Frame M :=
  { env := outer.env
    state := M.leave inner.state fun mg => outer.env.declared (.mg mg)
    counter := inner.counter }

/-- A loop body run serially: the call of a parallel region, if there is one, is not taken. -/
def execBlock (g : Graph) : Block → List ℕ → Frame M → Option (Frame M)
  | .last stmts, path, f => (execStmts g path stmts f).map Prod.snd
  | .loop stmts _ dep iter body, path, f => do
      match ← execStmts g path stmts f with
      | (.skip, f) => return f
      | (.next, f) =>
          let s : VertexSet ← f.env (.set iter)
          (List.range s.size).foldlM
            (fun f (i : ℕ) => do
              let inner ← execBlock g body (path ++ [i]) (f.declare (.idx dep) i)
              return f.leave inner)
            f

/-- The iteration `i0_id = v` of the outermost loop. -/
def execVertex (M : MgMachine) (g : Graph) (body : Block) (v : ℕ) : Option ℤ := do
  let f : Frame M := { env := Env.empty.set (.id 0) v, state := M.empty }
  return (← execBlock g body [v] f).counter

/-- What the counters of the threads come to when `#pragma omp for` gives iteration `v` to thread `schedule v`. A
`long long` holds it up to a multiple of `2 ^ 64`. -/
def runOmp (M : MgMachine) (g : Graph) (prog : OmpProgram) {threads : ℕ}
    (schedule : ℕ → Fin threads) : Option (Fin threads → ℤ) := do
  let counts ← (List.range g.getVnum).mapM fun v => do
    return (schedule v, ← execVertex M g prog.body v)
  return fun thread => ((counts.filter fun c => c.1 = thread).map Prod.snd).sum

/-- What all iterations add. -/
def ompTotal (M : MgMachine) (g : Graph) (prog : OmpProgram) : Option ℤ :=
  ((List.range g.getVnum).mapM (execVertex M g prog.body)).map List.sum

end GraphMini
