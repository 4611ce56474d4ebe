import GraphMini.Backend.VertexSetPool
import GraphMini.Backend.Workspace
import GraphMini.Exec.Always

/-!
# Running an emitted program with the pool

The meaning of the statements of `Codegen.Program` over `VertexSet` objects, for one thread and its pool.
The temporaries of a statement are destroyed at its end and the variables of a loop body when the body is
left, the youngest first. A mini-graph keeps copies of the sets that it is built from. The machine of the
classes knows what these held at the build, so a run in which one of them has changed when a mini-graph is
used has no meaning here.
-/

namespace GraphMini

/-- The set variables in scope, the youngest first, and the pool. -/
structure PoolPoint where
  vars : List (Var × SetObject)
  pool : VertexSetPool

/-- A point of a run inside one loop body. `ids` are the vertices, the loop indices and what has been looked
up in mini-graphs, `kept` the copies that the mini-graphs in scope keep with what they held at the build,
and `points` the points that the run has come to, the last one first. -/
structure PoolFrame (M : MgMachine) extends PoolPoint where
  ids : Env
  state : M.State
  kept : List (SetObject × VertexSet) := []
  counter : ℤ := 0
  points : List PoolPoint

/-- The state of a full expression: what it leaves behind until its end. -/
structure PoolEval where
  temporaries : List SetObject := []
  pool : VertexSetPool

variable {M : MgMachine}

namespace PoolFrame

variable (g : Graph)

/-- The values of the variables in scope. -/
def shows (f : PoolFrame M) : Env
  | .id dep => f.ids (.id dep)
  | .idx dep => f.ids (.idx dep)
  | .adj dep => (f.vars.lookup (.adj dep)).map (f.pool.contents g)
  | .set id => (f.vars.lookup (.set id)).map (f.pool.contents g)
  | .mg id => f.ids (.mg id)
  | .mgAdj id => (f.vars.lookup (.mgAdj id)).map (f.pool.contents g)
  | .mgIndices id setId => f.ids (.mgIndices id setId)

/-- What the mini-graphs keep holds what it held when they were built. -/
def KeepsSets (f : PoolFrame M) : Prop := ∀ k ∈ f.kept, f.pool.contents g k.1 = k.2

instance (f : PoolFrame M) : Decidable (f.KeepsSets g) :=
  inferInstanceAs (Decidable (∀ k ∈ f.kept, f.pool.contents g k.1 = k.2))

def reach (f : PoolFrame M) : PoolFrame M := { f with points := f.toPoolPoint :: f.points }

/-- Temporaries are destroyed, the youngest first. -/
def endStatement (f : PoolFrame M) : List SetObject → PoolFrame M
  | [] => f
  | s :: rest => ({ f with pool := f.pool.destroy s } : PoolFrame M).reach.endStatement rest

/-- The youngest variables are destroyed. -/
def endScope (f : PoolFrame M) : ℕ → PoolFrame M
  | 0 => f
  | n + 1 =>
      match f.vars with
      | [] => f
      | x :: rest =>
          ({ f with vars := rest, pool := f.pool.destroy x.2 } : PoolFrame M).reach.endScope n

end PoolFrame

/-- A variable is read by reference. A copy of it, which owns nothing, stands for the reference. -/
def readVar (f : PoolFrame M) (v : Var) : Option SetObject := (f.vars.lookup v).map SetObject.copy

/-- What an operator returns is a temporary for the operator that is applied to it. -/
def PoolEval.push (e : PoolEval) (s : SetObject) : PoolEval := { e with temporaries := s :: e.temporaries }

def evalPooled (g : Graph) (f : PoolFrame M) : SetExpr → PoolEval → Option (SetObject × PoolEval)
  | .set id, e => do return (← readVar f (.set id), e)
  | .adj dep, e => do return (← readVar f (.adj dep), e)
  | .mgAdj mg, e => do return (← readVar f (.mgAdj mg), e)
  | .intersect left right upper, e => do
      let (l, e) ← evalPooled g f left e
      let (r, e) ← evalPooled g f right (e.push l)
      let (s, pool) := e.pool.intersect g l r (← evalUpper (f.shows g) upper)
      return (s, { e.push r with pool })
  | .subtract left right upper, e => do
      let (l, e) ← evalPooled g f left e
      let (r, e) ← evalPooled g f right (e.push l)
      let (s, pool) := e.pool.subtract g l r (← evalUpper (f.shows g) upper)
      return (s, { e.push r with pool })
  | .bounded left upper, e => do
      let (l, e) ← evalPooled g f left e
      let (s, pool) := e.pool.bounded g l (← evalId (f.shows g) upper)
      return (s, { e.push l with pool })
  | .remove left id, e => do
      let (l, e) ← evalPooled g f left e
      let (s, pool) := e.pool.remove g l (← evalId (f.shows g) id)
      return (s, { e.push l with pool })

def cntPooled (g : Graph) (f : PoolFrame M) : CntExpr → PoolEval → Option (ℕ × PoolEval)
  | .size s, e => do
      let (s, e) ← evalPooled g f s e
      return (s.size, e.push s)
  | .intersectCnt left right upper, e => do
      let (l, e) ← evalPooled g f left e
      let (r, e) ← evalPooled g f right (e.push l)
      return ((e.pool.contents g l).intersectCnt (e.pool.contents g r)
        (← evalUpper (f.shows g) upper), e.push r)
  | .subtractCnt left right upper, e => do
      let (l, e) ← evalPooled g f left e
      let (r, e) ← evalPooled g f right (e.push l)
      return ((e.pool.contents g l).subtractCnt (e.pool.contents g r)
        (← evalUpper (f.shows g) upper), e.push r)
  | .boundedCnt left upper, e => do
      let (l, e) ← evalPooled g f left e
      return ((e.pool.contents g l).boundedCnt (← evalId (f.shows g) upper), e.push l)
  | .removeCnt left id, e => do
      let (l, e) ← evalPooled g f left e
      return ((e.pool.contents g l).removeCnt (← evalId (f.shows g) id), e.push l)

/-- The factors of a product, from the left to the right. -/
def cntsPooled (g : Graph) (f : PoolFrame M) : List CntExpr → PoolEval → Option (List ℕ × PoolEval)
  | [], e => some ([], e)
  | factor :: rest, e => do
      let (n, e) ← cntPooled g f factor e
      let (ns, e) ← cntsPooled g f rest e
      return (n :: ns, e)

/-- `VertexSet v = value;`. The result of an operator is the new object itself. -/
def PoolFrame.declare (f : PoolFrame M) (v : Var) (s : SetObject) (e : PoolEval) : PoolFrame M :=
  ({ f with vars := (v, s) :: f.vars, pool := e.pool } : PoolFrame M).reach.endStatement e.temporaries

/-- `counter += n;` -/
def PoolFrame.count (f : PoolFrame M) (n : ℤ) (e : PoolEval) : PoolFrame M :=
  ({ f with pool := e.pool, counter := f.counter + n } : PoolFrame M).reach.endStatement e.temporaries

def poolStmt (g : Graph) (path : List ℕ) (f : PoolFrame M) : Stmt → Option (Flow × PoolFrame M)
  | .declId dep iter => do
      let s ← f.vars.lookup (.set iter)
      let idx : ℕ ← f.ids (.idx dep)
      let id ← (f.pool.contents g s).data[idx]?
      return (.next, { f with ids := f.ids.set (.id dep) id })
  | .declAdj dep => do
      let id : ℕ ← f.ids (.id dep)
      return (.next, f.declare (.adj dep) (g.rowObject id) { pool := f.pool })
  | .declMgAdj mg index => do
      guard (f.KeepsSets g)
      let _ ← f.ids (.mg mg)
      let idx ← evalMgIndex f.ids mg index
      let (s, state) ← M.N f.state mg idx
      return (.next, ({ f with state } : PoolFrame M).declare (.mgAdj mg) s.entryObject { pool := f.pool })
  | .declSet id value => do
      let (s, e) ← evalPooled g f value { pool := f.pool }
      return (.next, f.declare (.set id) s e)
  | .continueIfEmpty id => do
      let s ← f.vars.lookup (.set id)
      return (if s.size = 0 then .skip else .next, f)
  | .count amount => do
      let (n, e) ← cntPooled g f amount { pool := f.pool }
      return (.next, f.count n e)
  | .countIep val factors => do
      let (ns, e) ← cntsPooled g f factors { pool := f.pool }
      return (.next, f.count (val * (ns.map Nat.cast).prod) e)
  | .declMg mg type bounded =>
      some (.next, { f with state := M.declare f.state mg type bounded, ids := f.ids.set (.mg mg) () })
  | .setReuseMultiplier mg summands => do
      let _ ← f.ids (.mg mg)
      let _ ← summands.mapM fun summand => summand.1.mapM fun id => f.vars.lookup (.set id)
      return (.next, f)
  | .build mg parent vset vint iter => do
      guard (f.KeepsSets g)
      let _ ← f.ids (.mg mg)
      let _ ← parent.mapM fun p => f.ids (.mg p)
      let vertex ← f.vars.lookup (.set vset)
      let intersect ← f.vars.lookup (.set vint)
      let iter ← f.vars.lookup (.set iter)
      let state ← M.build path f.state mg parent (f.pool.contents g vertex) (f.pool.contents g intersect)
        (f.pool.contents g iter)
      return (.next, { f with
        state
        kept := (vertex.copy, f.pool.contents g vertex) :: (intersect.copy, f.pool.contents g intersect)
          :: f.kept })
  | .declIndices mg setId => do
      guard (f.KeepsSets g)
      let _ ← f.ids (.mg mg)
      let s ← f.vars.lookup (.set setId)
      let indices ← M.indices path f.state mg (f.pool.contents g s)
      return (.next, { f with ids := f.ids.set (.mgIndices mg setId) indices })

def poolStmts (g : Graph) (path : List ℕ) : List Stmt → PoolFrame M → Option (Flow × PoolFrame M)
  | [], f => some (.next, f)
  | stmt :: rest, f => do
      match ← poolStmt g path f stmt with
      | (.next, f) => poolStmts g path rest f
      | (.skip, f) => return (.skip, f)

/-- A pass through a loop body is over. The mini-graphs that are built in a body are declared in it. -/
def PoolFrame.leave (outer inner : PoolFrame M) : PoolFrame M :=
  { inner.endScope (inner.vars.length - outer.vars.length) with
    ids := outer.ids
    state := M.leave inner.state fun mg => outer.ids.declared (.mg mg)
    kept := outer.kept }

def PoolFrame.declareIdx (f : PoolFrame M) (dep i : ℕ) : PoolFrame M :=
  { f with ids := f.ids.set (.idx dep) i }

def poolBlock (g : Graph) : Block → List ℕ → PoolFrame M → Option (PoolFrame M)
  | .last stmts, path, f => (poolStmts g path stmts f).map Prod.snd
  | .loop stmts _ dep iter body, path, f => do
      match ← poolStmts g path stmts f with
      | (.skip, f) => return f
      | (.next, f) =>
          let s ← f.vars.lookup (.set iter)
          (List.range s.size).foldlM
            (fun f (i : ℕ) => do
              return f.leave (← poolBlock g body (path ++ [i]) (f.declareIdx dep i)))
            f

/-- The iteration `i0_id = v` of the outermost loop begins without a set or a mini-graph in scope. -/
def PoolFrame.enter (f : PoolFrame M) (v : ℕ) : PoolFrame M :=
  { f with ids := Env.empty.set (.id 0) v, state := M.empty, kept := [] }

def poolVertex (g : Graph) (body : Block) (f : PoolFrame M) (v : ℕ) : Option (PoolFrame M) := do
  return (f.enter v).leave (← poolBlock g body [v] (f.enter v))

/-- A thread begins with an empty pool. -/
def PoolFrame.start (M : MgMachine) : PoolFrame M :=
  { vars := [], pool := {}, ids := Env.empty, state := M.empty, points := [{ vars := [], pool := {} }] }

/-- A thread runs its iterations one after the other with one pool. -/
def poolThread (M : MgMachine) (g : Graph) (prog : OmpProgram) (vs : List ℕ) : Option (PoolFrame M) :=
  vs.foldlM (poolVertex g prog.body) (PoolFrame.start M)

/-- No buffer that a set in scope points into is free. -/
def PoolPoint.Safe (p : PoolPoint) : Prop :=
  ∀ x ∈ p.vars, ∀ b ∈ x.2.data.toBuffer, b ∉ p.pool.bufferAvail

instance (p : PoolPoint) : Decidable p.Safe :=
  inferInstanceAs (Decidable (∀ x ∈ p.vars, ∀ b ∈ x.2.data.toBuffer, b ∉ p.pool.bufferAvail))

/-- The sets that are in scope at both points hold the same. -/
def PoolPoint.Keeps (g : Graph) (older newer : PoolPoint) : Prop :=
  ∀ x ∈ older.vars, x ∈ newer.vars → newer.pool.contents g x.2 = older.pool.contents g x.2

/-- At no point of a run a set in scope lies in a free buffer, and from one point to the next no set in
scope changes. -/
def PoolFrame.Undisturbed (g : Graph) (f : PoolFrame M) : Prop :=
  (∀ p ∈ f.points, p.Safe) ∧ f.points.IsChain fun newer older => older.Keeps g newer

end GraphMini
