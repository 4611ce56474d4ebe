import GraphMini.Ir.PlanIR
import GraphMini.Backend.MiniGraph

/-!
# The emitted programs

The generators write C++ text. A statement of that text is a value of `Stmt`, under the same variable
names. Loops open one inside the other and close together at the end, so a loop body is a list of
statements, then at most one call of a parallel region and the next loop.
-/

namespace GraphMini

/-- The variables `i<d>_id`, `i<d>_idx`, `i<d>_adj`, `s<k>`, `m<k>`, `m<k>_adj` and `m<k>_s<j>`. -/
inductive Var where
  | id (dep : ℕ)
  | idx (dep : ℕ)
  | adj (dep : ℕ)
  | set (id : ℤ)
  | mg (id : ℤ)
  | mgAdj (id : ℤ)
  | mgIndices (id setId : ℤ)
deriving DecidableEq, Repr

/-- Expressions of type `IdType`: `i<d>_id`, `i<d>_adj.vid()`, `m<k>_adj.vid()`. -/
inductive IdExpr where
  | id (dep : ℕ)
  | adjVid (dep : ℕ)
  | mgAdjVid (id : ℤ)
deriving DecidableEq, Repr

/-- Expressions of type `VertexSet`. -/
inductive SetExpr where
  | set (id : ℤ)
  | adj (dep : ℕ)
  | mgAdj (id : ℤ)
  | intersect (left right : SetExpr) (upper : Option IdExpr)
  | subtract (left right : SetExpr) (upper : Option IdExpr)
  | bounded (left : SetExpr) (upper : IdExpr)
  | remove (left : SetExpr) (id : IdExpr)
deriving DecidableEq, Repr

/-- Expressions of type `size_t`. -/
inductive CntExpr where
  | size (s : SetExpr)
  | intersectCnt (left right : SetExpr) (upper : Option IdExpr)
  | subtractCnt (left right : SetExpr) (upper : Option IdExpr)
  | boundedCnt (left : SetExpr) (upper : IdExpr)
  | removeCnt (left : SetExpr) (id : IdExpr)
deriving DecidableEq, Repr

/-- The index a mini-graph is read at: the loop's own, or the one looked up for it. -/
inductive MgIndex where
  | direct (dep : ℕ)
  | lookup (setId : ℤ) (dep : ℕ)
deriving DecidableEq, Repr

inductive Stmt where
  /-- `const IdType i<dep>_id = s<iter>[i<dep>_idx];` -/
  | declId (dep : ℕ) (iter : ℤ)
  /-- `VertexSet i<dep>_adj = graph->N(i<dep>_id);` -/
  | declAdj (dep : ℕ)
  /-- `VertexSet m<id>_adj = m<id>.N(index);` -/
  | declMgAdj (id : ℤ) (index : MgIndex)
  /-- `VertexSet s<id> = value;` -/
  | declSet (id : ℤ) (value : SetExpr)
  /-- `if (s<id>.size() == 0) continue;` -/
  | continueIfEmpty (id : ℤ)
  /-- `counter += amount;` -/
  | count (amount : CntExpr)
  /-- `counter += <val>ll * factor * ...;` -/
  | countIep (val : ℤ) (factors : List CntExpr)
  /-- `<type> m<id>(bounded, false);` -/
  | declMg (id : ℤ) (type : MgType) (bounded : Bool)
  /-- `m<id>_factor += s<..>.size() * ... * <multiplier>;` for each summand, then
  `m<id>.set_reuse_multiplier(m<id>_factor);`. The rates between the sizes are doubles and only
  steer `should_prune`. -/
  | setReuseMultiplier (id : ℤ) (summands : List (List ℤ × ℕ))
  /-- `m<id>.build(&m<parent>, s<vset>, s<vint>, s<iter>);`, without the parent where there is
  none. -/
  | build (id : ℤ) (parent : Option ℤ) (vset vint iter : ℤ)
  /-- `auto m<id>_s<setId> = m<id>.indices(s<setId>);` -/
  | declIndices (id setId : ℤ)
deriving DecidableEq, Repr

/-- The test before a parallel region: `if (true)` or a comparison with the size of the set that the
region runs over. -/
inductive ParTest where
  | always
  | sizeAbove (setId : ℤ) (bound : ℕ)
deriving DecidableEq, Repr

/-- `if (test) { tbb::parallel_for(..., Loop<loop>(ctx, args), ...); continue; }` over the indices of
`s<iter>`. -/
structure ParCall where
  test : ParTest
  loop : ℕ
  iter : ℤ
  args : List Var
deriving DecidableEq, Repr

/-- A loop body. `loop` ends in `for (size_t i<dep>_idx = 0; i<dep>_idx < s<iter>.size(); ...)`. -/
inductive Block where
  | last (stmts : List Stmt)
  | loop (stmts : List Stmt) (call : Option ParCall) (dep : ℕ) (iter : ℤ) (body : Block)
deriving DecidableEq, Repr

/-- What `gen_code_omp` writes: the body of `for (IdType i0_id = 0; ...)` and the divisor. -/
structure OmpProgram where
  pSize : ℕ
  iepRedundancy : ℤ
  body : Block
deriving DecidableEq, Repr

inductive VarType where
  | idType
  | vertexSet
  | managedContainer
  | miniGraph (type : MgType)
deriving DecidableEq, Repr

/-- A declaration with its type. -/
structure Decl where
  type : VarType
  var : Var
deriving DecidableEq, Repr

/-- A class `Loop<k>`: its members in the order of the constructor's arguments, and the body of the
loop in `operator()`. -/
structure LoopClass where
  members : List Decl
  body : Block
deriving DecidableEq, Repr

/-- What `gen_code_nested` writes: the classes `Loop0`, `Loop1`, ... -/
structure NestedProgram where
  pSize : ℕ
  iepRedundancy : ℤ
  loops : List LoopClass
deriving DecidableEq, Repr

end GraphMini
