import GraphMini.Codegen.Program

/-!
# Scopes

A program is closed if every occurrence of a variable comes after its declaration in the same loop
body or in one around it. Only then the emitted text compiles.
-/

namespace GraphMini

abbrev Scope : Type := List Var

def IdExpr.reads : IdExpr → List Var
  | .id dep => [.id dep]
  | .adjVid dep => [.adj dep]
  | .mgAdjVid mg => [.mgAdj mg]

def SetExpr.reads : SetExpr → List Var
  | .set id => [.set id]
  | .adj dep => [.adj dep]
  | .mgAdj mg => [.mgAdj mg]
  | .intersect left right upper => left.reads ++ right.reads ++ upper.toList.flatMap IdExpr.reads
  | .subtract left right upper => left.reads ++ right.reads ++ upper.toList.flatMap IdExpr.reads
  | .bounded left upper => left.reads ++ upper.reads
  | .remove left id => left.reads ++ id.reads

def CntExpr.reads : CntExpr → List Var
  | .size s => s.reads
  | .intersectCnt left right upper => left.reads ++ right.reads ++ upper.toList.flatMap IdExpr.reads
  | .subtractCnt left right upper => left.reads ++ right.reads ++ upper.toList.flatMap IdExpr.reads
  | .boundedCnt left upper => left.reads ++ upper.reads
  | .removeCnt left id => left.reads ++ id.reads

def MgIndex.reads (mg : ℤ) : MgIndex → List Var
  | .direct dep => [.idx dep]
  | .lookup setId dep => [.mgIndices mg setId, .idx dep]

namespace Stmt

/-- The variables that occur in a statement, apart from the one it declares. -/
def reads : Stmt → List Var
  | .declId dep iter => [.set iter, .idx dep]
  | .declAdj dep => [.id dep]
  | .declMgAdj mg index => .mg mg :: index.reads mg
  | .declSet _ value => value.reads
  | .continueIfEmpty id => [.set id]
  | .count amount => amount.reads
  | .countIep _ factors => factors.flatMap CntExpr.reads
  | .declMg _ _ _ => []
  | .setReuseMultiplier mg summands => .mg mg :: summands.flatMap fun summand => summand.1.map .set
  | .build mg parent vset vint iter =>
      .mg mg :: (parent.toList.map .mg ++ [.set vset, .set vint, .set iter])
  | .declIndices mg setId => [.mg mg, .set setId]

def declares : Stmt → Option Var
  | .declId dep _ => some (.id dep)
  | .declAdj dep => some (.adj dep)
  | .declMgAdj mg _ => some (.mgAdj mg)
  | .declSet id _ => some (.set id)
  | .declMg mg _ _ => some (.mg mg)
  | .declIndices mg setId => some (.mgIndices mg setId)
  | _ => none

end Stmt

/-- The scope after the statements. -/
def scopeAfter : Scope → List Stmt → Scope
  | scope, [] => scope
  | scope, stmt :: rest => scopeAfter (stmt.declares.toList ++ scope) rest

def ClosedStmts : Scope → List Stmt → Prop
  | _, [] => True
  | scope, stmt :: rest => stmt.reads ⊆ scope ∧ ClosedStmts (stmt.declares.toList ++ scope) rest

/-- A parallel region occurs where its test and its arguments stand. -/
def ParCall.reads (call : ParCall) : List Var :=
  (match call.test with
    | .always => []
    | .sizeAbove setId _ => [.set setId]) ++ .set call.iter :: call.args

def ClosedBlock : Scope → Block → Prop
  | scope, .last stmts => ClosedStmts scope stmts
  | scope, .loop stmts call dep iter body =>
      ClosedStmts scope stmts ∧ call.toList.flatMap ParCall.reads ⊆ scopeAfter scope stmts
        ∧ Var.set iter ∈ scopeAfter scope stmts
        ∧ ClosedBlock (.idx dep :: scopeAfter scope stmts) body

/-- The outermost loop declares `i0_id`. -/
def OmpProgram.Closed (prog : OmpProgram) : Prop := ClosedBlock [.id 0] prog.body

section Decidable

instance decidableClosedStmts : ∀ scope stmts, Decidable (ClosedStmts scope stmts)
  | _, [] => isTrue trivial
  | scope, stmt :: rest =>
      have := decidableClosedStmts (stmt.declares.toList ++ scope) rest
      inferInstanceAs (Decidable (stmt.reads ⊆ scope ∧ _))

instance decidableClosedBlock : ∀ scope block, Decidable (ClosedBlock scope block)
  | scope, .last stmts => decidableClosedStmts scope stmts
  | scope, .loop stmts call dep _ body =>
      have := decidableClosedBlock (.idx dep :: scopeAfter scope stmts) body
      inferInstanceAs (Decidable (ClosedStmts scope stmts ∧
        call.toList.flatMap ParCall.reads ⊆ scopeAfter scope stmts ∧ _ ∧ _))

instance (prog : OmpProgram) : Decidable prog.Closed := decidableClosedBlock _ _

end Decidable

/-! ### Sequences of statements -/

section

variable {scope scope' : Scope} {stmts stmts' : List Stmt}

theorem mem_scopeAfter {v : Var} :
    v ∈ scopeAfter scope stmts ↔ v ∈ scope ∨ ∃ stmt ∈ stmts, stmt.declares = some v := by
  induction stmts generalizing scope with
  | nil => simp [scopeAfter]
  | cons stmt rest ih =>
      rw [scopeAfter, ih]
      simp only [List.mem_append, Option.mem_toList, List.mem_cons, exists_eq_or_imp]
      tauto

theorem scopeAfter_append :
    scopeAfter scope (stmts ++ stmts') = scopeAfter (scopeAfter scope stmts) stmts' := by
  induction stmts generalizing scope with
  | nil => rfl
  | cons stmt rest ih => exact ih

theorem closedStmts_append :
    ClosedStmts scope (stmts ++ stmts') ↔
      ClosedStmts scope stmts ∧ ClosedStmts (scopeAfter scope stmts) stmts' := by
  induction stmts generalizing scope with
  | nil => simp [ClosedStmts, scopeAfter]
  | cons stmt rest ih =>
      rw [List.cons_append, ClosedStmts, ClosedStmts, ih, and_assoc]
      rfl

/-- More variables in scope do no harm. -/
theorem ClosedStmts.mono (h : ClosedStmts scope stmts) (hsub : scope ⊆ scope') :
    ClosedStmts scope' stmts := by
  induction stmts generalizing scope scope' with
  | nil => trivial
  | cons stmt rest ih =>
      exact ⟨fun v hv => hsub (h.1 hv),
        ih h.2 (List.append_subset.mpr ⟨List.subset_append_left _ _,
          fun v hv => List.mem_append_right _ (hsub hv)⟩)⟩

end

end GraphMini
