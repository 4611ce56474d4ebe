import Mathlib.Data.Finset.Range
import Mathlib.Tactic

/-!
# The intermediate representation of a vertex set

`VertexSetIR` of `codegen/ir.h` and `ir.cpp`. A bitset is the set of its bits. `adjMatType` is a
static member of the class; here it is an argument of the functions that read it.
-/

namespace GraphMini

inductive AdjMatType where
  | vertexInduced
  | edgeInduced
  | edgeInducedIEP
deriving DecidableEq, Repr

abbrev EdgeIR := Finset ℕ

abbrev EdgeRestrictIR := EdgeIR

structure VertexSetIR where
  edges : EdgeIR := ∅
  restricts : EdgeRestrictIR := ∅
  loopDepth : ℕ := 0
  id : ℤ := -1
deriving DecidableEq

namespace VertexSetIR

/-- The constructor: the bits up to the loop depth. -/
def cut (edges : EdgeIR) (restricts : EdgeRestrictIR) (loopDepth : ℕ) : VertexSetIR :=
  { edges := edges.filter (· ≤ loopDepth)
    restricts := restricts.filter (· ≤ loopDepth)
    loopDepth }

def edgeNum (v : VertexSetIR) : ℕ := v.edges.card

def restrictNum (v : VertexSetIR) : ℕ := v.restricts.card

def isEdge (v : VertexSetIR) (depth : ℕ) : Bool := decide (depth ∈ v.edges)

def isRestricted (v : VertexSetIR) (depth : ℕ) : Bool := decide (depth ∈ v.restricts)

def hasId (v : VertexSetIR) : Bool := v.id != -1

/-- `operator==`, which does not compare ids. -/
def same (l r : VertexSetIR) : Bool :=
  decide (l.edges = r.edges) && decide (l.restricts = r.restricts)
    && decide (l.loopDepth = r.loopDepth)

/-- The scans of `operator<`: the answer at the first position where the bitsets differ. -/
def scanLess (l r : ℕ → Bool) : List ℕ → Option Bool
  | [] => none
  | i :: is =>
      if l i && !r i then some false
      else if !l i && r i then some true
      else scanLess l r is

/-- `operator<`. -/
def less (l r : VertexSetIR) : Bool :=
  if l.loopDepth < r.loopDepth then true
  else if l.edgeNum < r.edgeNum then true
  else if l.restrictNum < r.restrictNum then true
  else
    match scanLess l.isEdge r.isEdge (List.range (l.loopDepth + 1)) with
    | some b => b
    | none =>
        (scanLess l.isRestricted r.isRestricted (List.range (l.loopDepth + 1))).getD false

def isSupersetOf (t : AdjMatType) (l r : VertexSetIR) : Bool :=
  if l.loopDepth > r.loopDepth then false
  else
    (List.range (l.loopDepth + 1)).all fun i =>
      if t = .vertexInduced then
        !((r.isEdge i != l.isEdge i) || (!r.isRestricted i && l.isRestricted i))
      else
        !((!r.isEdge i && l.isEdge i) || (!r.isRestricted i && l.isRestricted i))

def sameIepComputation (t : AdjMatType) (l r : VertexSetIR) : Bool :=
  match t with
  | .vertexInduced => false
  | _ =>
      (List.range (min r.loopDepth l.loopDepth + 1)).all fun i =>
        !(l.isEdge i != r.isEdge i || l.isRestricted i != r.isRestricted i)

end VertexSetIR

end GraphMini
