import GraphMini.GraphPi.Subgraphs
import GraphMini.Preprocess.Triangles

/-!
# From the texts to the count

The data graph comes from the lines of a text, the program from the matrix of the pattern. What its threads count
together are subgraphs of the graph of the lines.
-/

namespace GraphMini

namespace GraphPi

open Equiv SymmetryBreaking

section

variable {edges : List (ℕ × ℕ)}

end

section

variable {edges : List (ℕ × ℕ)} {text : List Char} (hread : readEdges {} (Text.lines text) = some edges)
  (hlen : (vertexIds edges).length < 2 ^ 32 - 1)

include hread hlen

end

/-! ### The count -/

section

variable {α : Type} (estimate : List ℕ → List (ℕ × ℕ) → α) (less : α → α → Bool) (library : Graphmpi) (mmap : Bool)
  {cfg : CodeGenConfig} {edges : List (ℕ × ℕ)} {text : List Char} {adjMat : List Char} {size : ℕ}

end

end GraphPi

end GraphMini
