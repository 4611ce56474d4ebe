import GraphMini.Exec.Unpruned
import GraphMini.GraphPi.Counts

/-!
# The divisor of the inclusion-exclusion mode

The sets of the inclusion-exclusion mode keep the restrictions by the vertices before the last ones only, so
the program counts too many maps and the result is divided by the redundancy. With the stubs the redundancy
is one. Then the result is right in every graph whose counts are not too large exactly when the restrictions
that are kept imply all pairs.
-/

namespace GraphMini

namespace GraphPi

open Equiv SymmetryBreaking InclusionExclusion

section

variable {library : Graphmpi} {adjMat : List Char} {size : ℕ} {sc : Schedule}
  (h : Scheduled library adjMat size sc)

include h

end

section

variable {α : Type} (estimate : List ℕ → List (ℕ × ℕ) → α) (less : α → α → Bool) (metaData : MetaData)
  {cfg : CodeGenConfig} {adjMat : List Char} {size : ℕ}

end

section

variable {α : Type} (estimate : List ℕ → List (ℕ × ℕ) → α) (less : α → α → Bool) (library : Graphmpi)
  (metaData : MetaData) {cfg : CodeGenConfig} {adjMat : List Char} {size : ℕ}

end

theorem isPattern_fork : IsPattern "011100100".toList 3 := by
  refine ⟨by decide, by decide, by decide, digits_of_all (by decide), by decide, by decide⟩

theorem connected_fork : (patternGraph "011100100".toList 3).Connected := by
  rw [ConnectedOrder.connected_iff_exists_perm (by decide)]
  refine ⟨1, fun i hpos => ⟨0, hpos, ?_⟩⟩
  rw [patternGraph, SimpleGraph.fromRel_adj]
  refine ⟨fun heq => hpos.ne (congrArg Fin.val heq).symm, Or.inl ?_⟩
  revert i
  decide

end GraphPi

end GraphMini
