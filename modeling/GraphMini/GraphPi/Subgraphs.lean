import GraphMini.GraphPi.Counts
import GraphMini.Lib.Copies

/-!
# Maps of a pattern and subgraphs

The maps that a program looks for are the labelled copies of the pattern in the data graph, the induced ones in
the vertex-induced mode. With the automorphisms counted out they are the subgraphs isomorphic to the pattern.
-/

namespace GraphMini

namespace GraphPi

open Equiv SimpleGraph

/-- `G` is the data graph, with the vertices under other names. -/
structure Names (g : GraphMini.Graph) {V : Type} (G : SimpleGraph V) where
  number : V ≃ Fin g.numVertex
  adj_iff : ∀ v w, G.Adj v w ↔ g.Adj (number v) (number w)

/-- What a mode counts: the subgraphs isomorphic to the pattern, or the sets of vertices that induce such a
graph. -/
noncomputable def subgraphCount (t : AdjMatType) {V W : Type} [Fintype V] (G : SimpleGraph V)
    (H : SimpleGraph W) : ℕ :=
  if t = .vertexInduced then Copies.inducedCopyCount G H else G.copyCount H

section

variable {adjMat : List Char} {size : ℕ} (hpattern : IsPattern adjMat size)

include hpattern

/-- The automorphisms of the matrix are those of the graph. -/
theorem card_automorphisms_eq : Nat.card ((patternOf adjMat).automorphisms size)
    = Nat.card (patternGraph adjMat size ≃g patternGraph adjMat size) := by
  apply Nat.card_congr
  refine ⟨fun β => ⟨β.1, ?_⟩, fun e => ⟨e.toEquiv, fun i j => ?_⟩, fun β => ?_, fun e => ?_⟩
  · intro i j
    rw [hpattern.adj_iff, hpattern.adj_iff]
    exact (β.2 i j).symm
  · have h := e.map_rel_iff (a := i) (b := j)
    rw [hpattern.adj_iff, hpattern.adj_iff] at h
    exact h.symm
  · rfl
  · rfl

variable {g : GraphMini.Graph} {V : Type} {G : SimpleGraph V} (names : Names g G)

include names

/-- A map into the data graph, in the names of the vertices. -/
theorem number_mem_maps {t : AdjMatType} {f : Fin size → V} :
    (fun i => (names.number (f i) : ℕ)) ∈ maps t g size (patternOf adjMat)
      ↔ Function.Injective f ∧ (∀ i j, (patternGraph adjMat size).Adj i j → G.Adj (f i) (f j))
        ∧ (t = .vertexInduced → ∀ i j, G.Adj (f i) (f j) → (patternGraph adjMat size).Adj i j) := by
  have hmark : ∀ i j : Fin size, (patternGraph adjMat size).Adj i j ↔ marked size (patternOf adjMat).adjMat i j :=
    fun i j => hpattern.adj_iff
  have hinj : Function.Injective (fun i => (names.number (f i) : ℕ)) ↔ Function.Injective f := by
    constructor
    · exact fun h i j heq => h (by simp only [heq])
    · exact fun h i j heq => h (names.number.injective (Fin.ext heq))
  rw [mem_maps]
  constructor
  · rintro ⟨-, h⟩
    refine ⟨hinj.mp h.injective, fun i j hij => ?_, fun ht i j hij => ?_⟩
    · rw [names.adj_iff]
      exact h.edge i j ((hmark i j).mp hij)
    · rw [names.adj_iff] at hij
      by_contra hnone
      rw [hmark] at hnone
      refine h.nonEdge ht i j (fun heq => ?_) hnone hij
      subst heq
      exact absurd ((names.adj_iff _ _).mpr hij) G.irrefl
  · rintro ⟨hf, hedge, hnonEdge⟩
    refine ⟨fun i => (names.number (f i)).isLt, hinj.mpr hf, fun i j hij => ?_, fun ht i j _ hnone hadj => ?_⟩
    · exact (names.adj_iff _ _).mp (hedge i j ((hmark i j).mpr hij))
    · exact hnone ((hmark i j).mp (hnonEdge ht i j ((names.adj_iff _ _).mpr hadj)))

omit hpattern in
/-- Each map has a name. -/
theorem exists_number {t : AdjMatType} {sc : GraphMini.Schedule} {f : Fin size → ℕ} (hf : f ∈ maps t g size sc) :
    ∃ f' : Fin size → V, (fun i => (names.number (f' i) : ℕ)) = f := by
  have hlt := (mem_maps.mp hf).1
  refine ⟨fun i => names.number.symm ⟨f i, hlt i⟩, ?_⟩
  funext i
  rw [Equiv.apply_symm_apply]

/-- The maps of the edge-induced modes are the labelled copies. -/
theorem card_maps_copy {t : AdjMatType} (ht : t ≠ .vertexInduced) :
    (maps t g size (patternOf adjMat)).card = Nat.card (Copy (patternGraph adjMat size) G) := by
  rw [← Fintype.card_coe, ← Nat.card_eq_fintype_card]
  symm
  apply Nat.card_congr
  apply Equiv.ofBijective fun c : Copy (patternGraph adjMat size) G =>
    ⟨fun i => (names.number (c i) : ℕ), (number_mem_maps hpattern names).mpr
      ⟨c.injective, fun i j hij => c.toHom.map_adj hij, fun hv => absurd hv ht⟩⟩
  constructor
  · intro c c' heq
    ext i
    have hi := congrFun (Subtype.ext_iff.mp heq) i
    exact names.number.injective (Fin.ext hi)
  · rintro ⟨f, hf⟩
    obtain ⟨f', rfl⟩ := exists_number names hf
    obtain ⟨hinj, hedge, -⟩ := (number_mem_maps hpattern names).mp hf
    exact ⟨⟨⟨f', fun {i j} => hedge i j⟩, hinj⟩, rfl⟩

/-- The maps of the vertex-induced mode are the embeddings. -/
theorem card_maps_embedding :
    (maps .vertexInduced g size (patternOf adjMat)).card = Nat.card (patternGraph adjMat size ↪g G) := by
  rw [← Fintype.card_coe, ← Nat.card_eq_fintype_card]
  symm
  apply Nat.card_congr
  apply Equiv.ofBijective fun c : patternGraph adjMat size ↪g G =>
    ⟨fun i => (names.number (c i) : ℕ), (number_mem_maps hpattern names).mpr
      ⟨c.injective, fun i j hij => c.map_rel_iff.mpr hij, fun _ i j hij => c.map_rel_iff.mp hij⟩⟩
  constructor
  · intro c c' heq
    ext i
    have hi := congrFun (Subtype.ext_iff.mp heq) i
    exact names.number.injective (Fin.ext hi)
  · rintro ⟨f, hf⟩
    obtain ⟨f', rfl⟩ := exists_number names hf
    obtain ⟨hinj, hedge, hnonEdge⟩ := (number_mem_maps hpattern names).mp hf
    exact ⟨⟨⟨f', hinj⟩, fun {i j} => ⟨hnonEdge rfl i j, hedge i j⟩⟩, rfl⟩

/-- The maps are the subgraphs, each with the automorphisms of the pattern. -/
theorem card_maps_eq_mul [Fintype V] (t : AdjMatType) :
    (maps t g size (patternOf adjMat)).card
      = Nat.card ((patternOf adjMat).automorphisms size) * subgraphCount t G (patternGraph adjMat size) := by
  rw [card_automorphisms_eq hpattern, subgraphCount]
  by_cases ht : t = .vertexInduced
  · rw [if_pos ht, ht, card_maps_embedding hpattern names, Copies.card_embedding_eq]
  · rw [if_neg ht, card_maps_copy hpattern names ht, Copies.labelledCopyCount_eq]

end

end GraphPi

end GraphMini
