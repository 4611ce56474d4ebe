import Mathlib.Combinatorics.SimpleGraph.Copy
import Mathlib.SetTheory.Cardinal.Finite

/-!
# Labelled and unlabelled copies of a graph

A subgraph that is isomorphic to a graph is its image under as many maps as the graph has automorphisms. The
same is true of the vertex sets of its induced copies.
-/

namespace GraphMini

namespace Copies

open SimpleGraph

variable {V W : Type*} {G : SimpleGraph V} {H : SimpleGraph W}

/-- As many isomorphisms lead to an isomorphic graph as there are automorphisms. -/
theorem card_iso {X : Type*} {I : SimpleGraph X} (e : H ≃g I) : Nat.card (H ≃g I) = Nat.card (H ≃g H) := by
  apply Nat.card_congr
  refine ⟨fun f => f.trans e.symm, fun f => f.trans e, fun f => ?_, fun f => ?_⟩
  · ext x
    simp
  · ext x
    simp

section

variable {G' : G.Subgraph}

theorem toSubgraph_coeCopy (e : H ≃g G'.coe) : (G'.coeCopy.comp e.toCopy).toSubgraph = G' := by
  ext x y
  · rw [Copy.toSubgraph, Subgraph.map_verts]
    constructor
    · rintro ⟨w, -, rfl⟩
      exact (e w).2
    · intro hx
      exact ⟨e.symm ⟨x, hx⟩, trivial, congrArg Subtype.val (e.apply_symm_apply ⟨x, hx⟩)⟩
  · rw [Copy.toSubgraph, Subgraph.map_adj]
    constructor
    · rintro ⟨v, w, hvw, rfl, rfl⟩
      exact e.map_rel_iff.mpr hvw
    · intro hxy
      refine ⟨e.symm ⟨x, hxy.fst_mem⟩, e.symm ⟨y, hxy.snd_mem⟩, ?_, ?_, ?_⟩
      · exact e.symm.map_rel_iff.mpr hxy
      · exact congrArg Subtype.val (e.apply_symm_apply ⟨x, hxy.fst_mem⟩)
      · exact congrArg Subtype.val (e.apply_symm_apply ⟨y, hxy.snd_mem⟩)

/-- The copies on a subgraph are the isomorphisms to it. -/
theorem card_toSubgraph (e : H ≃g G'.coe) :
    Nat.card {f : Copy H G // f.toSubgraph = G'} = Nat.card (H ≃g H) := by
  rw [← card_iso e]
  symm
  apply Nat.card_congr
  apply Equiv.ofBijective fun e : H ≃g G'.coe => ⟨G'.coeCopy.comp e.toCopy, toSubgraph_coeCopy e⟩
  constructor
  · intro e₁ e₂ heq
    ext x
    have hx := DFunLike.congr_fun (Subtype.ext_iff.mp heq) x
    exact hx
  · rintro ⟨f, rfl⟩
    refine ⟨f.isoToSubgraph, Subtype.ext ?_⟩
    ext x
    rfl

end

section

variable {s : Set V}

theorem range_induce_comp (e : H ≃g G.induce s) :
    Set.range ((Embedding.induce s).comp e.toEmbedding : H ↪g G) = s := by
  ext x
  constructor
  · rintro ⟨w, rfl⟩
    exact (e w).2
  · intro hx
    exact ⟨e.symm ⟨x, hx⟩, congrArg Subtype.val (e.apply_symm_apply ⟨x, hx⟩)⟩

/-- The induced copies on a set of vertices are the isomorphisms to the graph that it induces. -/
theorem card_range (e : H ≃g G.induce s) :
    Nat.card {f : H ↪g G // Set.range f = s} = Nat.card (H ≃g H) := by
  rw [← card_iso e]
  symm
  apply Nat.card_congr
  apply Equiv.ofBijective
    fun e : H ≃g G.induce s => ⟨(Embedding.induce s).comp e.toEmbedding, range_induce_comp e⟩
  constructor
  · intro e₁ e₂ heq
    ext x
    have hx := DFunLike.congr_fun (Subtype.ext_iff.mp heq) x
    exact hx
  · rintro ⟨f, rfl⟩
    refine ⟨f.isoInduceRange, Subtype.ext ?_⟩
    ext x
    rfl

end

/-! ### Counting -/

/-- A map whose fibres have one size. -/
theorem card_eq_mul_card {α β : Type*} [Finite α] {f : α → β} {values : Finset β} {k : ℕ}
    (hmem : ∀ a, f a ∈ values) (hfibre : ∀ b ∈ values, Nat.card {a // f a = b} = k) :
    Nat.card α = k * values.card := by
  classical
  have := Fintype.ofFinite α
  calc Nat.card α = (Finset.univ : Finset α).card := by rw [Nat.card_eq_fintype_card, Finset.card_univ]
    _ = ∑ b ∈ values, (Finset.univ.filter fun a => f a = b).card :=
        Finset.card_eq_sum_card_fiberwise fun a _ => hmem a
    _ = ∑ b ∈ values, k := by
        apply Finset.sum_congr rfl
        intro b hb
        rw [← hfibre b hb, Nat.card_eq_fintype_card, Fintype.card_subtype]
    _ = k * values.card := by rw [Finset.sum_const, smul_eq_mul, mul_comm]

variable [Fintype V]

section

variable [Fintype W]

theorem finite_copy : Finite (Copy H G) := by
  classical
  infer_instance

/-- The labelled copies are the unlabelled ones, each with the automorphisms. -/
theorem labelledCopyCount_eq (G : SimpleGraph V) (H : SimpleGraph W) :
    Nat.card (Copy H G) = Nat.card (H ≃g H) * G.copyCount H := by
  classical
  have := finite_copy (G := G) (H := H)
  rw [copyCount]
  apply card_eq_mul_card (f := Copy.toSubgraph)
  · intro f
    exact Finset.mem_filter.mpr ⟨Finset.mem_univ _, ⟨f.isoToSubgraph⟩⟩
  · intro G' hG'
    obtain ⟨e⟩ := (Finset.mem_filter.mp hG').2
    exact card_toSubgraph e

end

/-- The number of vertex sets that induce a graph isomorphic to `H`. -/
noncomputable def inducedCopyCount (G : SimpleGraph V) (H : SimpleGraph W) : ℕ := by
  classical exact (Finset.univ.filter fun s : Finset V => Nonempty (H ≃g G.induce s)).card

theorem card_embedding_eq [Fintype W] (G : SimpleGraph V) (H : SimpleGraph W) :
    Nat.card (H ↪g G) = Nat.card (H ≃g H) * inducedCopyCount G H := by
  classical
  have : Finite (H ↪g G) := DFunLike.finite _
  rw [inducedCopyCount]
  apply card_eq_mul_card (f := fun f : H ↪g G => Finset.univ.image f)
  · intro f
    refine Finset.mem_filter.mpr ⟨Finset.mem_univ _, ?_⟩
    rw [Finset.coe_image, Finset.coe_univ, Set.image_univ]
    exact ⟨f.isoInduceRange⟩
  · intro s hs
    obtain ⟨e⟩ := (Finset.mem_filter.mp hs).2
    rw [← card_range e]
    apply Nat.card_congr
    apply Equiv.subtypeEquivRight
    intro f
    rw [← Finset.coe_inj, Finset.coe_image, Finset.coe_univ, Set.image_univ]

end Copies

end GraphMini
