import GraphMini.Exec.PoolCounts
import GraphMini.GraphPi.GetSchedule

/-!
# What is counted with the schedule of a pattern

The program that is generated for a pattern runs in the order of the schedule, and counts the maps of the
pattern all the same, where its threads keep their sets and buffers. With the library the pairs leave one map
of each class of automorphic maps, unless no set of pairs is kept for the order. With the stubs any set is
kept, and some maps may be left out.
-/

namespace GraphMini

namespace GraphPi

open Equiv SymmetryBreaking

/-- The pattern as it is given, with nothing to restrict it. -/
def patternOf (adjMat : List Char) : GraphMini.Schedule := { adjMat, restrictPair := [] }

section

variable {t : AdjMatType} {g : GraphMini.Graph} {sc : GraphMini.Schedule} {adjMat : List Char} {size : ℕ}
  {σ : Perm (Fin size)}

/-- The maps are about the matrix. -/
theorem maps_of_adjMat {sc' : GraphMini.Schedule} (heq : sc'.adjMat = sc.adjMat) :
    maps t g size sc' = maps t g size sc := by
  have hmaps : ∀ f : Fin size → ℕ, Maps t g size sc' f ↔ Maps t g size sc f := by
    intro f
    constructor
    · exact fun h => ⟨h.injective, heq ▸ h.edge, heq ▸ h.nonEdge⟩
    · exact fun h => ⟨h.injective, heq.symm ▸ h.edge, heq.symm ▸ h.nonEdge⟩
  ext f
  rw [mem_maps, mem_maps, hmaps]

/-- Another order of the pattern vertices has as many maps. -/
theorem card_maps_reorder (heq : sc.adjMat = reorder adjMat size (vecOf σ)) :
    (maps t g size sc).card = (maps t g size (patternOf adjMat)).card := by
  have hmarked : ∀ i j : Fin size, marked size sc.adjMat i j ↔ marked size adjMat (σ i) (σ j) := by
    intro i j
    rw [heq]
    exact marked_reorder i j
  apply Finset.card_bij' (fun f _ => f ∘ σ.symm) (fun f _ => f ∘ σ)
  · intro f hf
    obtain ⟨hlt, hmaps⟩ := mem_maps.mp hf
    refine mem_maps.mpr ⟨fun i => hlt _, hmaps.injective.comp σ.symm.injective, ?_, ?_⟩
    · intro i j hmark
      apply hmaps.edge
      rwa [hmarked, σ.apply_symm_apply, σ.apply_symm_apply]
    · intro ht i j hne hmark
      apply hmaps.nonEdge ht
      · exact fun h => hne (σ.symm.injective h)
      · rwa [hmarked, σ.apply_symm_apply, σ.apply_symm_apply]
  · intro f hf
    obtain ⟨hlt, hmaps⟩ := mem_maps.mp hf
    refine mem_maps.mpr ⟨fun i => hlt _, hmaps.injective.comp σ.injective, ?_, ?_⟩
    · intro i j hmark
      exact hmaps.edge _ _ ((hmarked i j).mp hmark)
    · intro ht i j hne hmark
      apply hmaps.nonEdge ht
      · exact fun h => hne (σ.injective h)
      · exact fun h => hmark ((hmarked i j).mpr h)
  · intro f _
    funext i
    simp
  · intro f _
    funext i
    simp

/-- And as many automorphisms. -/
theorem card_automorphisms_reorder (heq : sc.adjMat = reorder adjMat size (vecOf σ)) :
    Nat.card (sc.automorphisms size) = Nat.card ((patternOf adjMat).automorphisms size) := by
  have hmarked : ∀ i j : Fin size, marked size sc.adjMat i j ↔ marked size adjMat (σ i) (σ j) := by
    intro i j
    rw [heq]
    exact marked_reorder i j
  have hforth : ∀ β ∈ sc.automorphisms size, σ * β * σ⁻¹ ∈ (patternOf adjMat).automorphisms size := by
    intro β hβ i j
    have h := hβ (σ.symm i) (σ.symm j)
    rw [hmarked, hmarked, σ.apply_symm_apply, σ.apply_symm_apply] at h
    exact h
  have hback : ∀ β ∈ (patternOf adjMat).automorphisms size, σ⁻¹ * β * σ ∈ sc.automorphisms size := by
    intro β hβ i j
    rw [hmarked, hmarked]
    have h : marked size adjMat (σ i) (σ j) ↔ marked size adjMat (β (σ i)) (β (σ j)) := hβ (σ i) (σ j)
    simpa using h
  apply Nat.card_congr
  refine ⟨fun β => ⟨σ * β * σ⁻¹, hforth β β.2⟩, fun β => ⟨σ⁻¹ * β * σ, hback β β.2⟩, fun β => ?_, fun β => ?_⟩
  · apply Subtype.ext
    simp [mul_assoc]
  · apply Subtype.ext
    simp [mul_assoc]

/-- The pairs that follow from others may be left out. -/
theorem LeavesOne.eraseImplied {restricts : List (ℕ × ℕ)} {fuel : ℕ} (h : LeavesOne sc size restricts) :
    LeavesOne sc size (eraseImplied fuel 0 restricts) := by
  obtain ⟨hbelow, δ, hδ⟩ := h
  refine ⟨hbelow.sublist eraseImplied_sublist, δ, fun β hβ => ?_⟩
  apply (hδ β hβ).imp_right
  intro hexcluded τ hτ hτβ
  exact hexcluded τ ((obeysAll_eraseImplied hbelow).mp hτ) ((obeysAll_eraseImplied hbelow).mp hτβ)

theorem oneRepresentative_eraseImplied {restricts : List (ℕ × ℕ)} (hbelow : Below size restricts)
    (heq : sc.restrictPair = eraseImplied restricts.length 0 restricts) :
    sc.OneRepresentative size
      ↔ ({ sc with restrictPair := restricts } : GraphMini.Schedule).OneRepresentative size := by
  apply forall_congr'
  intro τ
  have hpairs : ∀ f : Fin size → Fin size, Obeys sc.Pair f
      ↔ Obeys ({ sc with restrictPair := restricts } : GraphMini.Schedule).Pair f := by
    intro f
    have hsame : ObeysAll (eraseImplied restricts.length 0 restricts) f ↔ ObeysAll restricts f :=
      obeysAll_eraseImplied hbelow
    rw [← heq] at hsame
    exact hsame
  constructor
  · rintro ⟨β, ⟨hβ, hobeys⟩, hunique⟩
    exact ⟨β, ⟨hβ, (hpairs _).mp hobeys⟩, fun γ hγ => hunique γ ⟨hγ.1, (hpairs _).mpr hγ.2⟩⟩
  · rintro ⟨β, ⟨hβ, hobeys⟩, hunique⟩
    exact ⟨β, ⟨hβ, (hpairs _).mpr hobeys⟩, fun γ hγ => hunique γ ⟨hγ.1, (hpairs _).mp hγ.2⟩⟩

end

section

variable {library : Graphmpi} {adjMat : List Char} {size : ℕ} {sc : Schedule}
  (h : Scheduled library adjMat size sc) (hsize : size ≤ 12)

include h

/-- The planner can work with the schedule. -/
theorem Scheduled.inOrder : sc.toSchedule.InOrder size := by
  have hconnected : sc.toSchedule.Connected size := h.size_eq ▸ h.built.connected
  exact ⟨hconnected.three_le, hconnected.le_maxSize, hconnected.length, hconnected.symm, hconnected.loopless,
    hconnected.connected, h.size_eq ▸ h.built.below⟩

section

variable {t : AdjMatType} {g : GraphMini.Graph} {kept : List (List (ℕ × ℕ))}
  (hkept : restrictsGenerate library sc.adjMat size = some kept)

include hkept hsize

/-- The pairs that were chosen leave at most one of each class, or there are none. -/
theorem Scheduled.leavesOne :
    kept = [] ∧ sc.restrictPair = [] ∨ kept ≠ [] ∧ LeavesOne sc.toSchedule size sc.restrictPair := by
  obtain ⟨kept', restricts, hkept', hmem, -, heq⟩ := h.pairs
  obtain rfl := Option.some_injective _ (hkept'.symm.trans hkept)
  rw [heq]
  rcases hmem with hmem | ⟨hempty, rfl⟩
  · obtain ⟨kept'', hkept'', hleaves⟩ := exists_restrictsGenerate h.inOrder.connects hsize library
    obtain rfl := Option.some_injective _ (hkept''.symm.trans hkept)
    exact Or.inr ⟨List.ne_nil_of_mem hmem, (hleaves restricts hmem).eraseImplied⟩
  · exact Or.inl ⟨hempty, rfl⟩

theorem Scheduled.card_embeddings_eq (hrep : kept = [] ∨ sc.toSchedule.OneRepresentative size) :
    (if kept = [] then 1 else Nat.card ((patternOf adjMat).automorphisms size))
      * (embeddings t g size sc.toSchedule).card = (maps t g size (patternOf adjMat)).card := by
  obtain ⟨σ, horder, -⟩ := h.order
  rw [← card_maps_reorder horder, ← card_automorphisms_reorder horder]
  rcases h.leavesOne hsize hkept with ⟨hempty, hnone⟩ | ⟨hne, -⟩
  · rw [if_pos hempty, one_mul, GraphMini.card_embeddings_eq]
    congr 1
    apply Finset.filter_true_of_mem
    intro f _ a b hab
    rw [hnone] at hab
    exact absurd hab List.not_mem_nil
  · rw [if_neg hne]
    exact card_mul_embeddings_eq (hrep.resolve_left hne)

end

/-- One program is generated for all graphs, and it counts the embeddings in the order of the schedule. -/
theorem Scheduled.counts (metaData : MetaData) {sort : List VertexSetIR → List VertexSetIR} {cfg : CodeGenConfig}
    (hsort : SortsOps sort (sc.toSchedule.edge size) (sc.toSchedule.restrict size) size)
    (hcfg : cfg.pruningType = .none) (ht : cfg.adjMatType ≠ .edgeInducedIEP) :
    ∃ plan prog, createPlan sort sc.toSchedule cfg.adjMatType metaData = .ok plan
      ∧ genCodeOmp plan cfg = .ok prog
      ∧ ∀ g : GraphMini.Graph, g.Valid →
        prog.Counts g (embeddings cfg.adjMatType g size sc.toSchedule).card := by
  have hsc := h.inOrder
  have hplan : createPlan sort sc.toSchedule cfg.adjMatType metaData = .ok _ :=
    createPlan_eq hsort.permutes hsc.connects ht
  obtain ⟨-, prog, hprog, -⟩ := closed_of_none hsc hsort hcfg hplan fun hiep => absurd hiep ht
  exact ⟨_, prog, hplan, hprog, fun g hg => counts_none hsc hsort hcfg ht hplan hprog hg⟩

end

/-! ### From the text of a pattern to the count -/

section

variable {α : Type} (estimate : List ℕ → List (ℕ × ℕ) → α) (less : α → α → Bool) (metaData : MetaData)
  {cfg : CodeGenConfig} {adjMat : List Char} {size : ℕ} (h : Schedulable adjMat size)
  (hcfg : cfg.pruningType = .none) (ht : cfg.adjMatType ≠ .edgeInducedIEP)

include h hcfg ht

end

theorem connected_triangle : (patternGraph "011101110".toList 3).Connected := by
  rw [ConnectedOrder.connected_iff_exists_perm (by decide)]
  refine ⟨1, fun i hpos => ⟨0, hpos, ?_⟩⟩
  rw [patternGraph, SimpleGraph.fromRel_adj]
  refine ⟨fun heq => hpos.ne (congrArg Fin.val heq).symm, Or.inl ?_⟩
  revert i
  decide

section

variable {α : Type} (estimate : List ℕ → List (ℕ × ℕ) → α) (less : α → α → Bool) (metaData : MetaData)
  {cfg : CodeGenConfig} {adjMat : List Char} {size : ℕ} (h : Schedulable adjMat size)
  (hcfg : cfg.pruningType = .none) (ht : cfg.adjMatType ≠ .edgeInducedIEP)

include h hcfg ht

end

end GraphPi

end GraphMini
