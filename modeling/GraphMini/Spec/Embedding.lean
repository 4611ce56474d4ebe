import GraphMini.Exec.NestSpec

/-!
# Embeddings of a pattern

What a plan is for: counting the maps from the vertices of the pattern to those of the data graph
that are injective, keep the restriction pairs, map edges to edges and, in a vertex induced plan,
non-edges to non-edges. Placing the vertices one after the other, each among its candidates, builds
exactly these maps.
-/

namespace GraphMini

section

variable (t : AdjMatType) (g : Graph) (pSize : ℕ) (sc : Schedule)

/-- `f` maps the pattern of the schedule into the graph. -/
structure Embeds (f : Fin pSize → ℕ) : Prop where
  injective : Function.Injective f
  restricted : ∀ a b : Fin pSize, (a.val, b.val) ∈ sc.restrictPair → f b < f a
  edge : ∀ i j : Fin pSize, marked pSize sc.adjMat i j → g.Adj (f i) (f j)
  nonEdge : t = .vertexInduced →
    ∀ i j : Fin pSize, i ≠ j → ¬ marked pSize sc.adjMat i j → ¬ g.Adj (f i) (f j)

instance : DecidablePred (Embeds t g pSize sc) := fun f =>
  decidable_of_iff
    (Function.Injective f ∧ (∀ a b : Fin pSize, (a.val, b.val) ∈ sc.restrictPair → f b < f a)
      ∧ (∀ i j : Fin pSize, marked pSize sc.adjMat i j → g.Adj (f i) (f j))
      ∧ (t = .vertexInduced →
        ∀ i j : Fin pSize, i ≠ j → ¬ marked pSize sc.adjMat i j → ¬ g.Adj (f i) (f j)))
    ⟨fun ⟨h₁, h₂, h₃, h₄⟩ => ⟨h₁, h₂, h₃, h₄⟩,
      fun h => ⟨h.injective, h.restricted, h.edge, h.nonEdge⟩⟩

/-- The embeddings of the pattern into the vertices of the graph. -/
def embeddings : Finset (Fin pSize → ℕ) :=
  (Fintype.piFinset fun _ => Finset.range g.numVertex).filter (Embeds t g pSize sc)

/-- `f` maps the pattern into the graph, whatever the restriction pairs. -/
structure Maps (f : Fin pSize → ℕ) : Prop where
  injective : Function.Injective f
  edge : ∀ i j : Fin pSize, marked pSize sc.adjMat i j → g.Adj (f i) (f j)
  nonEdge : t = .vertexInduced →
    ∀ i j : Fin pSize, i ≠ j → ¬ marked pSize sc.adjMat i j → ¬ g.Adj (f i) (f j)

instance : DecidablePred (Maps t g pSize sc) := fun f =>
  decidable_of_iff
    (Function.Injective f ∧ (∀ i j : Fin pSize, marked pSize sc.adjMat i j → g.Adj (f i) (f j))
      ∧ (t = .vertexInduced →
        ∀ i j : Fin pSize, i ≠ j → ¬ marked pSize sc.adjMat i j → ¬ g.Adj (f i) (f j)))
    ⟨fun ⟨h₁, h₂, h₃⟩ => ⟨h₁, h₂, h₃⟩, fun h => ⟨h.injective, h.edge, h.nonEdge⟩⟩

/-- The maps of the pattern into the vertices of the graph. -/
def maps : Finset (Fin pSize → ℕ) :=
  (Fintype.piFinset fun _ => Finset.range g.numVertex).filter (Maps t g pSize sc)

end

/-- The second vertex of every pair has the smaller value. -/
def Obeys {α : Type} [LT α] {pSize : ℕ} (pair : ℕ → ℕ → Prop) (f : Fin pSize → α) : Prop :=
  ∀ a b : Fin pSize, pair a b → f b < f a

instance {α : Type} [LinearOrder α] {pSize : ℕ} (pair : ℕ → ℕ → Prop) [∀ a b, Decidable (pair a b)] :
    DecidablePred (Obeys pair : (Fin pSize → α) → Prop) := fun f => by
  unfold Obeys
  infer_instance

variable {t : AdjMatType} {g : Graph} {pSize : ℕ} {sc : Schedule} {edge restrict : ℕ → Finset ℕ}

/-- The place of a vertex among those before it. -/
theorem getD_take_ofFn (f : Fin pSize → ℕ) (i j : Fin pSize) (hij : j < i) :
    (([] : List ℕ) ++ (List.ofFn f).take i.val).getD j.val 0 = f j := by
  rw [List.nil_append, List.getD_eq_getElem _ _ (by simp; omega)]
  simp

theorem completes_iff {f : Fin pSize → ℕ} :
    Completion.Completes (Admissible t g edge restrict) [] f ↔
      ∀ i : Fin pSize, f i < g.numVertex ∧ ∀ j : Fin pSize, j < i →
        Fits t g (edge i) (restrict i) j (f j) (f i) := by
  refine forall_congr' fun i => ?_
  have hlen : (([] : List ℕ) ++ (List.ofFn f).take i.val).length = i := by
    simp
  rw [Admissible, hlen, Candidate]
  refine and_congr_right fun _ => ⟨fun h j hj => ?_, fun h j hj => ?_⟩
  · have := h j hj
    rwa [getD_take_ofFn f i j hj] at this
  · have hlt : j < pSize := hj.trans i.isLt
    have := h ⟨j, hlt⟩ hj
    rwa [← getD_take_ofFn f i ⟨j, hlt⟩ hj] at this

theorem obeys_congr {α : Type} [LT α] {pair pair' : ℕ → ℕ → Prop} {f : Fin pSize → α}
    (h : ∀ a b : Fin pSize, pair a b ↔ pair' a b) : Obeys pair f ↔ Obeys pair' f := by
  apply forall₂_congr
  intro a b
  rw [h]

theorem embeds_iff {f : Fin pSize → ℕ} :
    Embeds t g pSize sc f ↔ Maps t g pSize sc f ∧ Obeys (fun a b => (a, b) ∈ sc.restrictPair) f := by
  constructor
  · intro h
    exact ⟨⟨h.injective, h.edge, h.nonEdge⟩, h.restricted⟩
  · rintro ⟨h, hpairs⟩
    exact ⟨h.injective, hpairs, h.edge, h.nonEdge⟩

/-- The maps built vertex by vertex are the maps of the pattern that keep the restrictions. -/
theorem maps_iff_completes (hsc : sc.Connected pSize) (hg : g.Valid)
    (hbelow : ∀ v < pSize, ∀ i ∈ restrict v, i < v) {f : Fin pSize → ℕ} (hf : ∀ i, f i < g.numVertex) :
    Maps t g pSize sc f ∧ Obeys (fun a b => a ∈ restrict b) f ↔
      Completion.Completes (Admissible t g (sc.edge pSize) restrict) [] f := by
  have hedge : ∀ i j : Fin pSize, j < i →
      (j.val ∈ sc.edge pSize i ↔ marked pSize sc.adjMat i j) := by
    intro i j hij
    have hpos : 0 < i.val := lt_of_le_of_lt (Nat.zero_le _) hij
    exact mem_toEdgeIR.trans ⟨fun h => h.2.2, fun h => ⟨hpos, j.isLt, h⟩⟩
  rw [completes_iff]
  constructor
  · rintro ⟨h, hobeys⟩ i
    refine ⟨hf i, fun j hj => ⟨?_, ?_, ?_, ?_⟩⟩
    · exact fun heq => hj.ne' (h.injective heq)
    · exact fun hmem => h.edge j i (hsc.symm i i.isLt j j.isLt ((hedge i j hj).mp hmem))
    · intro ht hmem hadj
      refine h.nonEdge ht i j hj.ne' (fun hmark => hmem ((hedge i j hj).mpr hmark)) ?_
      exact hg.symm _ (hf j) _ hadj
    · exact fun hmem => hobeys j i hmem
  · intro h
    have hfits : ∀ i j : Fin pSize, j < i →
        Fits t g (sc.edge pSize i) (restrict i) j (f j) (f i) := fun i j => (h i).2 j
    refine ⟨⟨?_, ?_, ?_⟩, ?_⟩
    · intro i j heq
      rcases lt_trichotomy i j with hlt | rfl | hlt
      · exact absurd heq.symm (hfits j i hlt).1
      · rfl
      · exact absurd heq (hfits i j hlt).1
    · intro i j hmark
      rcases lt_trichotomy i j with hlt | rfl | hlt
      · exact (hfits j i hlt).2.1
          ((hedge j i hlt).mpr (hsc.symm i i.isLt j j.isLt hmark))
      · exact absurd hmark (hsc.loopless i i.isLt)
      · exact hg.symm _ (hf j) _ ((hfits i j hlt).2.1 ((hedge i j hlt).mpr hmark))
    · intro ht i j hne hmark hadj
      rcases lt_or_gt_of_ne hne with hlt | hlt
      · refine (hfits j i hlt).2.2.1 ht (fun hmem => hmark ?_) hadj
        exact hsc.symm j j.isLt i i.isLt ((hedge j i hlt).mp hmem)
      · refine (hfits i j hlt).2.2.1 ht (fun hmem => hmark ((hedge i j hlt).mp hmem)) ?_
        exact hg.symm _ (hf i) _ hadj
    · intro a b hmem
      exact (hfits b a (hbelow b b.isLt a hmem)).2.2.2 hmem

theorem mem_maps {f : Fin pSize → ℕ} :
    f ∈ maps t g pSize sc ↔ (∀ i, f i < g.numVertex) ∧ Maps t g pSize sc f := by
  rw [maps, Finset.mem_filter, Fintype.mem_piFinset]
  simp only [Finset.mem_range]

theorem card_embeddings_eq : (embeddings t g pSize sc).card
    = ((maps t g pSize sc).filter (Obeys fun a b => (a, b) ∈ sc.restrictPair)).card := by
  congr 1
  ext f
  rw [embeddings, Finset.mem_filter, Finset.mem_filter, mem_maps, embeds_iff, Fintype.mem_piFinset]
  simp only [Finset.mem_range, and_assoc]

/-- The maps are counted by placing one vertex after the other. -/
theorem card_maps (hsc : sc.Connected pSize) (hg : g.Valid) (hbelow : ∀ v < pSize, ∀ i ∈ restrict v, i < v) :
    ((maps t g pSize sc).filter (Obeys fun a b => a ∈ restrict b)).card
      = extensions t g (sc.edge pSize) restrict pSize [] := by
  rw [extensions, ← Completion.card_completions]
  congr 1
  ext f
  rw [Finset.mem_filter, mem_maps, Completion.mem_completions, and_assoc]
  simp only [Finset.mem_range]
  apply and_congr_right
  intro hf
  exact maps_iff_completes hsc hg hbelow hf

variable (hsc : sc.InOrder pSize)

include hsc

/-- What the pairs ask for is what their closure asks for. -/
theorem obeys_restrict_iff {α : Type} [Preorder α] {f : Fin pSize → α} :
    Obeys (fun a b => a ∈ sc.restrict pSize b) f ↔ Obeys (fun a b => (a, b) ∈ sc.restrictPair) f := by
  have hcloses : Closes sc.restrictPair pSize (restrictsToStr sc.restrictPair pSize) :=
    closes_restrictsToStr fun pair hpair =>
      ⟨(hsc.restricts pair hpair).1.trans (hsc.restricts pair hpair).2,
        (hsc.restricts pair hpair).2⟩
  constructor
  · intro h a b hab
    obtain ⟨hlt, hb⟩ := hsc.restricts (a, b) hab
    exact h a b (mem_toRestrictIR.mpr ⟨by omega, a.isLt, hcloses.complete a b hab⟩)
  · intro h j i hmem
    obtain ⟨-, -, hmark⟩ := mem_toRestrictIR.mp hmem
    have hlt := lt_of_transGen (f := fun k => if hk : k < pSize then f ⟨k, hk⟩ else f i)
      (fun a b hab => ?_) (hcloses.sound i j i.isLt j.isLt hmark)
    · simpa using hlt
    · obtain ⟨hlt, hb⟩ := hsc.restricts (a, b) hab
      have ha : a < pSize := hlt.trans hb
      simpa [ha, hb] using h ⟨a, ha⟩ ⟨b, hb⟩ hab

/-- The embeddings are counted by placing one vertex after the other. -/
theorem card_embeddings (hg : g.Valid) :
    (embeddings t g pSize sc).card
      = extensions t g (sc.edge pSize) (sc.restrict pSize) pSize [] := by
  rw [card_embeddings_eq, ← card_maps hsc.connects hg fun v hv i => hsc.restrict_lt hv]
  congr 1
  apply Finset.filter_congr
  intro f _
  exact (obeys_restrict_iff hsc).symm

end GraphMini
