import GraphMini.Codegen.PlanMgSpec
import GraphMini.Ir.Order

/-!
# Sorting the operations of a depth

`create_plan` and `create_plan_mg` sort the operations of a depth, erase duplicates and number what is
left. Where `operator<` is a strict weak order the sorted list is what the later passes count on.
-/

namespace GraphMini

open VertexSetIR StdAlgorithm

/-- In a sorted list a set comes after the sibling it is cut from. -/
theorem siblingFirst_of_sorted {l : List VertexSetIR} (h : Sorted VertexSetIR.less l) :
    SiblingFirst l := by
  rintro l₁ v l₂ rfl hmem ⟨u, hu, hsame⟩
  obtain ⟨-, hres, hdep⟩ := same_iff.mp hsame
  have hlt : u.restrictNum < v.restrictNum := by
    rw [restrictNum, hres]
    exact Finset.card_lt_card (Finset.erase_ssubset hmem)
  have hless : u.less v = true := by
    rw [less_iff (show u.loopDepth = v.loopDepth from hdep)]
    exact Or.inr (Or.inl hlt)
  rcases List.mem_append.mp hu with hu | hu
  · exact ⟨u, hu, hsame⟩
  · rcases List.mem_cons.mp hu with rfl | hu
    · exact absurd hlt (lt_irrefl _)
    · have hnot := List.rel_of_pairwise_cons (List.pairwise_append.mp h).2.1 hu
      simp [hless] at hnot

/-- What the planner counts on when it sorts values of `S`: the order, one operation of each kind, an
id for each, and siblings first. -/
structure SortsWell (S : Set VertexSetIR) : Prop where
  order : StrictWeakOrderOn VertexSetIR.less VertexSetIR.same S
  noDuplicate : ∀ l sorted : List VertexSetIR, (∀ v ∈ l, v ∈ S) → sorted.Perm l →
    Sorted VertexSetIR.less sorted →
    (unique VertexSetIR.same sorted).Pairwise fun u v => u.same v = false
  ids : ∀ (sorted : List VertexSetIR) (nextId : ℕ),
    ((numberOps (fun op id => { op with id }) nextId
      [unique VertexSetIR.same sorted]).flatten.map VertexSetIR.id).Nodup
  siblingFirst : ∀ l sorted : List VertexSetIR, (∀ v ∈ l, v ∈ S) → sorted.Perm l →
    Sorted VertexSetIR.less sorted → SiblingFirst (unique VertexSetIR.same sorted)

/-- The same for the mini-graphs of a depth. -/
structure MgSortsWell (S : Set MiniGraphIR) : Prop where
  order : StrictWeakOrderOn MiniGraphIR.less MiniGraphIR.same S
  noDuplicate : ∀ l sorted : List MiniGraphIR, (∀ mg ∈ l, mg ∈ S) → sorted.Perm l →
    Sorted MiniGraphIR.less sorted →
    (unique MiniGraphIR.same sorted).Pairwise fun m m' => m.same m' = false
  ids : ∀ (sorted : List MiniGraphIR) (nextId : ℕ),
    ((numberOps (fun mg id => { mg with id }) nextId
      [unique MiniGraphIR.same sorted]).flatten.map MiniGraphIR.id).Nodup

theorem nodup_ids_numberOps {α : Type} {setId : α → ℤ → α} (getId : α → ℤ)
    (hid : ∀ a z, getId (setId a z) = z) (nextId : ℕ) (ls : List (List α)) :
    ((numberOps setId nextId ls).flatten.map getId).Nodup := by
  rw [map_numberOps getId hid]
  exact List.Nodup.map Nat.cast_injective List.nodup_range'

section

variable {dep : ℕ} {S : Set VertexSetIR} {T : Set MiniGraphIR}

theorem SortsWell.of_order (h : StrictWeakOrderOn VertexSetIR.less VertexSetIR.same S) :
    SortsWell S where
  order := h
  noDuplicate _ _ hl hperm hsorted :=
    h.pairwise_unique (fun v hv => hl v (hperm.mem_iff.mp hv)) hsorted
  ids _ _ := nodup_ids_numberOps _ (fun _ _ => rfl) _ _
  siblingFirst _ sorted _ _ hsorted :=
    siblingFirst_of_sorted (List.Pairwise.sublist (unique_sublist sorted) hsorted)

theorem MgSortsWell.of_order (h : StrictWeakOrderOn MiniGraphIR.less MiniGraphIR.same T) :
    MgSortsWell T where
  order := h
  noDuplicate _ _ hl hperm hsorted :=
    h.pairwise_unique (fun mg hmg => hl mg (hperm.mem_iff.mp hmg)) hsorted
  ids _ _ := nodup_ids_numberOps _ (fun _ _ => rfl) _ _

/-- The sets and the mini-graphs of a depth are sorted well if and only if no two of them have their
edges, their restrictions and their bits pointing in opposite directions. -/
theorem sortsWell_iff (hS : VertexSetIR.AtDepth dep S) (hT : MiniGraphIR.AtDepth dep T) :
    SortsWell S ∧ MgSortsWell T ↔
      (∀ l ∈ S, ∀ r ∈ S, l.Aligned r) ∧ ∀ l ∈ T, ∀ r ∈ T, l.Aligned r := by
  rw [← VertexSetIR.strictWeakOrderOn_less_iff hS, ← MiniGraphIR.strictWeakOrderOn_less_iff hT]
  exact ⟨fun h => ⟨h.1.order, h.2.order⟩, fun h => ⟨.of_order h.1, .of_order h.2⟩⟩

end

/-- The set of the neighbours of the first vertex. -/
def firstNeighbours : VertexSetIR := cut {0} ∅ 2

/-- The set of the common neighbours of the next two. -/
def commonNeighbours : VertexSetIR := cut {1, 2} ∅ 2

/-- One set and one mini-graph are sorted well. -/
theorem sortsWell_firstNeighbours :
    SortsWell {firstNeighbours} ∧
      MgSortsWell {{ vertices := firstNeighbours, intersect := firstNeighbours }} := by
  have hbounded : firstNeighbours.Bounded := cut_bounded _ _ _
  refine (@sortsWell_iff 2 _ _ ?_ ?_).mpr ⟨?_, ?_⟩
  · rintro v rfl
    exact ⟨hbounded, rfl⟩
  · rintro mg rfl
    exact ⟨⟨hbounded, rfl⟩, hbounded, rfl⟩
  · rintro l rfl r rfl
    simp [Aligned]
  · rintro l rfl r rfl
    simp [MiniGraphIR.Aligned, Aligned]

/-- Each of two sets is less than the other: one has fewer edges, the other has the lower bit. -/
theorem less_commonNeighbours :
    ¬ ∀ (dep : ℕ) (S : Set VertexSetIR) (T : Set MiniGraphIR), VertexSetIR.AtDepth dep S →
      MiniGraphIR.AtDepth dep T → SortsWell S ∧ MgSortsWell T := by
  intro hall
  have h := hall 2 {firstNeighbours, commonNeighbours} ∅ ?_ (by simp [MiniGraphIR.AtDepth])
  · have hless : firstNeighbours.less commonNeighbours = true := by decide
    have hgreater : commonNeighbours.less firstNeighbours = true := by decide
    have hasymm := h.1.order.asymm firstNeighbours (by simp) commonNeighbours (by simp) hless
    simp [hgreater] at hasymm
  · rintro v (rfl | rfl)
    · exact ⟨cut_bounded _ _ _, rfl⟩
    · exact ⟨cut_bounded _ _ _, rfl⟩

end GraphMini
