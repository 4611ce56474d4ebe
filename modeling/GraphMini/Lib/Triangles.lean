import Mathlib.Combinatorics.SimpleGraph.Clique

/-!
# Counting triangles by neighbourhoods

A common neighbour of the two ends of an edge closes a triangle. Summed over the edges at a vertex
this counts every triangle at the vertex twice, and summed over all vertices every triangle six times.
-/

namespace SimpleGraph

open Finset

variable {V : Type*} [Fintype V] [DecidableEq V] (G : SimpleGraph V) [DecidableRel G.Adj]

/-- The triangles through a vertex. -/
def trianglesAt (v : V) : Finset (Finset V) := (G.cliqueFinset 3).filter fun s => v ∈ s

/-- The ordered pairs of adjacent neighbours of a vertex. -/
def neighbourPairs (v : V) : Finset (V × V) :=
  (G.neighborFinset v ×ˢ G.neighborFinset v).filter fun pair => G.Adj pair.1 pair.2

variable {G} in
omit [DecidableEq V] in
theorem mem_neighbourPairs {v : V} {pair : V × V} :
    pair ∈ G.neighbourPairs v ↔ G.Adj v pair.1 ∧ G.Adj v pair.2 ∧ G.Adj pair.1 pair.2 := by
  simp [neighbourPairs, and_assoc]

theorem card_neighbourPairs (v : V) :
    (G.neighbourPairs v).card
      = ∑ w ∈ G.neighborFinset v, (G.neighborFinset v ∩ G.neighborFinset w).card := by
  rw [neighbourPairs, card_filter, sum_product]
  apply sum_congr rfl
  intro w _
  rw [← card_filter]
  congr 1
  ext x
  simp

/-- The two other corners of a triangle, in either order. -/
theorem card_pairs_of_triangle {v : V} {s : Finset V} (hs : s ∈ G.trianglesAt v) :
    ((G.neighbourPairs v).filter fun pair => {v, pair.1, pair.2} = s).card = 2 := by
  obtain ⟨hclique, hv⟩ := mem_filter.mp hs
  obtain ⟨hpairwise, hcard⟩ := mem_cliqueFinset_iff.mp hclique
  have herase : (s.erase v).card = 2 := by
    rw [card_erase_of_mem hv, hcard]
  obtain ⟨a, b, hab, hpair⟩ := card_eq_two.mp herase
  have ha : a ∈ s.erase v := by simp [hpair]
  have hb : b ∈ s.erase v := by simp [hpair]
  have hva : G.Adj v a := hpairwise hv (mem_of_mem_erase ha) (ne_of_mem_erase ha).symm
  have hvb : G.Adj v b := hpairwise hv (mem_of_mem_erase hb) (ne_of_mem_erase hb).symm
  have hadj : G.Adj a b := hpairwise (mem_of_mem_erase ha) (mem_of_mem_erase hb) hab
  have hinsert : insert v ({a, b} : Finset V) = s := by rw [← hpair, insert_erase hv]
  have heq : ((G.neighbourPairs v).filter fun pair => {v, pair.1, pair.2} = s)
      = {(a, b), (b, a)} := by
    ext ⟨x, y⟩
    rw [mem_filter, mem_neighbourPairs, mem_insert, mem_singleton, Prod.mk.injEq, Prod.mk.injEq]
    constructor
    · rintro ⟨⟨hvx, hvy, hxy⟩, hxys⟩
      have hx : x ∈ s.erase v := mem_erase.mpr ⟨hvx.ne', by simp [← hxys]⟩
      have hy : y ∈ s.erase v := mem_erase.mpr ⟨hvy.ne', by simp [← hxys]⟩
      rw [hpair, mem_insert, mem_singleton] at hx hy
      have hne := hxy.ne
      rcases hx with rfl | rfl
      · exact Or.inl ⟨rfl, hy.resolve_left hne.symm⟩
      · exact Or.inr ⟨rfl, hy.resolve_right hne.symm⟩
    · rintro (⟨rfl, rfl⟩ | ⟨rfl, rfl⟩)
      · exact ⟨⟨hva, hvb, hadj⟩, hinsert⟩
      · exact ⟨⟨hvb, hva, hadj.symm⟩, by rw [pair_comm x y, hinsert]⟩
  rw [heq, card_pair]
  intro hsame
  exact hab (Prod.mk.inj hsame).1

/-- Every triangle at `v` is found from both of its other corners. -/
theorem sum_card_common_neighbours (v : V) :
    ∑ w ∈ G.neighborFinset v, (G.neighborFinset v ∩ G.neighborFinset w).card
      = 2 * (G.trianglesAt v).card := by
  have hmaps : ∀ pair ∈ G.neighbourPairs v, ({v, pair.1, pair.2} : Finset V) ∈ G.trianglesAt v := by
    intro pair hpair
    rw [trianglesAt, mem_filter, mem_cliqueFinset_iff, is3Clique_triple_iff]
    exact ⟨mem_neighbourPairs.mp hpair, mem_insert_self _ _⟩
  calc ∑ w ∈ G.neighborFinset v, (G.neighborFinset v ∩ G.neighborFinset w).card
      = (G.neighbourPairs v).card := (G.card_neighbourPairs v).symm
    _ = ∑ s ∈ G.trianglesAt v, ((G.neighbourPairs v).filter fun pair =>
          {v, pair.1, pair.2} = s).card := card_eq_sum_card_fiberwise hmaps
    _ = ∑ s ∈ G.trianglesAt v, 2 := sum_congr rfl fun s hs => G.card_pairs_of_triangle hs
    _ = 2 * (G.trianglesAt v).card := by rw [sum_const, smul_eq_mul, mul_comm]

/-- Every triangle has three corners. -/
theorem sum_card_trianglesAt :
    ∑ v, (G.trianglesAt v).card = 3 * (G.cliqueFinset 3).card := by
  calc ∑ v, (G.trianglesAt v).card
      = ∑ v, ∑ s ∈ G.cliqueFinset 3, if v ∈ s then 1 else 0 := by
        apply sum_congr rfl
        intro v _
        rw [trianglesAt, card_filter]
    _ = ∑ s ∈ G.cliqueFinset 3, ∑ v, if v ∈ s then 1 else 0 := sum_comm
    _ = ∑ s ∈ G.cliqueFinset 3, 3 := by
        apply sum_congr rfl
        intro s hs
        rw [← card_filter, filter_univ_mem, (mem_cliqueFinset_iff.mp hs).card_eq]
    _ = 3 * (G.cliqueFinset 3).card := by rw [sum_const, smul_eq_mul, mul_comm]

end SimpleGraph
