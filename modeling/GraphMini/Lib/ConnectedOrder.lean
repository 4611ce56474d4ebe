import Mathlib.Combinatorics.SimpleGraph.Connectivity.Connected
import Mathlib.Data.Fintype.Perm
import Mathlib.Tactic

/-!
# Orders of a connected graph

A graph is connected exactly when its vertices can be put in an order in which each but the first is joined
to one before it.
-/

namespace ConnectedOrder

open Equiv

/-- Each vertex but the first is joined to one before it. -/
def JoinsBefore {V : Type*} (G : SimpleGraph V) (l : List V) : Prop :=
  ∀ i (hi : i < l.length), 0 < i → ∃ j, ∃ hj : j < i, G.Adj l[i] (l[j])

section

variable {V : Type*} {G : SimpleGraph V} {l : List V} {v : V}

theorem JoinsBefore.append (h : JoinsBefore G l) (hv : ∃ u ∈ l, G.Adj v u) : JoinsBefore G (l ++ [v]) := by
  intro i hi hpos
  rw [List.length_append, List.length_singleton] at hi
  rcases Nat.lt_succ_iff_lt_or_eq.mp hi with hlt | rfl
  · obtain ⟨j, hj, hadj⟩ := h i hlt hpos
    refine ⟨j, hj, ?_⟩
    rwa [List.getElem_append_left hlt, List.getElem_append_left (hj.trans hlt)]
  · obtain ⟨u, hu, hadj⟩ := hv
    obtain ⟨j, hj, rfl⟩ := List.mem_iff_getElem.mp hu
    refine ⟨j, hj, ?_⟩
    rwa [List.getElem_concat_length rfl, List.getElem_append_left hj]

/-- In a connected graph an order that lacks a vertex goes on. -/
theorem exists_append (hG : G.Connected) (hl : l ≠ []) (hrest : ∃ w, w ∉ l) : ∃ v, v ∉ l ∧ ∃ u ∈ l, G.Adj v u := by
  obtain ⟨u, hu⟩ := List.exists_mem_of_ne_nil l hl
  obtain ⟨w, hw⟩ := hrest
  obtain ⟨walk⟩ := hG.preconnected u w
  obtain ⟨dart, -, hfst, hsnd⟩ := walk.exists_boundary_dart {v | v ∈ l} hu hw
  exact ⟨dart.snd, hsnd, dart.fst, hfst, dart.adj.symm⟩

theorem exists_list [Fintype V] (hG : G.Connected) {k : ℕ} (hpos : 0 < k) (hk : k ≤ Fintype.card V) :
    ∃ l : List V, l.length = k ∧ l.Nodup ∧ JoinsBefore G l := by
  classical
  induction k, hpos using Nat.le_induction with
  | base =>
      obtain ⟨v⟩ := hG.nonempty
      refine ⟨[v], rfl, List.nodup_singleton v, fun i hi hpos => ?_⟩
      rw [List.length_singleton] at hi
      omega
  | succ k hpos ih =>
      obtain ⟨l, hlength, hnodup, hjoins⟩ := ih (by omega)
      have hrest : ∃ w, w ∉ l := by
        by_contra hall
        push Not at hall
        have hcard : (Finset.univ : Finset V).card ≤ l.toFinset.card :=
          Finset.card_le_card fun w _ => List.mem_toFinset.mpr (hall w)
        rw [Finset.card_univ, List.toFinset_card_of_nodup hnodup] at hcard
        omega
      have hl : l ≠ [] := List.ne_nil_of_length_pos (by omega)
      obtain ⟨v, hv, hadj⟩ := exists_append hG hl hrest
      refine ⟨l ++ [v], by simp [hlength], ?_, hjoins.append hadj⟩
      rw [List.nodup_append]
      refine ⟨hnodup, List.nodup_singleton v, fun x hx y hy heq => hv ?_⟩
      rwa [← List.mem_singleton.mp hy, ← heq]

end

section

variable {n : ℕ} {G : SimpleGraph (Fin n)}

/-- A connected graph is one that has an order in which each vertex but the first is joined to one before. -/
theorem connected_iff_exists_perm (hn : 0 < n) :
    G.Connected ↔ ∃ σ : Perm (Fin n), ∀ i : Fin n, 0 < i.val → ∃ j < i, G.Adj (σ i) (σ j) := by
  constructor
  · intro hG
    obtain ⟨l, hlength, hnodup, hjoins⟩ := exists_list hG hn (Fintype.card_fin n).ge
    have hbound : ∀ i : Fin n, i < l.length := fun i => i.isLt.trans_eq hlength.symm
    have hinjective : Function.Injective fun i : Fin n => l.get ⟨i, hbound i⟩ := by
      intro i j hij
      have hindex := List.nodup_iff_injective_get.mp hnodup hij
      exact Fin.ext (congrArg (fun k : Fin l.length => k.val) hindex)
    refine ⟨Equiv.ofBijective _ (Finite.injective_iff_bijective.mp hinjective), fun i hpos => ?_⟩
    obtain ⟨j, hj, hadj⟩ := hjoins i (hbound i) hpos
    exact ⟨⟨j, hj.trans i.isLt⟩, hj, hadj⟩
  · rintro ⟨σ, hσ⟩
    rw [SimpleGraph.connected_iff_exists_forall_reachable]
    refine ⟨σ ⟨0, hn⟩, fun w => ?_⟩
    obtain ⟨i, rfl⟩ := σ.surjective w
    obtain ⟨k, hk⟩ := i
    induction k using Nat.strong_induction_on with
    | _ k ih =>
        rcases Nat.eq_zero_or_pos k with rfl | hpos
        · exact SimpleGraph.Reachable.refl _
        · obtain ⟨j, hj, hadj⟩ := hσ ⟨k, hk⟩ hpos
          exact (ih j hj j.isLt).trans hadj.symm.reachable

end

end ConnectedOrder
