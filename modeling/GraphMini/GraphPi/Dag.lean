import GraphMini.Codegen.Closure
import Mathlib.Data.List.GetD

/-!
# Ordered edges without a cycle

`Pattern` of GraphPi as far as the restrictions need it: a matrix of ordered edges and `is_dag`, which puts
a vertex into the queue when all edges into it come from vertices before it. All vertices get there exactly
when some ranks increase along the edges.
-/

namespace GraphMini

namespace GraphPi

structure Pattern where
  size : ℕ
  adjMat : List Char
  length_adjMat : adjMat.length = size * size

namespace Pattern

/-- `Pattern(int _size)`: no edge. -/
def init (size : ℕ) : Pattern where
  size := size
  adjMat := List.replicate (size * size) '0'
  length_adjMat := List.length_replicate

def addOrderedEdge (p : Pattern) (x y : ℕ) : Pattern where
  size := p.size
  adjMat := p.adjMat.set (vecIndex x y p.size) '1'
  length_adjMat := List.length_set.trans p.length_adjMat

/-- The edge from `x` to `y` is there. -/
def Edge (p : Pattern) (x y : ℕ) : Prop := marked p.size p.adjMat x y

instance (p : Pattern) (x y : ℕ) : Decidable (p.Edge x y) := inferInstanceAs (Decidable (marked _ _ _ _))

/-- The array `degree`, the number of edges into each vertex. -/
def degree (p : Pattern) : ℕ → ℤ :=
  (List.range p.size).foldl
    (fun degree i => (List.range p.size).foldl
      (fun degree j => if p.Edge i j then Function.update degree j (degree j + 1) else degree) degree)
    fun _ => 0

/-- The edges from `x` are taken away, and where no edge is left the vertex goes to the queue. -/
def takeAway (p : Pattern) (x : ℕ) (state : (ℕ → ℤ) × List ℕ) : (ℕ → ℤ) × List ℕ :=
  (List.range p.size).foldl
    (fun state j =>
      if p.Edge x j then
        let degree := Function.update state.1 j (state.1 j - 1)
        (degree, if degree j = 0 then state.2 ++ [j] else state.2)
      else state)
    state

/-- The array `que` when `head` has passed `tail`. -/
def queue (p : Pattern) : ℕ → ℕ → (ℕ → ℤ) × List ℕ → List ℕ
  | 0, _, state => state.2
  | fuel + 1, head, state =>
      if head < state.2.length then
        p.queue fuel (head + 1) (p.takeAway (state.2.getD head 0) state)
      else state.2

/-- `is_dag`. The queue holds a vertex once at most. -/
def isDag (p : Pattern) : Bool :=
  let que := (List.range p.size).filter fun i => decide (p.degree i = 0)
  (p.queue p.size 0 (p.degree, que)).length == p.size

section

variable {p : Pattern} {x y i j : ℕ}

@[simp] theorem size_init (size : ℕ) : (init size).size = size := rfl

@[simp] theorem size_addOrderedEdge : (p.addOrderedEdge x y).size = p.size := rfl

theorem edge_init {size : ℕ} : ¬ (init size).Edge x y := marked_replicate (size * size) x y

theorem edge_addOrderedEdge (hx : x < p.size) (hy : y < p.size) (hj : j < p.size) :
    (p.addOrderedEdge x y).Edge i j ↔ (x = i ∧ y = j) ∨ p.Edge i j :=
  marked_set p.length_adjMat hx hy hj

end

/-! ### The queue -/

section

variable (p : Pattern)

/-- The sources of the edges into `j` that are not done. -/
def sources (done : List ℕ) (j : ℕ) : Finset ℕ := {i ∈ Finset.range p.size | p.Edge i j ∧ i ∉ done}

/-- The vertices before `head` are done; a vertex is in the queue when the sources of all edges into it are
done, and then it comes after them. -/
structure Queued (head : ℕ) (state : (ℕ → ℤ) × List ℕ) : Prop where
  head_le : head ≤ state.2.length
  nodup : state.2.Nodup
  lt_size : ∀ x ∈ state.2, x < p.size
  degree_eq : ∀ j < p.size, state.1 j = (p.sources (state.2.take head) j).card
  mem_iff : ∀ j < p.size, j ∈ state.2 ↔ state.1 j = 0
  after : ∀ k < state.2.length, ∀ i < p.size, p.Edge i (state.2.getD k 0) → i ∈ state.2.take k

/-- Some ranks increase along the edges. -/
def Acyclic : Prop := ∃ rank : ℕ → ℕ, ∀ i < p.size, ∀ j < p.size, p.Edge i j → rank i < rank j

end

section

variable {p : Pattern} {x head fuel : ℕ} {state : (ℕ → ℤ) × List ℕ}

theorem mem_sources {done : List ℕ} {i j : ℕ} : i ∈ p.sources done j ↔ i < p.size ∧ p.Edge i j ∧ i ∉ done := by
  rw [sources, Finset.mem_filter, Finset.mem_range]

/-- The edges from one vertex are counted. -/
theorem foldl_degree (degree : ℕ → ℤ) (i n j : ℕ) :
    (List.range n).foldl
      (fun degree j => if p.Edge i j then Function.update degree j (degree j + 1) else degree) degree j
      = degree j + if j < n ∧ p.Edge i j then 1 else 0 := by
  induction n with
  | zero => simp
  | succ n ih =>
      rw [List.range_succ, List.foldl_append, List.foldl_cons, List.foldl_nil]
      by_cases hedge : p.Edge i n
      · rw [if_pos hedge]
        rcases eq_or_ne j n with rfl | hne
        · rw [Function.update_self, ih]
          simp [hedge]
        · rw [Function.update_of_ne hne, ih]
          congr 2
          apply propext
          exact and_congr_left fun _ => by omega
      · rw [if_neg hedge, ih]
        congr 2
        apply propext
        apply and_congr_left
        intro hj
        have hne : j ≠ n := fun h => hedge (h ▸ hj)
        omega

theorem degree_eq (j : ℕ) (hj : j < p.size) : p.degree j = (p.sources [] j).card := by
  have hcount : ∀ n, (List.range n).foldl
      (fun degree i => (List.range p.size).foldl
        (fun degree j => if p.Edge i j then Function.update degree j (degree j + 1) else degree) degree)
      (fun _ => (0 : ℤ)) j = (({i ∈ Finset.range n | p.Edge i j} : Finset ℕ)).card := by
    intro n
    induction n with
    | zero => simp
    | succ n ih =>
        rw [List.range_succ, List.foldl_append, List.foldl_cons, List.foldl_nil, foldl_degree, ih,
          Finset.range_add_one, Finset.filter_insert]
        by_cases hedge : p.Edge n j
        · rw [if_pos ⟨hj, hedge⟩, if_pos hedge, Finset.card_insert_of_notMem (by simp)]
          push_cast
          rfl
        · rw [if_neg fun h => hedge h.2, if_neg hedge, add_zero]
  rw [degree, hcount]
  congr 2
  ext i
  rw [mem_sources, Finset.mem_filter, Finset.mem_range]
  simp

theorem takeAway_spec : p.takeAway x state
    = (fun j => if j < p.size ∧ p.Edge x j then state.1 j - 1 else state.1 j,
      state.2 ++ (List.range p.size).filter fun j => decide (p.Edge x j ∧ state.1 j = 1)) := by
  have hsteps : ∀ n, (List.range n).foldl
      (fun (state : (ℕ → ℤ) × List ℕ) j =>
        if p.Edge x j then
          let degree := Function.update state.1 j (state.1 j - 1)
          (degree, if degree j = 0 then state.2 ++ [j] else state.2)
        else state) state
      = (fun j => if j < n ∧ p.Edge x j then state.1 j - 1 else state.1 j,
        state.2 ++ (List.range n).filter fun j => decide (p.Edge x j ∧ state.1 j = 1)) := by
    intro n
    induction n with
    | zero => simp
    | succ n ih =>
        rw [List.range_succ, List.foldl_append, List.foldl_cons, List.foldl_nil, ih, List.filter_append]
        by_cases hedge : p.Edge x n
        · rw [if_pos hedge]
          apply Prod.ext
          · funext j
            rcases eq_or_ne j n with rfl | hne
            · simp [hedge]
            · have hlt : j < n + 1 ↔ j < n := by omega
              simp only [Function.update_of_ne hne, hlt]
          · by_cases hone : state.1 n = 1
            · simp [hedge, hone]
            · have hne : state.1 n - 1 ≠ 0 := by omega
              simp [hedge, hone, hne]
        · rw [if_neg hedge]
          apply Prod.ext
          · funext j
            have hlt : (j < n + 1 ∧ p.Edge x j) ↔ (j < n ∧ p.Edge x j) := by
              apply and_congr_left
              intro hj
              have hne : j ≠ n := fun h => hedge (h ▸ hj)
              omega
            simp only [hlt]
          · simp [hedge]
  exact hsteps p.size

theorem takeAway_degree (j : ℕ) : (p.takeAway x state).1 j
    = if j < p.size ∧ p.Edge x j then state.1 j - 1 else state.1 j := by
  rw [takeAway_spec]

theorem takeAway_que : (p.takeAway x state).2
    = state.2 ++ (List.range p.size).filter fun j => decide (p.Edge x j ∧ state.1 j = 1) := by
  rw [takeAway_spec]

variable (p) in
theorem queued_init : p.Queued 0 (p.degree, (List.range p.size).filter fun i => decide (p.degree i = 0)) where
  head_le := Nat.zero_le _
  nodup := List.nodup_range.filter _
  lt_size x hx := List.mem_range.mp (List.mem_filter.mp hx).1
  degree_eq j hj := degree_eq j hj
  mem_iff j hj := by simp [hj]
  after k hk i hi hedge := by
    have hmem := List.mem_filter.mp (List.getElem_mem hk)
    rw [← List.getD_eq_getElem _ 0 hk, List.mem_range, decide_eq_true_eq] at hmem
    obtain ⟨hlt, hzero⟩ := hmem
    rw [degree_eq _ hlt, Nat.cast_eq_zero, Finset.card_eq_zero] at hzero
    have hin : i ∈ p.sources [] (((List.range p.size).filter fun i => decide (p.degree i = 0)).getD k 0) :=
      mem_sources.mpr ⟨hi, hedge, List.not_mem_nil⟩
    rw [hzero] at hin
    exact absurd hin (Finset.notMem_empty i)

/-- The next vertex of the queue is done. -/
theorem Queued.takeAway (h : p.Queued head state) (hhead : head < state.2.length) :
    p.Queued (head + 1) (p.takeAway (state.2.getD head 0) state) := by
  set x := state.2.getD head 0 with hx
  have hget : x = state.2[head] := List.getD_eq_getElem _ _ hhead
  have htake : state.2.take (head + 1) = state.2.take head ++ [x] := by
    rw [List.take_succ_eq_append_getElem hhead, hget]
  have hfresh : x ∉ state.2.take head := by
    rw [hget]
    intro hin
    obtain ⟨k, hk, heq⟩ := List.mem_take_iff_getElem.mp hin
    have hsame := h.nodup.getElem_inj_iff.mp heq
    omega
  have hxlt : x < p.size := h.lt_size x (hget ▸ List.getElem_mem hhead)
  have hmem : ∀ j < p.size, p.Edge x j → x ∈ p.sources (state.2.take head) j :=
    fun j _ hedge => mem_sources.mpr ⟨hxlt, hedge, hfresh⟩
  have herase : ∀ j, p.sources (state.2.take (head + 1)) j = (p.sources (state.2.take head) j).erase x := by
    intro j
    ext i
    rw [Finset.mem_erase, mem_sources, mem_sources, htake, List.mem_append, List.mem_singleton, not_or]
    tauto
  have hdegree : ∀ j < p.size, (p.takeAway x state).1 j = (p.sources (state.2.take (head + 1)) j).card := by
    intro j hj
    rw [takeAway_degree, herase]
    by_cases hedge : p.Edge x j
    · rw [if_pos ⟨hj, hedge⟩, h.degree_eq j hj, Finset.card_erase_of_mem (hmem j hj hedge)]
      have hpos : 0 < (p.sources (state.2.take head) j).card := Finset.card_pos.mpr ⟨x, hmem j hj hedge⟩
      omega
    · rw [if_neg fun h => hedge h.2, h.degree_eq j hj, Finset.erase_eq_of_notMem]
      exact fun hin => hedge (mem_sources.mp hin).2.1
  have hnew : ∀ j < p.size, p.Edge x j → j ∉ state.2 := by
    intro j hj hedge hin
    rw [h.mem_iff j hj, h.degree_eq j hj, Nat.cast_eq_zero, Finset.card_eq_zero] at hin
    exact Finset.notMem_empty x (hin ▸ hmem j hj hedge)
  have hin : ∀ j < p.size, j ∈ (p.takeAway x state).2 ↔ (p.takeAway x state).1 j = 0 := by
    intro j hj
    rw [takeAway_que, takeAway_degree, List.mem_append, List.mem_filter, List.mem_range, decide_eq_true_eq,
      h.mem_iff j hj]
    by_cases hedge : p.Edge x j
    · have hne : state.1 j ≠ 0 := fun hzero => hnew j hj hedge ((h.mem_iff j hj).mpr hzero)
      simp only [hj, hedge, true_and, and_self, if_true, hne, false_or]
      omega
    · simp [hedge]
  refine ⟨?_, ?_, ?_, ?_, hin, ?_⟩
  · rw [takeAway_que, List.length_append]
    omega
  · rw [takeAway_que]
    apply List.Nodup.append h.nodup (List.nodup_range.filter _)
    intro j hj hj'
    rw [List.mem_filter, List.mem_range, decide_eq_true_eq] at hj'
    exact hnew j hj'.1 hj'.2.1 hj
  · intro j hj
    rw [takeAway_que, List.mem_append, List.mem_filter, List.mem_range] at hj
    rcases hj with hj | hj
    · exact h.lt_size j hj
    · exact hj.1
  · intro j hj
    rw [hdegree j hj, takeAway_que, List.take_append_of_le_length (by omega)]
  · intro k hk i hi hedge
    rw [takeAway_que] at hk hedge ⊢
    rcases Nat.lt_or_ge k state.2.length with hlow | hhigh
    · rw [List.getD_append _ _ _ _ hlow] at hedge
      rw [List.take_append_of_le_length hlow.le]
      exact h.after k hlow i hi hedge
    · -- a new vertex: all sources of its edges are done
      generalize hj : (state.2 ++ (List.range p.size).filter fun j => decide (p.Edge x j ∧ state.1 j = 1)).getD k 0
        = j at hedge
      have hjmem : j ∈ (p.takeAway x state).2 := by
        rw [takeAway_que, ← hj, List.getD_eq_getElem _ _ hk]
        exact List.getElem_mem hk
      have hjlt : j < p.size := by
        rw [takeAway_que, List.mem_append, List.mem_filter, List.mem_range] at hjmem
        rcases hjmem with hjmem | hjmem
        · exact h.lt_size j hjmem
        · exact hjmem.1
      have hzero := (hin j hjlt).mp hjmem
      rw [hdegree j hjlt, Nat.cast_eq_zero, Finset.card_eq_zero] at hzero
      by_contra hnot
      have hsource : i ∈ p.sources (state.2.take (head + 1)) j := by
        refine mem_sources.mpr ⟨hi, hedge, fun hdone => hnot ?_⟩
        rw [List.take_append, List.mem_append]
        exact Or.inl (List.take_subset_take_left _ (by omega) hdone)
      rw [hzero] at hsource
      exact Finset.notMem_empty i hsource

/-- At the end all vertices of the queue are done. -/
theorem Queued.queue (h : p.Queued head state) (fuel : ℕ) (hfuel : p.size ≤ head + fuel) :
    ∃ state', p.Queued state'.2.length state' ∧ p.queue fuel head state = state'.2 := by
  have hlength : ∀ {head : ℕ} {state : (ℕ → ℤ) × List ℕ}, p.Queued head state → state.2.length ≤ p.size := by
    intro head state h
    calc state.2.length = state.2.toFinset.card := (List.toFinset_card_of_nodup h.nodup).symm
      _ ≤ (Finset.range p.size).card := by
          apply Finset.card_le_card
          intro x hx
          exact Finset.mem_range.mpr (h.lt_size x (List.mem_toFinset.mp hx))
      _ = p.size := Finset.card_range _
  induction fuel generalizing head state with
  | zero =>
      have hhead : head = state.2.length := by
        have hle := hlength h
        have hle' := h.head_le
        omega
      exact ⟨state, hhead ▸ h, rfl⟩
  | succ fuel ih =>
      rw [Pattern.queue]
      split
      · rename_i hlt
        exact ih (h.takeAway hlt) (by omega)
      · have hhead : head = state.2.length := by
          have hle := h.head_le
          omega
        exact ⟨state, hhead ▸ h, rfl⟩

end

end Pattern

/-- `is_dag` finds a cycle exactly when no ranks increase along the edges. -/
theorem isDag_iff (p : Pattern) : p.isDag = true ↔ p.Acyclic := by
  obtain ⟨state, h, hqueue⟩ := (Pattern.queued_init p).queue p.size (by omega)
  rw [Pattern.isDag, hqueue, beq_iff_eq]
  have hsources : ∀ j < p.size, j ∉ state.2 → ∃ i < p.size, p.Edge i j ∧ i ∉ state.2 := by
    intro j hj hnot
    have hne : state.1 j ≠ 0 := fun hzero => hnot ((h.mem_iff j hj).mpr hzero)
    rw [h.degree_eq j hj, Nat.cast_ne_zero, Finset.card_ne_zero, List.take_length] at hne
    obtain ⟨i, hi⟩ := hne
    exact ⟨i, Pattern.mem_sources.mp hi⟩
  have hsub : state.2.toFinset ⊆ Finset.range p.size := by
    intro x hx
    exact Finset.mem_range.mpr (h.lt_size x (List.mem_toFinset.mp hx))
  constructor
  · intro hlength
    have hall : state.2.toFinset = Finset.range p.size := by
      apply Finset.eq_of_subset_of_card_le hsub
      rw [Finset.card_range, List.toFinset_card_of_nodup h.nodup, hlength]
    refine ⟨fun i => state.2.idxOf i, fun i hi j hj hedge => ?_⟩
    have hjmem : j ∈ state.2 := List.mem_toFinset.mp (hall ▸ Finset.mem_range.mpr hj)
    have hidx := List.idxOf_lt_length_of_mem hjmem
    have hget : state.2.getD (state.2.idxOf j) 0 = j := by
      rw [List.getD_eq_getElem _ _ hidx, List.getElem_idxOf]
    have hbefore := h.after _ hidx i hi (by rwa [hget])
    obtain ⟨k, hk, heq⟩ := List.mem_take_iff_getElem.mp hbefore
    calc state.2.idxOf i = k := by
          rw [← heq, h.nodup.idxOf_getElem]
      _ < state.2.idxOf j := by omega
  · rintro ⟨rank, hrank⟩
    by_contra hlength
    have hmissing : ((Finset.range p.size).filter (· ∉ state.2)).Nonempty := by
      by_contra hnone
      rw [Finset.not_nonempty_iff_eq_empty, Finset.filter_eq_empty_iff] at hnone
      apply hlength
      have hall : state.2.toFinset = Finset.range p.size := by
        apply hsub.antisymm
        intro x hx
        exact List.mem_toFinset.mpr (not_not.mp (hnone hx))
      rw [← List.toFinset_card_of_nodup h.nodup, hall, Finset.card_range]
    -- of the missing vertices take one of the least rank
    obtain ⟨j, hj, hleast⟩ := Finset.exists_min_image _ rank hmissing
    rw [Finset.mem_filter, Finset.mem_range] at hj
    obtain ⟨i, hi, hedge, hnot⟩ := hsources j hj.1 hj.2
    have hle := hleast i (Finset.mem_filter.mpr ⟨Finset.mem_range.mpr hi, hnot⟩)
    have hlt := hrank i hi j hj.1 hedge
    omega

end GraphPi

end GraphMini
