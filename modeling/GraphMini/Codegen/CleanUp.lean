import GraphMini.Codegen.PlanMg
import GraphMini.Lib.Loop

/-!
# Erasing the unused mini-graphs

The last loop of `create_plan_mg` erases from the vector it runs over. The position moves on after an
erased element too, so the element that takes its place is never looked at. The loop does its work on
exactly the lists in which every unused mini-graph stands right before a used one.
-/

namespace GraphMini

/-- The loop over the mini-graphs of one depth, from the position `itr` on. Looking at a position
outside of the vector has no result. -/
def eraseLoop (indeedUsed : ℤ → Bool) (mgs : List MiniGraphIR) (itr : ℕ) :
    Option (List MiniGraphIR) :=
  if itr = mgs.length then some mgs
  else
    match h : mgs[itr]? with
    | none => none
    | some mg =>
        eraseLoop indeedUsed (if indeedUsed mg.id then mgs else mgs.eraseIdx itr) (itr + 1)
termination_by mgs.length - itr
decreasing_by
  have hlt := (List.getElem?_eq_some_iff.mp h).1
  split
  · omega
  · rw [List.length_eraseIdx_of_lt hlt]
    omega

/-- Every unused mini-graph stands right before a used one. -/
def BeforeUsed (indeedUsed : ℤ → Bool) (mgs : List MiniGraphIR) : Prop :=
  (∀ mg ∈ mgs.getLast?, indeedUsed mg.id = true) ∧
    mgs.IsChain fun mg next => indeedUsed mg.id = true ∨ indeedUsed next.id = true

section

variable {indeedUsed : ℤ → Bool}

theorem eraseLoop_of_getElem? {mgs : List MiniGraphIR} {itr : ℕ} {mg : MiniGraphIR}
    (h : mgs[itr]? = some mg) : eraseLoop indeedUsed mgs itr
      = eraseLoop indeedUsed (if indeedUsed mg.id then mgs else mgs.eraseIdx itr) (itr + 1) := by
  have hne : itr ≠ mgs.length := by
    rintro rfl
    simp at h
  rw [eraseLoop, if_neg hne]
  split
  · simp_all
  · rename_i mg' h'
    obtain rfl := Option.some.inj (h.symm.trans h')
    rfl

theorem eraseLoop_of_lt {mgs : List MiniGraphIR} {itr : ℕ} (h : mgs.length < itr) :
    eraseLoop indeedUsed mgs itr = none := by
  rw [eraseLoop, if_neg h.ne']
  split
  · rfl
  · rename_i mg hmg
    rw [List.getElem?_eq_none h.le] at hmg
    simp at hmg

theorem getElem?_append_cons (before rest : List MiniGraphIR) (mg : MiniGraphIR) :
    (before ++ mg :: rest)[before.length]? = some mg := by
  simp

theorem eraseIdx_append_cons (before rest : List MiniGraphIR) (mg : MiniGraphIR) :
    (before ++ mg :: rest).eraseIdx before.length = before ++ rest := by
  rw [List.eraseIdx_append_of_length_le le_rfl, Nat.sub_self, List.eraseIdx_cons_zero]

/-- The loop beyond its position sees only the mini-graphs from there on. -/
theorem eraseLoop_append (before mgs : List MiniGraphIR) :
    eraseLoop indeedUsed (before ++ mgs) before.length
      = (before ++ ·) <$> eraseUnused indeedUsed mgs := by
  fun_induction eraseUnused indeedUsed mgs generalizing before with
  | case1 =>
      rw [eraseLoop, if_pos (by simp)]
      simp
  | case2 mg rest hused ih =>
      rw [eraseLoop_of_getElem? (getElem?_append_cons before rest mg), if_pos hused]
      have hih := ih (before ++ [mg])
      rw [List.append_assoc, List.singleton_append, List.length_append, List.length_singleton] at hih
      rw [hih]
      simp [Function.comp_def]
  | case3 mg hunused =>
      -- past the end, the position is outside of the vector
      rw [eraseLoop_of_getElem? (getElem?_append_cons before [] mg), if_neg hunused,
        eraseIdx_append_cons, eraseLoop_of_lt (by simp)]
      rfl
  | case4 mg hunused next rest ih =>
      rw [eraseLoop_of_getElem? (getElem?_append_cons before (next :: rest) mg), if_neg hunused,
        eraseIdx_append_cons]
      have hih := ih (before ++ [next])
      rw [List.append_assoc, List.singleton_append, List.length_append, List.length_singleton] at hih
      rw [hih]
      simp [Function.comp_def]

theorem eraseLoop_eq (mgs : List MiniGraphIR) :
    eraseLoop indeedUsed mgs 0 = eraseUnused indeedUsed mgs := by
  have happend : eraseLoop indeedUsed ([] ++ mgs) 0 = _ := eraseLoop_append [] mgs
  simpa using happend

/-- What one list has to look like. -/
theorem eraseUnused_eq_filter_iff (mgs : List MiniGraphIR) :
    eraseUnused indeedUsed mgs = some (mgs.filter fun mg => indeedUsed mg.id)
      ↔ BeforeUsed indeedUsed mgs := by
  fun_induction eraseUnused indeedUsed mgs with
  | case1 => simp [BeforeUsed]
  | case2 mg rest hused ih =>
      have hlast : (∀ m ∈ (mg :: rest).getLast?, indeedUsed m.id = true)
          ↔ ∀ m ∈ rest.getLast?, indeedUsed m.id = true := by
        cases rest with
        | nil => simp [hused]
        | cons next rest => rw [List.getLast?_cons_cons]
      have hchain : (mg :: rest).IsChain (fun mg next => indeedUsed mg.id = true ∨
          indeedUsed next.id = true) ↔ rest.IsChain fun mg next => indeedUsed mg.id = true ∨
          indeedUsed next.id = true := by
        cases rest with
        | nil => simp
        | cons next rest => simp [List.isChain_cons_cons, hused]
      rw [List.filter_cons, if_pos hused, BeforeUsed, hlast, hchain, ← BeforeUsed, ← ih]
      simp
  | case3 mg hunused => simp [BeforeUsed, hunused]
  | case4 mg hunused next rest ih =>
      rw [List.filter_cons, if_neg hunused]
      by_cases hnext : indeedUsed next.id = true
      · have hlast : (∀ m ∈ (mg :: next :: rest).getLast?, indeedUsed m.id = true)
            ↔ ∀ m ∈ rest.getLast?, indeedUsed m.id = true := by
          rw [List.getLast?_cons_cons]
          cases rest with
          | nil => simp [hnext]
          | cons m rest => rw [List.getLast?_cons_cons]
        have hchain : (mg :: next :: rest).IsChain (fun mg next => indeedUsed mg.id = true ∨
            indeedUsed next.id = true) ↔ rest.IsChain fun mg next => indeedUsed mg.id = true ∨
            indeedUsed next.id = true := by
          rw [List.isChain_cons_cons]
          cases rest with
          | nil => simp [hnext]
          | cons m rest => simp [List.isChain_cons_cons, hnext]
        rw [List.filter_cons, if_pos hnext, BeforeUsed, hlast, hchain, ← BeforeUsed, ← ih]
        simp
      · -- the one that was stepped over is left
        refine iff_of_false (fun heq => ?_) fun hbefore => ?_
        · obtain ⟨rest', -, hrest⟩ := Option.map_eq_some_iff.mp heq
          have hmem : next ∈ (next :: rest).filter fun mg => indeedUsed mg.id := by
            rw [← hrest]
            exact List.mem_cons_self
          exact hnext (List.mem_filter.mp hmem).2
        · rcases (List.isChain_cons_cons.mp hbefore.2).1 with h | h
          · exact hunused h
          · exact hnext h

end

/-- The loops over all depths leave exactly the used mini-graphs if and only if every unused one
stands right before a used one. -/
theorem cleanUp_iff (indeedUsed : ℤ → Bool) (mgOps : List (List MiniGraphIR)) :
    mgOps.mapM (fun mgs => eraseLoop indeedUsed mgs 0)
        = some (mgOps.map fun mgs => mgs.filter fun mg => indeedUsed mg.id)
      ↔ ∀ mgs ∈ mgOps, BeforeUsed indeedUsed mgs := by
  simp only [eraseLoop_eq, ← eraseUnused_eq_filter_iff]
  constructor
  · intro h mgs hmgs
    have hall := Loop.forall₂_of_mapM h
    rw [List.forall₂_map_right_iff, List.forall₂_same] at hall
    exact hall mgs hmgs
  · exact fun h => Loop.mapM_some h

/-- A single mini-graph that nobody uses takes the loop outside of its list. -/
theorem cleanUp_leaves_list :
    ¬ ∀ (indeedUsed : ℤ → Bool) (mgOps : List (List MiniGraphIR)),
      mgOps.mapM (fun mgs => eraseLoop indeedUsed mgs 0)
        = some (mgOps.map fun mgs => mgs.filter fun mg => indeedUsed mg.id) := by
  intro hall
  have h := hall (fun _ => false) [[{ id := 0 }]]
  simp [eraseLoop_eq, eraseUnused] at h

end GraphMini
