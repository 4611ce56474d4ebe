import Mathlib.Tactic
import Mathlib.Algebra.BigOperators.Group.List.Basic

/-!
# Loops with independent rounds

A loop whose rounds give back what they share and add an amount that depends on nothing else adds up
to the same total in any order and in any grouping of its rounds. A round without a result leaves the
whole loop without one.
-/

namespace Loop

variable {σ α β : Type*}

/-- The sum of the amounts, if all of them exist. -/
def sumM (amount : α → Option ℤ) (l : List α) : Option ℤ := (l.mapM amount).map List.sum

/-- The result keeps what is shared, and its total has grown by the amount. -/
def Adds (Shared : σ → Prop) (total : σ → ℤ) (s : σ) (amount : Option ℤ) (result : Option σ) : Prop :=
  Option.Rel (fun x s' => Shared s' ∧ total s' = total s + x) amount result

/-- Two computations that start with the same one. -/
theorem rel_bind {γ δ : Type*} {r : β → γ → Prop} {o : Option δ} {k : δ → Option β} {k' : δ → Option γ}
    (h : ∀ a, Option.Rel r (k a) (k' a)) : Option.Rel r (o.bind k) (o.bind k') := by
  cases o with
  | none => exact .none
  | some a => exact h a

theorem mapM_congr {f f' : α → Option β} {l : List α} (h : ∀ a ∈ l, f a = f' a) :
    l.mapM f = l.mapM f' := by
  induction l with
  | nil => rfl
  | cons a l ih =>
      rw [List.mapM_cons, List.mapM_cons, h a List.mem_cons_self,
        ih fun b hb => h b (List.mem_cons_of_mem a hb)]

variable {amount : α → Option ℤ} {l l' : List α}

@[simp] theorem sumM_nil (amount : α → Option ℤ) : sumM amount [] = some 0 := rfl

theorem sumM_cons (amount : α → Option ℤ) (a : α) (l : List α) :
    sumM amount (a :: l) = (amount a).bind fun x => (sumM amount l).map (x + ·) := by
  rw [sumM, List.mapM_cons]
  cases amount a with
  | none => rfl
  | some x =>
      cases hl : l.mapM amount with
      | none => simp [sumM, hl]
      | some xs => simp [sumM, hl]

theorem sumM_append (amount : α → Option ℤ) (l l' : List α) :
    sumM amount (l ++ l') = (sumM amount l).bind fun x => (sumM amount l').map (x + ·) := by
  induction l with
  | nil => simp
  | cons a l ih =>
      rw [List.cons_append, sumM_cons, sumM_cons, ih]
      cases amount a with
      | none => rfl
      | some x =>
          cases sumM amount l with
          | none => rfl
          | some y =>
              cases sumM amount l' with
              | none => rfl
              | some z => simp [add_assoc]

theorem sumM_congr {amount' : α → Option ℤ} (h : ∀ a ∈ l, amount a = amount' a) :
    sumM amount l = sumM amount' l := by
  induction l with
  | nil => rfl
  | cons a l ih =>
      rw [sumM_cons, sumM_cons, h a List.mem_cons_self, ih fun b hb => h b (List.mem_cons_of_mem a hb)]

/-- The order does not matter. -/
theorem sumM_perm (amount : α → Option ℤ) (h : l.Perm l') : sumM amount l = sumM amount l' := by
  induction h with
  | nil => rfl
  | cons a _ ih => rw [sumM_cons, sumM_cons, ih]
  | swap a b l =>
      simp only [sumM_cons]
      cases amount a with
      | none => cases amount b <;> rfl
      | some x =>
          cases amount b with
          | none => rfl
          | some y =>
              cases sumM amount l with
              | none => rfl
              | some z => simp [add_left_comm]
  | trans _ _ ih ih' => exact ih.trans ih'

/-- Neither does the grouping. -/
theorem sumM_flatMap (amount : α → Option ℤ) (f : β → List α) (groups : List β) :
    sumM amount (groups.flatMap f) = sumM (fun group => sumM amount (f group)) groups := by
  induction groups with
  | nil => rfl
  | cons group groups ih => rw [List.flatMap_cons, sumM_append, ih, sumM_cons]

section

variable {Shared : σ → Prop} {total : σ → ℤ} {s : σ}

theorem Adds.mono {Shared' : σ → Prop} {amount : Option ℤ} {result : Option σ}
    (h : Adds Shared total s amount result) (hsub : ∀ s, Shared s → Shared' s) :
    Adds Shared' total s amount result := by
  cases h with
  | none => exact .none
  | some h => exact .some ⟨hsub _ h.1, h.2⟩

/-- The same amount, counted from an earlier point. -/
theorem Adds.shift {Shared' : σ → Prop} {s' : σ} {x : ℤ} {amount : Option ℤ} {result : Option σ}
    (h : Adds Shared total s' amount result) (htotal : total s' = total s + x)
    (hshared : ∀ s, Shared s → Shared' s) :
    Adds Shared' total s (amount.bind fun y => some (x + y)) result := by
  cases h with
  | none => exact .none
  | some h => exact .some ⟨hshared _ h.1, by rw [h.2, htotal, add_assoc]⟩

/-- From zero on, the total is the amount. -/
theorem Adds.map_total {amount : Option ℤ} {result : Option σ} (h : Adds Shared total s amount result)
    (hzero : total s = 0) : (result.bind fun s' => some (total s')) = amount := by
  cases h with
  | none => rfl
  | some h => rw [Option.bind_some, h.2, hzero, zero_add]

/-- The end of a round gives back what it has taken. -/
theorem Adds.finish {τ : Type*} {Shared' : τ → Prop} {total' : τ → ℤ} {t : τ} {amount : Option ℤ}
    {result : Option σ} {k : σ → τ} (h : Adds Shared total s amount result)
    (htotal : total' t = total s) (hk : ∀ s', Shared s' → Shared' (k s') ∧ total' (k s') = total s') :
    Adds Shared' total' t amount (result.bind fun s => some (k s)) := by
  cases h with
  | none => exact .none
  | some h =>
      obtain ⟨hshared, hsame⟩ := hk _ h.1
      exact .some ⟨hshared, by rw [hsame, h.2, htotal]⟩

/-- A loop adds the sum of what its rounds add. -/
theorem adds_foldlM {step : σ → α → Option σ}
    (hstep : ∀ s, ∀ a ∈ l, Shared s → Adds Shared total s (amount a) (step s a)) (hs : Shared s) :
    Adds Shared total s (sumM amount l) (l.foldlM step s) := by
  induction l generalizing s with
  | nil => exact .some ⟨hs, by simp⟩
  | cons a l ih =>
      have hfirst := hstep s a List.mem_cons_self hs
      rw [sumM_cons, List.foldlM_cons]
      generalize amount a = o, step s a = r at hfirst
      cases hfirst with
      | none => exact .none
      | @some x s' hx =>
          obtain ⟨hshared, htotal⟩ := hx
          have hrest := ih (fun s b hb => hstep s b (List.mem_cons_of_mem a hb)) hshared
          rw [Option.bind_some]
          change Adds Shared total s _ (l.foldlM step s')
          generalize sumM amount l = o', l.foldlM step s' = r' at hrest
          cases hrest with
          | none => exact .none
          | some hy => exact .some ⟨hy.1, by rw [hy.2, htotal, add_assoc]⟩

end

end Loop
