import Mathlib.Data.List.Range
import Mathlib.Tactic

/-!
# Buffers of words

A buffer has a capacity, and a word for each place below it that has been written. Reading a place
that was never written has no result, so what a program reads through these operations never depends
on what the memory held before.
-/

structure Buffer (α : Type*) where
  capacity : ℕ
  word : ℕ → Option α

namespace Buffer

variable {α : Type*} {b : Buffer α} {i j pos len start : ℕ} {x : α} {xs ys : List α}

def fresh (capacity : ℕ) : Buffer α := { capacity, word := fun _ => none }

def get (b : Buffer α) (i : ℕ) : Option α := if i < b.capacity then b.word i else none

def set (b : Buffer α) (i : ℕ) (x : α) : Option (Buffer α) :=
  if i < b.capacity then some { b with word := Function.update b.word i (some x) } else none

/-- The words of `xs` from place `start` on. -/
def write (b : Buffer α) (start : ℕ) (xs : List α) : Option (Buffer α) :=
  if start + xs.length ≤ b.capacity then
    some { b with
      word := fun i => if start ≤ i ∧ i < start + xs.length then xs[i - start]? else b.word i }
  else none

def read (b : Buffer α) (pos len : ℕ) : Option (List α) :=
  if pos + len ≤ b.capacity then (List.range' pos len).mapM b.word else none

/-- A larger buffer with the same words. -/
def grow (b : Buffer α) (capacity : ℕ) : Buffer α :=
  { capacity, word := fun i => if i < b.capacity then b.word i else none }

/-- The first `n` words of `src`. -/
def copy (b src : Buffer α) (n : ℕ) : Option (Buffer α) :=
  if n ≤ src.capacity ∧ n ≤ b.capacity then
    some { b with word := fun i => if i < n then src.word i else b.word i }
  else none

/-! ### Single words -/

@[simp] theorem get_fresh (capacity i : ℕ) : (fresh capacity : Buffer α).get i = none := by
  rw [get]
  split_ifs <;> rfl

/-- A word below the capacity can be set, and nothing else changes. -/
theorem exists_set (x : α) (hi : i < b.capacity) :
    ∃ b' : Buffer α, b.set i x = some b' ∧ b'.capacity = b.capacity ∧ b'.get i = some x ∧
      ∀ j, j ≠ i → b'.get j = b.get j := by
  refine ⟨_, if_pos hi, rfl, ?_, ?_⟩
  · simp [get, hi]
  · intro j hj
    simp [get, Function.update_of_ne hj]

theorem get_of_set {b' : Buffer α} (h : b.set i x = some b') (j : ℕ) :
    b'.get j = if j = i then some x else b.get j := by
  rw [set] at h
  split at h
  · rename_i hi
    obtain rfl := Option.some.inj h
    by_cases hji : j = i
    · subst hji
      simp [get, hi]
    · simp [get, hji]
  · simp at h

theorem exists_copy {src : Buffer α} {n : ℕ} (hsrc : n ≤ src.capacity) (hdst : n ≤ b.capacity) :
    ∃ b' : Buffer α, b.copy src n = some b' ∧ b'.capacity = b.capacity ∧
      ∀ i < n, b'.get i = src.get i := by
  refine ⟨_, if_pos ⟨hsrc, hdst⟩, rfl, fun i hi => ?_⟩
  simp [get, hi, hi.trans_le hsrc, hi.trans_le hdst]

/-! ### Runs of words -/

theorem mapM_range'_congr {f f' : ℕ → Option α} (h : ∀ i, pos ≤ i → i < pos + len → f i = f' i) :
    (List.range' pos len).mapM f = (List.range' pos len).mapM f' := by
  induction len generalizing pos with
  | zero => rfl
  | succ len ih =>
      rw [List.range'_succ, List.mapM_cons, List.mapM_cons, h pos le_rfl (by omega),
        ih fun i hlow hhigh => h i (by omega) (by omega)]

theorem mapM_range'_getElem? (xs : List α) (pos : ℕ) :
    (List.range' pos xs.length).mapM (fun i => xs[i - pos]?) = some xs := by
  induction xs generalizing pos with
  | nil => rfl
  | cons x xs ih =>
      have hshift : (List.range' (pos + 1) xs.length).mapM (fun i => (x :: xs)[i - pos]?)
          = (List.range' (pos + 1) xs.length).mapM (fun i => xs[i - (pos + 1)]?) := by
        apply mapM_range'_congr
        intro i hlow _
        obtain ⟨k, rfl⟩ : ∃ k, i = pos + 1 + k := ⟨i - (pos + 1), by omega⟩
        rw [show pos + 1 + k - pos = k + 1 by omega, show pos + 1 + k - (pos + 1) = k by omega,
          List.getElem?_cons_succ]
      rw [List.length_cons, List.range'_succ, List.mapM_cons, hshift, ih]
      simp

theorem read_congr {b b' : Buffer α} (hcap : b.capacity ≤ b'.capacity)
    (hword : ∀ i, pos ≤ i → i < pos + len → b'.word i = b.word i)
    (h : b.read pos len = some xs) : b'.read pos len = some xs := by
  simp only [read] at h ⊢
  split at h
  · rw [if_pos (by omega), mapM_range'_congr hword]
    exact h
  · simp at h

theorem read_bound (h : b.read pos len = some xs) : pos + len ≤ b.capacity := by
  by_contra hle
  simp [read, hle] at h

/-- What fits can be written; then it is what is read there, and every run of words apart from it
reads as before. -/
theorem exists_write (xs : List α) (h : start + xs.length ≤ b.capacity) :
    ∃ b' : Buffer α, b.write start xs = some b' ∧ b'.capacity = b.capacity ∧
      b'.read start xs.length = some xs ∧
      ∀ pos len ys, pos + len ≤ start ∨ start + xs.length ≤ pos → b.read pos len = some ys →
        b'.read pos len = some ys := by
  refine ⟨_, if_pos h, rfl, ?_, ?_⟩
  · calc _ = (List.range' start xs.length).mapM _ := if_pos h
      _ = (List.range' start xs.length).mapM (fun i => xs[i - start]?) :=
          mapM_range'_congr fun i hlow hhigh => if_pos ⟨hlow, hhigh⟩
      _ = some xs := mapM_range'_getElem? xs start
  · intro pos len ys hapart hread
    refine read_congr (b := b) le_rfl ?_ hread
    intro i hlow hhigh
    exact if_neg (by omega)

theorem read_grow {capacity : ℕ} (hcap : b.capacity ≤ capacity) (h : b.read pos len = some xs) :
    (b.grow capacity).read pos len = some xs := by
  have hbound := read_bound h
  refine read_congr hcap ?_ h
  intro i _ hhigh
  exact if_pos (by omega)

end Buffer
