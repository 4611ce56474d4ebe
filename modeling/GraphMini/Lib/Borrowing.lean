import Mathlib.Data.List.Nodup
import Mathlib.Data.List.Basic

/-!
# Owners and borrowers of buffers

Objects come and go as on a stack. An object may own a buffer, which goes back to a free list when the
object is destroyed, or point into a buffer that another object owns. Nothing points into a free buffer
as long as every borrower is younger than the owner it borrows from.
-/

namespace GraphMini.Borrowing

variable {β : Type*}

/-- What an object has to do with the buffers. -/
inductive Handle (β : Type*) where
  | owns (b : β)
  | borrows (b : β)
  | outside

/-- The buffer an object points into. -/
def Handle.buffer : Handle β → Option β
  | .owns b => some b
  | .borrows b => some b
  | .outside => none

/-- The buffers that the objects own. -/
def owned : List (Handle β) → List β
  | [] => []
  | .owns b :: rest => b :: owned rest
  | .borrows _ :: rest => owned rest
  | .outside :: rest => owned rest

/-- The youngest object comes first. No two own one buffer, and a borrower has an older owner. -/
def Stacked : List (Handle β) → Prop
  | [] => True
  | .owns b :: rest => b ∉ owned rest ∧ Stacked rest
  | .borrows b :: rest => b ∈ owned rest ∧ Stacked rest
  | .outside :: rest => Stacked rest

/-- The free list after an object is destroyed. -/
def release (free : List β) : Handle β → List β
  | .owns b => b :: free
  | .borrows _ => free
  | .outside => free

/-- No buffer is both owned and free. -/
structure Apart (free : List β) (live : List (Handle β)) : Prop where
  stacked : Stacked live
  nodup : free.Nodup
  not_free : ∀ b ∈ owned live, b ∉ free

variable {free : List β} {live young rest : List (Handle β)} {h : Handle β} {b : β}

theorem mem_owned_cons : b ∈ owned (h :: rest) ↔ h = .owns b ∨ b ∈ owned rest := by
  cases h with
  | owns b' => simp [owned, eq_comm]
  | borrows b' | outside => simp [owned]

theorem mem_release : b ∈ release free h ↔ h = .owns b ∨ b ∈ free := by
  cases h with
  | owns b' => simp [release, eq_comm]
  | borrows b' | outside => simp [release]

theorem mem_owned_append :
    b ∈ owned (young ++ rest) ↔ b ∈ owned young ∨ b ∈ owned rest := by
  induction young with
  | nil => simp [owned]
  | cons h young ih => rw [List.cons_append, mem_owned_cons, mem_owned_cons, ih, or_assoc]

theorem Stacked.tail (hstack : Stacked (h :: rest)) : Stacked rest := by
  cases h with
  | owns b | borrows b => exact hstack.2
  | outside => exact hstack

theorem Stacked.of_append (hstack : Stacked (young ++ rest)) : Stacked rest := by
  induction young with
  | nil => exact hstack
  | cons h young ih => exact ih hstack.tail

/-- Whatever an object points into has an owner. -/
theorem Stacked.mem_owned (hstack : Stacked live) (hmem : h ∈ live) (hb : h.buffer = some b) :
    b ∈ owned live := by
  induction live with
  | nil => simp at hmem
  | cons h' rest ih =>
      rw [mem_owned_cons]
      rcases List.mem_cons.mp hmem with rfl | hmem
      · cases h with
        | owns b' =>
            left
            rw [Option.some.inj hb]
        | borrows b' =>
            right
            rw [← Option.some.inj hb]
            exact hstack.1
        | outside => simp [Handle.buffer] at hb
      · exact Or.inr (ih hstack.tail hmem)

/-- The stack without an object that no younger one borrows from. -/
theorem Stacked.drop (hstack : Stacked (young ++ h :: rest))
    (hyoung : ∀ b, .borrows b ∈ young → b ∈ owned rest) : Stacked (young ++ rest) := by
  induction young with
  | nil => exact hstack.tail
  | cons top young ih =>
      rw [List.cons_append] at hstack ⊢
      have hrest : Stacked (young ++ rest) := ih hstack.tail fun b hb => hyoung b (List.mem_cons_of_mem _ hb)
      cases top with
      | owns b =>
          refine ⟨fun hb => hstack.1 ?_, hrest⟩
          rw [mem_owned_append, mem_owned_cons]
          exact (mem_owned_append.mp hb).imp_right Or.inr
      | borrows b => exact ⟨mem_owned_append.mpr (Or.inr (hyoung b List.mem_cons_self)), hrest⟩
      | outside => exact hrest

/-- An owner shares its buffer with no other owner. -/
theorem Stacked.notMem_owned (hstack : Stacked (young ++ .owns b :: rest)) : b ∉ owned (young ++ rest) := by
  induction young with
  | nil => exact hstack.1
  | cons top young ih =>
      rw [List.cons_append] at hstack
      rw [List.cons_append, mem_owned_cons, not_or]
      refine ⟨?_, ih hstack.tail⟩
      rintro rfl
      exact hstack.1 (mem_owned_append.mpr (Or.inr List.mem_cons_self))

namespace Apart

/-- No object points into a free buffer. -/
theorem safe (hapart : Apart free live) (hmem : h ∈ live) (hb : h.buffer = some b) : b ∉ free :=
  hapart.not_free b (hapart.stacked.mem_owned hmem hb)

theorem nil (hnodup : free.Nodup) : Apart free ([] : List (Handle β)) :=
  ⟨trivial, hnodup, by simp [owned]⟩

/-- A new object with a buffer that nobody owns and that is not free. -/
theorem own (hapart : Apart free live) (howned : b ∉ owned live) (hfree : b ∉ free) :
    Apart free (.owns b :: live) where
  stacked := ⟨howned, hapart.stacked⟩
  nodup := hapart.nodup
  not_free b' hb' := by
    rcases mem_owned_cons.mp hb' with heq | hb'
    · rwa [← Handle.owns.inj heq]
    · exact hapart.not_free b' hb'

/-- A new object with the buffer on top of the free list. -/
theorem take (hapart : Apart (b :: free) live) : Apart free (.owns b :: live) := by
  obtain ⟨hfree, hnodup⟩ := List.nodup_cons.mp hapart.nodup
  have hrest : Apart free live :=
    ⟨hapart.stacked, hnodup, fun b' hb' hmem => hapart.not_free b' hb' (List.mem_cons_of_mem _ hmem)⟩
  exact hrest.own (fun hb => hapart.not_free b hb List.mem_cons_self) hfree

/-- A new object that owns nothing. -/
theorem borrow (hapart : Apart free live) (howns : ∀ b, h ≠ .owns b)
    (hb : ∀ b, h = .borrows b → b ∈ owned live) : Apart free (h :: live) where
  stacked := by
    cases h with
    | owns b => exact absurd rfl (howns b)
    | borrows b => exact ⟨hb b rfl, hapart.stacked⟩
    | outside => exact hapart.stacked
  nodup := hapart.nodup
  not_free b hmem := hapart.not_free b ((mem_owned_cons.mp hmem).resolve_left (howns b))

/-- An object is forgotten that no younger one borrows from. -/
theorem forget (hapart : Apart free (young ++ h :: rest))
    (hyoung : ∀ b, .borrows b ∈ young → b ∈ owned rest) : Apart free (young ++ rest) where
  stacked := hapart.stacked.drop hyoung
  nodup := hapart.nodup
  not_free b hb := by
    apply hapart.not_free b
    rw [mem_owned_append, mem_owned_cons]
    exact (mem_owned_append.mp hb).imp_right Or.inr

/-- An object is destroyed that no younger one borrows from. -/
theorem drop (hapart : Apart free (young ++ h :: rest))
    (hyoung : ∀ b, .borrows b ∈ young → b ∈ owned rest) : Apart (release free h) (young ++ rest) := by
  have hforget := hapart.forget hyoung
  cases h with
  | owns b =>
      have hfree : b ∉ free := hapart.not_free b (mem_owned_append.mpr (Or.inr List.mem_cons_self))
      refine ⟨hforget.stacked, List.nodup_cons.mpr ⟨hfree, hapart.nodup⟩, fun b' hb' hmem => ?_⟩
      rcases List.mem_cons.mp hmem with rfl | hmem
      · exact hapart.stacked.notMem_owned hb'
      · exact hforget.not_free b' hb' hmem
  | borrows b | outside => exact hforget

end Apart

end GraphMini.Borrowing
