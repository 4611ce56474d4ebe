import Mathlib.Data.List.Basic
import Mathlib.Tactic

/-!
# Text as a stream reads it

A text is cut into lines and a line into words; a number is read off the front of a line as the
formatted input of the standard library does it, in the "C" locale.
-/

namespace Text

/-- `isspace`: a blank, or one of tab, newline, vertical tab, form feed and carriage return. -/
def isSpace (c : Char) : Bool := c.toNat == 32 || (9 ≤ c.toNat && c.toNat ≤ 13)

def newline : Char := Char.ofNat 10

def tab : Char := Char.ofNat 9

/-- The text between the separators. -/
def pieces (isSep : Char → Bool) : List Char → List (List Char)
  | [] => [[]]
  | c :: cs =>
      if isSep c then [] :: pieces isSep cs
      else
        match pieces isSep cs with
        | [] => [[c]]
        | w :: ws => (c :: w) :: ws

/-- What one `getline` after the other delivers: behind the last newline there is only a line if it
has a character. -/
def lines (text : List Char) : List (List Char) :=
  let all := pieces (fun c => c == newline) text
  if all.getLast? = some [] then all.dropLast else all

/-- What one `>>` to a string after the other delivers. -/
def words (line : List Char) : List (List Char) :=
  (pieces isSpace line).filter fun w => !w.isEmpty

/-- An optional sign, the digits behind it, and what is left. -/
def signedDigits (s : List Char) : Bool × List Char × List Char :=
  match s.dropWhile isSpace with
  | [] => (false, [], [])
  | c :: cs =>
      if c.toNat = 45 then (true, cs.takeWhile Char.isDigit, cs.dropWhile Char.isDigit)
      else if c.toNat = 43 then (false, cs.takeWhile Char.isDigit, cs.dropWhile Char.isDigit)
      else (false, (c :: cs).takeWhile Char.isDigit, (c :: cs).dropWhile Char.isDigit)

def value (digits : List Char) : ℕ := Nat.ofDigitChars 10 digits 0

/-- `>>` to an unsigned number of some bits: a number with a minus sign wraps around, and a magnitude
that does not fit fails. -/
def readUnsigned (bits : ℕ) (s : List Char) : Option (ℕ × List Char) :=
  let (minus, digits, rest) := signedDigits s
  if digits = [] then none
  else if value digits < 2 ^ bits then
    some (if minus then (2 ^ bits - value digits) % 2 ^ bits else value digits, rest)
  else none

/-- `>>` to a signed number of some bits. -/
def readSigned (bits : ℕ) (s : List Char) : Option (ℤ × List Char) :=
  let (minus, digits, rest) := signedDigits s
  if digits = [] then none
  else if minus then
    if value digits ≤ 2 ^ (bits - 1) then some (-(value digits : ℤ), rest) else none
  else if value digits < 2 ^ (bits - 1) then some ((value digits : ℤ), rest)
  else none

/-- `<<` of an unsigned number. -/
def decimal (n : ℕ) : List Char := Nat.toDigits 10 n

/-! ### Cutting -/

section

variable {isSep : Char → Bool} {l rest : List Char} {sep : Char}

theorem pieces_ne_nil (isSep : Char → Bool) (l : List Char) : pieces isSep l ≠ [] := by
  cases l with
  | nil => exact List.cons_ne_nil _ _
  | cons c cs =>
      rw [pieces]
      split
      · exact List.cons_ne_nil _ _
      · split <;> exact List.cons_ne_nil _ _

theorem pieces_append (hl : ∀ c ∈ l, isSep c = false) (hsep : isSep sep = true) :
    pieces isSep (l ++ sep :: rest) = l :: pieces isSep rest := by
  induction l with
  | nil => rw [List.nil_append, pieces, if_pos hsep]
  | cons c l ih =>
      have hc : ¬ isSep c = true := by simp [hl c List.mem_cons_self]
      rw [List.cons_append, pieces, if_neg hc, ih fun d hd => hl d (List.mem_cons_of_mem _ hd)]

theorem pieces_eq_singleton (hl : ∀ c ∈ l, isSep c = false) : pieces isSep l = [l] := by
  induction l with
  | nil => rfl
  | cons c l ih =>
      have hc : ¬ isSep c = true := by simp [hl c List.mem_cons_self]
      rw [pieces, if_neg hc, ih fun d hd => hl d (List.mem_cons_of_mem _ hd)]

theorem lines_append (hl : ∀ c ∈ l, c ≠ newline) : lines (l ++ newline :: rest) = l :: lines rest := by
  have hpieces : pieces (fun c => c == newline) (l ++ newline :: rest)
      = l :: pieces (fun c => c == newline) rest :=
    pieces_append (fun c hc => by simpa using hl c hc) (by simp)
  have hne := pieces_ne_nil (fun c => c == newline) rest
  rw [lines, hpieces, lines]
  simp only [List.getLast?_cons, List.dropLast_cons_of_ne_nil hne]
  rw [List.getLast?_eq_some_getLast hne]
  simp only [Option.getD_some]
  split <;> rfl

/-- Two words with one blank between them. -/
theorem words_pair {key val : List Char} (hkey : ∀ c ∈ key, isSpace c = false)
    (hval : ∀ c ∈ val, isSpace c = false) (hk : key ≠ []) (hv : val ≠ []) (hsep : isSpace sep = true) :
    words (key ++ sep :: val) = [key, val] := by
  rw [words, pieces_append hkey hsep, pieces_eq_singleton hval]
  simp [hk, hv]

end

/-! ### Numbers -/

section

variable {c : Char} {n bits : ℕ} {rest : List Char}

theorem isDigit_iff : c.isDigit = true ↔ 48 ≤ c.toNat ∧ c.toNat ≤ 57 := by
  simp only [Char.isDigit, ge_iff_le, Bool.and_eq_true, decide_eq_true_eq]
  exact Iff.rfl

theorem isSpace_of_isDigit (h : c.isDigit = true) : isSpace c = false := by
  have := isDigit_iff.mp h
  simp only [isSpace, Bool.or_eq_false_iff, Bool.and_eq_false_iff, beq_eq_false_iff_ne,
    decide_eq_false_iff_not]
  omega

theorem isDigit_of_mem_decimal (h : c ∈ decimal n) : c.isDigit = true :=
  Nat.isDigit_of_mem_toDigits (by decide) (by decide) h

theorem decimal_ne_nil (n : ℕ) : decimal n ≠ [] := Nat.toDigits_ne_nil

/-- A printed number is read again, and its value is the number. -/
theorem readUnsigned_decimal (hn : n < 2 ^ bits) (rest : List Char)
    (hrest : ∀ d ∈ rest.head?, d.isDigit = false) :
    readUnsigned bits (decimal n ++ rest) = some (n, rest) := by
  obtain ⟨c, cs, hcons⟩ := List.exists_cons_of_ne_nil (decimal_ne_nil n)
  have hdigit : ∀ d ∈ c :: cs, d.isDigit = true := fun d hd => isDigit_of_mem_decimal (hcons ▸ hd)
  have hc := isDigit_iff.mp (hdigit c List.mem_cons_self)
  have hspan : ∀ l : List Char, (∀ d ∈ l, d.isDigit = true) →
      (l ++ rest).takeWhile Char.isDigit = l ∧ (l ++ rest).dropWhile Char.isDigit = rest := by
    intro l hl
    constructor
    · rw [List.takeWhile_append_of_pos hl]
      cases rest with
      | nil => simp
      | cons d rest => simp [hrest d rfl]
    · rw [List.dropWhile_append_of_pos hl]
      cases rest with
      | nil => rfl
      | cons d rest => simp [hrest d rfl]
  have hskip : (c :: (cs ++ rest)).dropWhile isSpace = c :: (cs ++ rest) := by
    rw [List.dropWhile_cons_of_neg]
    simp [isSpace_of_isDigit (hdigit c List.mem_cons_self)]
  have hsigned : signedDigits (decimal n ++ rest) = (false, decimal n, rest) := by
    rw [signedDigits, hcons, List.cons_append, hskip]
    simp only
    rw [if_neg (by omega), if_neg (by omega), ← List.cons_append, (hspan _ hdigit).1,
      (hspan _ hdigit).2]
  have hvalue : value (decimal n) = n := Nat.ofDigitChars_toDigits (by decide) (by decide)
  rw [readUnsigned, hsigned]
  simp only [hvalue]
  rw [if_neg (decimal_ne_nil n), if_pos hn]
  rfl

end

end Text
