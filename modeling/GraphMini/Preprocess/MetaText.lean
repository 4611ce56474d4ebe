import GraphMini.Lib.Text
import GraphMini.Preprocess.LoadSpec

/-!
# The text of `meta.txt`

`MetaData::save` writes a line for each field, `MetaData::read` cuts the lines into words. The number
of triangles comes back divided by six.
-/

namespace GraphMini

open Text

/-- A key, a tab, a number and the end of the line. -/
def metaLine (item : String × ℕ) : List Char :=
  (item.1.toList ++ tab :: decimal item.2) ++ [newline]

/-- The file that `MetaData::save` writes. -/
def MetaData.saveText (metaData : MetaData) : List Char := metaData.save.flatMap metaLine

/-- The reading loop of `MetaData::read`: it breaks at a line of fewer than two words, and
`std::stoull` throws on a word that is no number. -/
def metaItems : List (List Char) → Option MetaFile
  | [] => some []
  | line :: rest =>
      match words line with
      | key :: val :: _ => do
          let (n, _) ← readUnsigned 64 val
          return (String.ofList key, n) :: (← metaItems rest)
      | _ => some []

/-- `MetaData::read`, which asserts that every key has been found. -/
def MetaData.readText (text : List Char) : Option MetaData := do
  MetaData.read (← metaItems (lines text))

/-- A key that stays one word. -/
def PlainKey (key : String) : Prop := key.toList ≠ [] ∧ ∀ c ∈ key.toList, isSpace c = false

theorem isSpace_newline : isSpace newline = true := by decide

theorem metaItems_save {file : MetaFile} (hkeys : ∀ item ∈ file, PlainKey item.1)
    (hfits : ∀ item ∈ file, item.2 < 2 ^ 64) :
    metaItems (lines (file.flatMap metaLine)) = some file := by
  induction file with
  | nil => rfl
  | cons item file ih =>
      obtain ⟨hne, hplain⟩ := hkeys item List.mem_cons_self
      have hdigits : ∀ c ∈ decimal item.2, isSpace c = false :=
        fun c hc => isSpace_of_isDigit (isDigit_of_mem_decimal hc)
      have hspace : ∀ c ∈ item.1.toList ++ tab :: decimal item.2, c ≠ newline := by
        rintro c hc rfl
        rcases List.mem_append.mp hc with hc | hc
        · exact absurd (hplain _ hc) (by simp [isSpace_newline])
        · rcases List.mem_cons.mp hc with hc | hc
          · exact absurd hc (by decide)
          · exact absurd (hdigits _ hc) (by simp [isSpace_newline])
      have hlines : lines ((item :: file).flatMap metaLine)
          = (item.1.toList ++ tab :: decimal item.2) :: lines (file.flatMap metaLine) := by
        rw [List.flatMap_cons, metaLine, List.append_assoc, List.singleton_append]
        exact lines_append hspace
      have hwords : words (item.1.toList ++ tab :: decimal item.2)
          = [item.1.toList, decimal item.2] :=
        words_pair hplain hdigits hne (decimal_ne_nil _) (by decide)
      have hread : readUnsigned 64 (decimal item.2) = some (item.2, []) := by
        have := readUnsigned_decimal (hfits item List.mem_cons_self) [] (by simp)
        simpa using this
      rw [hlines, metaItems, hwords]
      simp only [hread, Option.bind_eq_bind, Option.bind_some]
      rw [ih (fun i hi => hkeys i (List.mem_cons_of_mem _ hi))
        fun i hi => hfits i (List.mem_cons_of_mem _ hi)]
      simp

instance (key : String) : Decidable (PlainKey key) :=
  decidable_of_iff (key.toList ≠ [] ∧ key.toList.all (fun c => !isSpace c) = true)
    (by simp [PlainKey])

theorem plainKey_save (metaData : MetaData) : ∀ item ∈ metaData.save, PlainKey item.1 := by
  have hkeys : metaData.save.map Prod.fst = [Constant.kMetaNumVertex, Constant.kMetaNumEdge,
    Constant.kMetaNumTriangle, Constant.kMetaMaxDegree, Constant.kMetaMaxOffset,
    Constant.kMetaMaxTriangle] := rfl
  have hplain : ∀ key ∈ metaData.save.map Prod.fst, PlainKey key := by
    rw [hkeys]
    decide +kernel
  exact fun item hitem => hplain _ (List.mem_map_of_mem hitem)

/-- The fields are 64 bits wide. -/
def MetaData.Fits (metaData : MetaData) : Prop := ∀ item ∈ metaData.save, item.2 < 2 ^ 64

/-- What has been saved is read again, with a sixth of the number of triangles. -/
theorem readText_saveText {metaData : MetaData} (h : metaData.Fits) :
    MetaData.readText metaData.saveText
      = some { metaData with numTriangle := metaData.numTriangle / 6 } := by
  calc MetaData.readText metaData.saveText
      = (metaItems (lines metaData.saveText)).bind MetaData.read := rfl
    _ = MetaData.read metaData.save := by
        rw [MetaData.saveText, metaItems_save (plainKey_save metaData) h, Option.bind_some]
    _ = some { metaData with numTriangle := metaData.numTriangle / 6 } := read_save metaData

end GraphMini
