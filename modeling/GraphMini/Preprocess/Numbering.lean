import GraphMini.Preprocess.Converter
import Mathlib.Data.List.GetD

/-!
# Numbering the vertices

The converter replaces the ids of the input by small numbers, in the order in which they first
appear. The table it keeps is the inverse of the list of the ids seen so far, and the reading loop
pushes every edge under the numbers of its ends.
-/

namespace GraphMini

/-- The ids seen so far, after one more id. -/
def see (ids : List ℕ) (id : ℕ) : List ℕ := if id ∈ ids then ids else ids ++ [id]

/-- The lines that are no self-loops. -/
def properLines (lines : List (ℕ × ℕ)) : List (ℕ × ℕ) :=
  lines.filter fun line => decide (line.1 ≠ line.2)

/-- The ids of the proper lines in the order of their first appearance. -/
def vertexIds (lines : List (ℕ × ℕ)) : List ℕ :=
  (properLines lines).foldl (fun ids line => see (see ids line.1) line.2) []

section See

variable {ids : List ℕ} {x y : ℕ}

theorem mem_see : y ∈ see ids x ↔ y ∈ ids ∨ y = x := by
  unfold see
  split
  · rename_i hx
    constructor
    · exact Or.inl
    · rintro (hy | rfl)
      · exact hy
      · exact hx
  · simp

theorem see_nodup (h : ids.Nodup) : (see ids x).Nodup := by
  unfold see
  split
  · exact h
  · rename_i hx
    rw [List.nodup_append]
    refine ⟨h, List.nodup_singleton x, ?_⟩
    rintro a ha b hb rfl
    exact hx (by simpa using (List.mem_singleton.mp hb) ▸ ha)

theorem length_le_see : ids.length ≤ (see ids x).length := by
  unfold see
  split <;> simp

/-- An id keeps its number. -/
theorem idxOf_see (hy : y ∈ ids) : (see ids x).idxOf y = ids.idxOf y := by
  unfold see
  split
  · rfl
  · exact List.idxOf_append_of_mem hy

end See

section Resize

variable {l : List ℕ} {n x : ℕ}

theorem length_resize : (resize l n x).length = n := by
  rw [resize, List.length_append, List.length_take, List.length_replicate]
  omega

/-- A longer table reads as before, with the default behind its old end. -/
theorem getD_resize (h : l.length ≤ n) (i : ℕ) : (resize l n x).getD i x = l.getD i x := by
  rw [resize, List.take_of_length_le h]
  rcases lt_or_ge i l.length with hi | hi
  · rw [List.getD_append _ _ _ _ hi]
  · rw [List.getD_append_right _ _ _ _ hi, List.getD_eq_default _ _ hi]
    simp [List.getD_eq_getElem?_getD, List.getElem?_replicate]
    split <;> rfl

theorem resize_replicate (k : ℕ) : resize (List.replicate k x) n x = List.replicate n x := by
  rw [resize, List.take_replicate, List.length_replicate, ← List.replicate_add]
  congr 1
  omega

end Resize

/-- The table holds the number of every id seen, and nothing for the others. -/
structure Numbered (ids idMap : List ℕ) : Prop where
  nodup : ids.Nodup
  getD : ∀ x, idMap.getD x Constant.emptyID
    = if x ∈ ids then ids.idxOf x else Constant.emptyID

/-- `getID` looks an id up, and gives the next number to an id it has not seen. -/
theorem getID_spec {ids idMap : List ℕ} (h : Numbered ids idMap) {x : ℕ} (hx : x < 2 ^ 63)
    (hlen : ids.length < 2 ^ 64 - 1) :
    ∃ idMap', getID idMap x ids.length = (idMap', (see ids x).idxOf x, (see ids x).length)
      ∧ Numbered (see ids x) idMap' := by
  set table := if idMap.length ≤ x then
      resize idMap (add64 x Constant.kResizeIncrement) Constant.emptyID else idMap with htable
  have hadd : add64 x Constant.kResizeIncrement = x + 4096 := by
    simp only [add64, Constant.kResizeIncrement]
    omega
  have hread : ∀ y, table.getD y Constant.emptyID = idMap.getD y Constant.emptyID := by
    intro y
    rw [htable]
    split
    · exact getD_resize (by omega) y
    · rfl
  have hroom : x < table.length := by
    rw [htable]
    split
    · rw [length_resize, hadd]
      omega
    · omega
  by_cases hmem : x ∈ ids
  · have hlt : ids.idxOf x < ids.length := List.idxOf_lt_length_of_mem hmem
    have hget : table.getD x Constant.emptyID = ids.idxOf x := by
      rw [hread, h.getD, if_pos hmem]
    have hne : ids.idxOf x ≠ Constant.emptyID := by
      simp only [Constant.emptyID]
      omega
    have hsee : see ids x = ids := if_pos hmem
    rw [hsee]
    refine ⟨table, ?_, h.nodup, fun y => (hread y).trans (h.getD y)⟩
    rw [getID, ← htable]
    simp only [hget, hne, if_false]
  · have hget : table.getD x Constant.emptyID = Constant.emptyID := by
      rw [hread, h.getD, if_neg hmem]
    have hsee : see ids x = ids ++ [x] := if_neg hmem
    have hidx : (ids ++ [x]).idxOf x = ids.length := by
      rw [List.idxOf_append_of_notMem hmem]
      simp
    have hnext : add64 ids.length 1 = ids.length + 1 := by
      simp only [add64]
      omega
    refine ⟨table.set x ids.length, ?_, ⟨see_nodup h.nodup, fun y => ?_⟩⟩
    · rw [getID, ← htable]
      simp only [hget, if_true, hsee, hidx, hnext, List.length_append, List.length_singleton]
    · rw [hsee]
      by_cases hy : y = x
      · subst hy
        rw [if_pos (by simp), hidx, List.getD_eq_getElem _ _ (by simpa using hroom)]
        simp
      · have hsame : (table.set x ids.length).getD y Constant.emptyID
            = table.getD y Constant.emptyID := by
          simp [List.getD_eq_getElem?_getD, List.getElem?_set_ne (Ne.symm hy)]
        rw [hsame, hread, h.getD]
        by_cases hin : y ∈ ids
        · rw [if_pos hin, if_pos (by simp [hin]), List.idxOf_append_of_mem hin]
        · rw [if_neg hin, if_neg (by simp [hin, hy])]

/-- An edge under the numbers of its ends, in both directions. -/
def numberedEdge (ids : List ℕ) (line : ℕ × ℕ) : List (ℕ × ℕ) :=
  [(ids.idxOf line.1, ids.idxOf line.2), (ids.idxOf line.2, ids.idxOf line.1)]

/-- What the reading loop has after some lines. -/
structure ReadSpec (lines : List (ℕ × ℕ)) (s : ReadState) : Prop where
  numbered : Numbered (vertexIds lines) s.idMap
  nextID : s.nextID = (vertexIds lines).length
  edgeVec : s.edgeVec = (properLines lines).flatMap (numberedEdge (vertexIds lines))
  degrees : ∃ k, s.degrees = List.replicate k 0

theorem vertexIds_append (lines : List (ℕ × ℕ)) (line : ℕ × ℕ) :
    vertexIds (lines ++ [line]) = if line.1 = line.2 then vertexIds lines
      else see (see (vertexIds lines) line.1) line.2 := by
  by_cases hloop : line.1 = line.2 <;> simp [vertexIds, properLines, hloop]

theorem properLines_append (lines : List (ℕ × ℕ)) (line : ℕ × ℕ) :
    properLines (lines ++ [line])
      = properLines lines ++ if line.1 = line.2 then [] else [line] := by
  by_cases hloop : line.1 = line.2 <;> simp [properLines, hloop]

theorem length_vertexIds_append (lines : List (ℕ × ℕ)) (line : ℕ × ℕ) :
    (vertexIds lines).length ≤ (vertexIds (lines ++ [line])).length := by
  rw [vertexIds_append]
  split
  · exact le_rfl
  · exact length_le_see.trans length_le_see

/-- The ids are those that occur in a proper line. -/
theorem mem_vertexIds {lines : List (ℕ × ℕ)} {x : ℕ} :
    x ∈ vertexIds lines ↔ ∃ line ∈ properLines lines, x = line.1 ∨ x = line.2 := by
  induction lines using List.reverseRecOn with
  | nil => simp [vertexIds, properLines]
  | append_singleton lines line ih =>
      rw [vertexIds_append, properLines_append]
      split
      · simpa using ih
      · simp only [mem_see, ih, List.mem_append, List.mem_singleton, or_and_right, exists_or,
          exists_eq_left, or_assoc]

theorem vertexIds_nodup {lines : List (ℕ × ℕ)} : (vertexIds lines).Nodup := by
  induction lines using List.reverseRecOn with
  | nil => exact List.nodup_nil
  | append_singleton lines line ih =>
      rw [vertexIds_append]
      split
      · exact ih
      · exact see_nodup (see_nodup ih)

theorem readSpec_readLine {lines : List (ℕ × ℕ)} {s : ReadState} (h : ReadSpec lines s)
    {line : ℕ × ℕ} (hraw : line.1 ≠ line.2 → line.1 < 2 ^ 63 ∧ line.2 < 2 ^ 63)
    (hlen : (vertexIds (lines ++ [line])).length < 2 ^ 64 - 1) :
    ReadSpec (lines ++ [line]) (readLine s line) := by
  by_cases hloop : line.1 = line.2
  · have hids : vertexIds (lines ++ [line]) = vertexIds lines := by
      rw [vertexIds_append, if_pos hloop]
    have hproper : properLines (lines ++ [line]) = properLines lines := by
      rw [properLines_append, if_pos hloop, List.append_nil]
    rw [readLine, if_pos hloop]
    exact ⟨hids ▸ h.numbered, hids ▸ h.nextID, by rw [hids, hproper]; exact h.edgeVec, h.degrees⟩
  · rw [vertexIds_append, if_neg hloop] at hlen
    set ids := vertexIds lines with hidsDef
    obtain ⟨idMap₁, hget₁, hnum₁⟩ :=
      getID_spec h.numbered (hraw hloop).1 ((length_le_see.trans length_le_see).trans_lt hlen)
    obtain ⟨idMap₂, hget₂, hnum₂⟩ := getID_spec hnum₁ (hraw hloop).2 (length_le_see.trans_lt hlen)
    have hids : vertexIds (lines ++ [line]) = see (see ids line.1) line.2 := by
      rw [vertexIds_append, if_neg hloop]
    have hsrc : (see ids line.1).idxOf line.1 = (see (see ids line.1) line.2).idxOf line.1 :=
      (idxOf_see (mem_see.mpr (Or.inr rfl))).symm
    rw [readLine, if_neg hloop, h.nextID, hget₁]
    simp only [hget₂]
    refine ⟨hids ▸ hnum₂, by rw [hids], ?_, ?_⟩
    · -- the edges pushed earlier keep their numbers
      have hold : (properLines lines).flatMap (numberedEdge (see (see ids line.1) line.2))
          = (properLines lines).flatMap (numberedEdge ids) := by
        refine List.flatMap_congr fun e he => ?_
        have h₁ : e.1 ∈ ids := mem_vertexIds.mpr ⟨e, he, Or.inl rfl⟩
        have h₂ : e.2 ∈ ids := mem_vertexIds.mpr ⟨e, he, Or.inr rfl⟩
        have hkeep : ∀ z ∈ ids, (see (see ids line.1) line.2).idxOf z = ids.idxOf z :=
          fun z hz => (idxOf_see (mem_see.mpr (Or.inl hz))).trans (idxOf_see hz)
        rw [numberedEdge, numberedEdge, hkeep _ h₁, hkeep _ h₂]
      rw [hids, properLines_append, if_neg hloop, List.flatMap_append, hold, h.edgeVec, ← hidsDef,
        hsrc, List.flatMap_singleton, numberedEdge]
    · obtain ⟨k, hk⟩ := h.degrees
      split
      · exact ⟨_, by rw [hk, resize_replicate]⟩
      · exact ⟨k, hk⟩

/-- The reading loop numbers the ids in the order of their first appearance. -/
theorem readSpec_foldl {lines : List (ℕ × ℕ)}
    (hraw : ∀ line ∈ properLines lines, line.1 < 2 ^ 63 ∧ line.2 < 2 ^ 63)
    (hlen : (vertexIds lines).length < 2 ^ 64 - 1) : ReadSpec lines (lines.foldl readLine {}) := by
  induction lines using List.reverseRecOn with
  | nil =>
      refine ⟨⟨List.nodup_nil, fun x => ?_⟩, rfl, rfl, 0, rfl⟩
      simp [vertexIds, properLines]
  | append_singleton lines line ih =>
      rw [List.foldl_append, List.foldl_cons, List.foldl_nil]
      rw [properLines_append] at hraw
      refine readSpec_readLine (ih ?_ ?_) (fun hloop => hraw line ?_) hlen
      · exact fun e he => hraw e (List.mem_append_left _ he)
      · exact (length_vertexIds_append lines line).trans_lt hlen
      · simp [hloop]

/-- Fewer numbers are given than there are raw ids. -/
theorem length_vertexIds_le {lines : List (ℕ × ℕ)}
    (hraw : ∀ line ∈ properLines lines, line.1 < 2 ^ 63 ∧ line.2 < 2 ^ 63) :
    (vertexIds lines).length ≤ 2 ^ 63 := by
  have hsub : vertexIds lines ⊆ List.range (2 ^ 63) := by
    intro id hid
    obtain ⟨line, hline, rfl | rfl⟩ := mem_vertexIds.mp hid
    · exact List.mem_range.mpr (hraw line hline).1
    · exact List.mem_range.mpr (hraw line hline).2
  calc (vertexIds lines).length ≤ (List.range (2 ^ 63)).length :=
        (vertexIds_nodup.subperm hsub).length_le
    _ = 2 ^ 63 := List.length_range

end GraphMini
