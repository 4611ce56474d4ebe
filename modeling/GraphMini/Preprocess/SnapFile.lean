import GraphMini.Lib.Text
import GraphMini.Preprocess.ConverterSpec

/-!
# Reading `snap.txt`

`nextSNAPline` and the reading loop of `load_txt`, on the lines of the file. The loop runs until
`nextSNAPline` returns false, which it does at the end of the file and on a line that does not parse.
A table that outgrows `std::vector`, or an id behind its end, throws.
-/

namespace GraphMini

open Text

/-- `max_size()` of a vector of so many bytes an entry. -/
def vectorMax (bytes : ℕ) : ℕ := (2 ^ 63 - 1) / bytes

/-- An empty line or a comment. -/
def skipsLine (line : List Char) : Bool := line.isEmpty || line.head? == some '#'

/-- `iss >> src >> dest`. -/
def parseEdge (line : List Char) : Option (ℕ × ℕ) := do
  let (src, rest) ← readUnsigned 64 line
  let (dest, _) ← readUnsigned 64 rest
  return (src, dest)

/-- `nextSNAPline`: the next edge, and the lines behind it. -/
def nextSNAPline : List (List Char) → Option ((ℕ × ℕ) × List (List Char))
  | [] => none
  | line :: infile =>
      if skipsLine line then nextSNAPline infile
      else (parseEdge line).map fun edge => (edge, infile)

theorem length_nextSNAPline {infile rest : List (List Char)} {edge : ℕ × ℕ}
    (h : nextSNAPline infile = some (edge, rest)) : rest.length < infile.length := by
  induction infile with
  | nil => simp [nextSNAPline] at h
  | cons line infile ih =>
      rw [nextSNAPline] at h
      split at h
      · exact (ih h).trans (Nat.lt_succ_self _)
      · obtain ⟨_, _, hpair⟩ := Option.map_eq_some_iff.mp h
        obtain rfl := (Prod.mk.inj hpair).2
        exact Nat.lt_succ_self _

/-- `getID`, which throws on a table that cannot grow so far, and on an id behind the grown table. -/
def getIDChecked (idMap : List ℕ) (id nextID : ℕ) : Option (List ℕ × ℕ × ℕ) :=
  let size := if idMap.length ≤ id then add64 id Constant.kResizeIncrement else idMap.length
  if size ≤ vectorMax 8 ∧ id < size then some (getID idMap id nextID) else none

/-- `readLine`, which throws where one of its tables does. -/
def readLineChecked (s : ReadState) (line : ℕ × ℕ) : Option ReadState :=
  if line.1 = line.2 then some s
  else do
    let (idMap, _, nextID) ← getIDChecked s.idMap line.1 s.nextID
    let _ ← getIDChecked idMap line.2 nextID
    let s := readLine s line
    if s.edgeVec.length ≤ vectorMax 16 then some s else none

/-- The reading loop: the edges it has run on. -/
def readEdges (s : ReadState) (infile : List (List Char)) : Option (List (ℕ × ℕ)) :=
  match _hnext : nextSNAPline infile with
  | none => some []
  | some (edge, rest) => do
      let s ← readLineChecked s edge
      return edge :: (← readEdges s rest)
termination_by infile.length
decreasing_by exact length_nextSNAPline _hnext

/-- `load_txt`, from the text of the file. -/
def loadText (text : List Char) : Option GraphConverter :=
  (readEdges {} (lines text)).map GraphConverter.loadTxt

/-! ### The lines before the first that does not parse -/

/-- A line that is no edge and is not skipped either. -/
def malformed (line : List Char) : Bool := !skipsLine line && (parseEdge line).isNone

/-- The edge of a line, if it is not skipped and holds two ids. -/
def lineEdge (line : List Char) : Option (ℕ × ℕ) := if skipsLine line then none else parseEdge line

/-- The edges of all lines that hold one. -/
def allEdges (infile : List (List Char)) : List (ℕ × ℕ) := infile.filterMap lineEdge

section

variable {infile front back : List (List Char)} {line : List Char} {edge : ℕ × ℕ} {s : ReadState}
  {edges : List (ℕ × ℕ)}

theorem readEdges_of_none (h : nextSNAPline infile = none) : readEdges s infile = some [] := by
  rw [readEdges]
  split
  · rfl
  · rename_i hsome
    rw [h] at hsome
    simp at hsome

theorem readEdges_of_some {rest : List (List Char)} (h : nextSNAPline infile = some (edge, rest)) :
    readEdges s infile = (readLineChecked s edge).bind fun s =>
      (readEdges s rest).map fun edges => edge :: edges := by
  rw [readEdges]
  split
  · rename_i hnone
    rw [h] at hnone
    simp at hnone
  · rename_i edge' rest' hsome
    rw [h] at hsome
    obtain ⟨rfl, rfl⟩ := Prod.mk.inj (Option.some.inj hsome)
    simp only [Option.bind_eq_bind, Option.pure_def, Option.map_eq_bind]
    rfl

theorem readEdges_nil (s : ReadState) : readEdges s [] = some [] := readEdges_of_none rfl

theorem readEdges_skips (h : skipsLine line = true) :
    readEdges s (line :: infile) = readEdges s infile := by
  have hnext : nextSNAPline (line :: infile) = nextSNAPline infile := by rw [nextSNAPline, if_pos h]
  cases hsame : nextSNAPline infile with
  | none => rw [readEdges_of_none hsame, readEdges_of_none (hnext.trans hsame)]
  | some next => rw [readEdges_of_some hsame, readEdges_of_some (hnext.trans hsame)]

theorem readEdges_malformed (h : malformed line = true) : readEdges s (line :: infile) = some [] := by
  obtain ⟨hskip, hparse⟩ := Bool.and_eq_true_iff.mp h
  apply readEdges_of_none
  rw [nextSNAPline, if_neg (by simpa using hskip), Option.isNone_iff_eq_none.mp hparse]
  rfl

theorem readEdges_edge (h : lineEdge line = some edge) :
    readEdges s (line :: infile) = (readLineChecked s edge).bind fun s =>
      (readEdges s infile).map fun edges => edge :: edges := by
  have hskip : ¬ skipsLine line = true := by
    intro hskip
    rw [lineEdge, if_pos hskip] at h
    simp at h
  rw [lineEdge, if_neg hskip] at h
  apply readEdges_of_some
  rw [nextSNAPline, if_neg hskip, h]
  rfl

/-- The loop runs on the edges of the lines before the first malformed one. -/
theorem readEdges_eq (h : readEdges s infile = some edges) :
    edges = allEdges (infile.takeWhile fun line => !malformed line) := by
  induction infile generalizing s edges with
  | nil =>
      rw [readEdges_nil] at h
      exact (Option.some.inj h).symm
  | cons line infile ih =>
      cases hbad : malformed line with
      | true =>
          rw [readEdges_malformed hbad] at h
          rw [List.takeWhile_cons_of_neg (by simp [hbad])]
          exact (Option.some.inj h).symm
      | false =>
          rw [List.takeWhile_cons_of_pos (by simp [hbad]), allEdges]
          cases hedge : lineEdge line with
          | none =>
              have hskip : skipsLine line = true := by
                by_contra hskip
                rw [lineEdge, if_neg hskip] at hedge
                simp [malformed, hskip, hedge] at hbad
              rw [readEdges_skips hskip] at h
              rw [List.filterMap_cons_none hedge]
              exact ih h
          | some edge =>
              rw [readEdges_edge hedge] at h
              obtain ⟨s', -, hmap⟩ := Option.bind_eq_some_iff.mp h
              obtain ⟨edges', hedges', rfl⟩ := Option.map_eq_some_iff.mp hmap
              rw [List.filterMap_cons_some hedge, ih hedges']
              rfl

/-! ### What a conversion that goes through has read -/

theorem getIDChecked_eq_some {idMap : List ℕ} {id nextID : ℕ} {result : List ℕ × ℕ × ℕ}
    (h : getIDChecked idMap id nextID = some result) :
    id < 2 ^ 60 ∧ result = getID idMap id nextID := by
  rw [getIDChecked] at h
  by_cases hfits : (if idMap.length ≤ id then add64 id Constant.kResizeIncrement else idMap.length)
      ≤ vectorMax 8
    ∧ id < if idMap.length ≤ id then add64 id Constant.kResizeIncrement else idMap.length
  · rw [if_pos hfits] at h
    have hmax : vectorMax 8 ≤ 2 ^ 60 := by decide
    exact ⟨(hfits.2.trans_le hfits.1).trans_le hmax, (Option.some.inj h).symm⟩
  · rw [if_neg hfits] at h
    simp at h

theorem readLineChecked_eq_some {s' : ReadState} (h : readLineChecked s edge = some s') :
    s' = readLine s edge ∧
      (edge.1 ≠ edge.2 → (edge.1 < 2 ^ 60 ∧ edge.2 < 2 ^ 60) ∧ s'.edgeVec.length ≤ vectorMax 16) := by
  rw [readLineChecked] at h
  by_cases hloop : edge.1 = edge.2
  · rw [if_pos hloop] at h
    obtain rfl := Option.some.inj h
    exact ⟨by rw [readLine, if_pos hloop], fun hne => absurd hloop hne⟩
  · rw [if_neg hloop] at h
    obtain ⟨first, hfirst, h⟩ := Option.bind_eq_some_iff.mp h
    obtain ⟨second, hsecond, h⟩ := Option.bind_eq_some_iff.mp h
    by_cases hroom : (readLine s edge).edgeVec.length ≤ vectorMax 16
    · rw [if_pos hroom] at h
      obtain rfl := Option.some.inj h
      exact ⟨rfl, fun _ =>
        ⟨⟨(getIDChecked_eq_some hfirst).1, (getIDChecked_eq_some hsecond).1⟩, hroom⟩⟩
    · rw [if_neg hroom] at h
      simp at h

/-- No id and no vector has outgrown its type. -/
theorem readEdges_fits (h : readEdges s infile = some edges) (hs : s.edgeVec.length ≤ vectorMax 16) :
    (∀ e ∈ properLines edges, e.1 < 2 ^ 60 ∧ e.2 < 2 ^ 60) ∧
      (edges.foldl readLine s).edgeVec.length ≤ vectorMax 16 := by
  fun_induction readEdges s infile generalizing edges with
  | case1 s infile hnext =>
      obtain rfl := Option.some.inj h
      exact ⟨by simp [properLines], hs⟩
  | case2 s infile edge rest hnext ih =>
      obtain ⟨s', hline, h⟩ := Option.bind_eq_some_iff.mp h
      obtain ⟨edges', hedges, h⟩ := Option.bind_eq_some_iff.mp h
      obtain rfl := Option.some.inj h
      obtain ⟨rfl, hproper⟩ := readLineChecked_eq_some hline
      have hroom : (readLine s edge).edgeVec.length ≤ vectorMax 16 := by
        by_cases hloop : edge.1 = edge.2
        · rw [readLine, if_pos hloop]
          exact hs
        · exact (hproper hloop).2
      obtain ⟨hrest, hlen⟩ := ih _ hedges hroom
      refine ⟨fun e he => ?_, hlen⟩
      rw [properLines, List.filter_cons] at he
      split at he
      · rename_i hne
        rcases List.mem_cons.mp he with rfl | he
        · exact (hproper (of_decide_eq_true hne)).1
        · exact hrest e he
      · exact hrest e he

/-- A converter that has read its file: the edges and the room for them. -/
structure HasRead (text : List Char) (edges : List (ℕ × ℕ)) : Prop where
  lines : edges = allEdges ((Text.lines text).takeWhile fun line => !malformed line)
  raw : ∀ e ∈ properLines edges, e.1 < 2 ^ 63 ∧ e.2 < 2 ^ 63
  read : ReadSpec edges (edges.foldl readLine {})
  room : (properLines edges).length * 2 < 2 ^ 59

theorem length_flatMap_numberedEdge (ids : List ℕ) (edges : List (ℕ × ℕ)) :
    (edges.flatMap (numberedEdge ids)).length = edges.length * 2 := by
  rw [List.length_flatMap]
  simp [numberedEdge]

theorem hasRead_of_readEdges {text : List Char} (h : readEdges {} (Text.lines text) = some edges) :
    HasRead text edges := by
  obtain ⟨hids, hlen⟩ := readEdges_fits h (Nat.zero_le _)
  have hraw : ∀ e ∈ properLines edges, e.1 < 2 ^ 63 ∧ e.2 < 2 ^ 63 := fun e he =>
    ⟨(hids e he).1.trans (by decide), (hids e he).2.trans (by decide)⟩
  have hspec := readSpec_foldl hraw (by have := length_vertexIds_le hraw; omega)
  refine ⟨readEdges_eq h, hraw, hspec, ?_⟩
  rw [hspec.edgeVec, length_flatMap_numberedEdge] at hlen
  exact hlen.trans_lt (by decide)

/-! ### Lines that are lost -/

/-- Every line that is not skipped and holds two different ids has pushed its edge. -/
def ReadsAll (text : List Char) (edges : List (ℕ × ℕ)) : Prop :=
  (edges.foldl readLine {}).edgeVec
    = (properLines (allEdges (lines text))).flatMap
        (numberedEdge (vertexIds (allEdges (lines text))))

theorem allEdges_append (front back : List (List Char)) :
    allEdges (front ++ back) = allEdges front ++ allEdges back := List.filterMap_append

theorem properLines_append_list (front back : List (ℕ × ℕ)) :
    properLines (front ++ back) = properLines front ++ properLines back := List.filter_append ..

theorem vertexIds_congr {edges edges' : List (ℕ × ℕ)} (h : properLines edges = properLines edges') :
    vertexIds edges = vertexIds edges' := by rw [vertexIds, vertexIds, h]

/-- All edges are pushed exactly if none is left behind the first malformed line. -/
theorem readsAll_iff_rest {text : List Char} (h : HasRead text edges) :
    ReadsAll text edges ↔
      properLines (allEdges ((lines text).dropWhile fun line => !malformed line)) = [] := by
  have hsplit : properLines (allEdges (lines text)) = properLines edges
      ++ properLines (allEdges ((lines text).dropWhile fun line => !malformed line)) := by
    rw [h.lines, ← properLines_append_list, ← allEdges_append, List.takeWhile_append_dropWhile]
  rw [ReadsAll, h.read.edgeVec]
  constructor
  · intro heq
    have hlen := congrArg List.length heq
    rw [length_flatMap_numberedEdge, length_flatMap_numberedEdge, hsplit, List.length_append] at hlen
    exact List.eq_nil_of_length_eq_zero (by omega)
  · intro hnil
    rw [hnil, List.append_nil] at hsplit
    rw [hsplit, vertexIds_congr hsplit]

theorem lineEdge_of_malformed (h : malformed line = true) : lineEdge line = none := by
  obtain ⟨hskip, hparse⟩ := Bool.and_eq_true_iff.mp h
  rw [lineEdge, if_neg (by simpa using hskip), Option.isNone_iff_eq_none.mp hparse]

theorem properLines_allEdges_eq_nil_iff :
    properLines (allEdges infile) = []
      ↔ ∀ line ∈ infile, ∀ edge, lineEdge line = some edge → edge.1 = edge.2 := by
  rw [properLines, List.filter_eq_nil_iff]
  constructor
  · intro h line hline edge hedge
    have := h edge (List.mem_filterMap.mpr ⟨line, hline, hedge⟩)
    simpa using this
  · intro h edge hedge
    obtain ⟨line, hline, hedge⟩ := List.mem_filterMap.mp hedge
    simpa using h line hline edge hedge

end

/-- In a conversion that goes through every edge of the file is read, exactly if no line with two
different ids stands behind a line that does not parse. -/
theorem readsAll_iff (text : List Char) (edges : List (ℕ × ℕ))
    (h : readEdges {} (lines text) = some edges) :
    ReadsAll text edges ↔ ∀ front bad back, lines text = front ++ bad :: back →
      malformed bad = true → ∀ line ∈ back, ∀ edge, lineEdge line = some edge → edge.1 = edge.2 := by
  rw [readsAll_iff_rest (hasRead_of_readEdges h), properLines_allEdges_eq_nil_iff]
  constructor
  · intro hrest front bad back hlines hbad line hline
    apply hrest line
    rw [hlines, List.dropWhile_append]
    have hmem : line ∈ bad :: back := List.mem_cons_of_mem _ hline
    split
    · rw [List.dropWhile_cons_of_neg (by simp [hbad])]
      exact hmem
    · exact List.mem_append_right _ hmem
  · intro hback line hline edge hedge
    have hsplit := List.takeWhile_append_dropWhile (p := fun line => !malformed line) (l := lines text)
    cases hdrop : (lines text).dropWhile fun line => !malformed line with
    | nil =>
        rw [hdrop] at hline
        simp at hline
    | cons bad back =>
        rw [hdrop] at hline hsplit
        have hbad : malformed bad = true := by
          have := List.head_dropWhile_not (fun line => !malformed line) (l := lines text)
            (by simp [hdrop])
          simpa [hdrop] using this
        rcases List.mem_cons.mp hline with rfl | hline
        · rw [lineEdge_of_malformed hbad] at hedge
          simp at hedge
        · exact hback _ bad back hsplit.symm hbad line hline edge hedge

/-- Two edges, a comment, an empty line and a last line that does not parse. -/
theorem readsAll_iff_tail :
    ReadsAll "3 7\n#\n\n7 3\nend".toList [(3, 7), (7, 3)] ↔ ∀ front bad back,
      lines "3 7\n#\n\n7 3\nend".toList = front ++ bad :: back → malformed bad = true →
        ∀ line ∈ back, ∀ edge, lineEdge line = some edge → edge.1 = edge.2 :=
  readsAll_iff "3 7\n#\n\n7 3\nend".toList [(3, 7), (7, 3)] (by decide +kernel)

/-- The line of one blank ends the reading: the graph is built without the edge behind it. -/
theorem not_readsAll_blank :
    loadText "0 1\n \n1 2\n".toList = some (GraphConverter.loadTxt [(0, 1)]) ∧
      readEdges {} (lines "0 1\n \n1 2\n".toList) = some [(0, 1)] ∧
      ¬ ReadsAll "0 1\n \n1 2\n".toList [(0, 1)] := by
  have hread : readEdges {} (lines "0 1\n \n1 2\n".toList) = some [(0, 1)] := by decide +kernel
  refine ⟨by rw [loadText, hread]; rfl, hread, ?_⟩
  unfold ReadsAll
  decide +kernel

end GraphMini
