import GraphMini.Lib.Text
import Mathlib.Data.List.GetD

/-!
# The query generator

`query_generator.cpp`: the data graph it loads, with the adjacency lists as the lines of the file leave
them, and the sampling of a query. The random draws are a sequence of numbers, each taken modulo the
number of neighbours it chooses from.
-/

namespace GraphMini

namespace QueryGenerator

open Text

/-- `adj_list[u].push_back(v)`, `adj_list[v].push_back(u)`. -/
def addEdge (adjList : List (List ℕ)) (edge : ℕ × ℕ) : List (List ℕ) :=
  (adjList.modify edge.1 fun row => row ++ [edge.2]).modify edge.2 fun row => row ++ [edge.1]

/-- How often `v` stands in the row of `u`. -/
def multiplicity (adjList : List (List ℕ)) (u v : ℕ) : ℕ := (adjList.getD u []).count v

/-- `SimpleGraph` of the generator: an edge stands in the rows of both ends, as often as it has been
read. -/
structure DataGraph where
  numVertices : ℕ
  adjList : List (List ℕ)
  length_adjList : adjList.length = numVertices
  inRange : ∀ u, ∀ v ∈ adjList.getD u [], v < numVertices
  symm : ∀ u v, multiplicity adjList u v = multiplicity adjList v u

section

variable {adjList : List (List ℕ)} {edge : ℕ × ℕ} {u v : ℕ}

theorem length_addEdge (adjList : List (List ℕ)) (edge : ℕ × ℕ) :
    (addEdge adjList edge).length = adjList.length := by
  rw [addEdge, List.length_modify, List.length_modify]

theorem getD_modify_append (adjList : List (List ℕ)) {u : ℕ} (hu : u < adjList.length) (x w : ℕ) :
    (adjList.modify u fun row => row ++ [x]).getD w []
      = adjList.getD w [] ++ if w = u then [x] else [] := by
  by_cases hw : w < adjList.length
  · rw [List.getD_eq_getElem _ _ (by simpa using hw), List.getD_eq_getElem _ _ hw,
      List.getElem_modify]
    by_cases heq : u = w
    · rw [if_pos heq, if_pos heq.symm]
    · rw [if_neg heq, if_neg (Ne.symm heq), List.append_nil]
  · rw [List.getD_eq_default _ _ (by simpa using hw), List.getD_eq_default _ _ (by simpa using hw),
      if_neg (by omega)]
    rfl

theorem getD_addEdge (hu : edge.1 < adjList.length) (hv : edge.2 < adjList.length) (w : ℕ) :
    (addEdge adjList edge).getD w []
      = adjList.getD w [] ++ (if w = edge.1 then [edge.2] else [])
        ++ if w = edge.2 then [edge.1] else [] := by
  rw [addEdge, getD_modify_append _ (by simpa using hv), getD_modify_append _ hu]

theorem multiplicity_addEdge (hu : edge.1 < adjList.length) (hv : edge.2 < adjList.length)
    (a b : ℕ) : multiplicity (addEdge adjList edge) a b
      = multiplicity adjList a b + (if a = edge.1 ∧ b = edge.2 then 1 else 0)
        + if a = edge.2 ∧ b = edge.1 then 1 else 0 := by
  have hone : ∀ c d x y : ℕ, (if c = x then [y] else []).count d = if c = x ∧ d = y then 1 else 0 := by
    intro c d x y
    by_cases hc : c = x
    · by_cases hd : d = y <;> simp [hc, hd, eq_comm]
    · simp [hc]
  rw [multiplicity, getD_addEdge hu hv, List.count_append, List.count_append, hone, hone]
  rfl

/-- What all edges together leave behind. -/
theorem foldl_addEdge (adjList : List (List ℕ)) {edges : List (ℕ × ℕ)} {n : ℕ}
    (hrange : ∀ e ∈ edges, e.1 < n ∧ e.2 < n) (hlen : adjList.length = n) (hin : ∀ u, ∀ v ∈ adjList.getD u [], v < n)
    (hsymm : ∀ u v, multiplicity adjList u v = multiplicity adjList v u) :
    (edges.foldl addEdge adjList).length = n ∧
      (∀ u, ∀ v ∈ (edges.foldl addEdge adjList).getD u [], v < n) ∧
      ∀ u v, multiplicity (edges.foldl addEdge adjList) u v
        = multiplicity (edges.foldl addEdge adjList) v u := by
  induction edges generalizing adjList with
  | nil => exact ⟨hlen, hin, hsymm⟩
  | cons e edges ih =>
      obtain ⟨h₁, h₂⟩ := hrange e List.mem_cons_self
      rw [← hlen] at h₁ h₂
      rw [List.foldl_cons]
      apply ih
      · exact fun e he => hrange e (List.mem_cons_of_mem _ he)
      · rw [length_addEdge, hlen]
      · intro u v hv
        rw [getD_addEdge h₁ h₂, List.mem_append, List.mem_append] at hv
        rcases hv with (hv | hv) | hv
        · exact hin u v hv
        · split at hv
          · rw [List.mem_singleton.mp hv]
            omega
          · simp at hv
        · split at hv
          · rw [List.mem_singleton.mp hv]
            omega
          · simp at hv
      · intro u v
        rw [multiplicity_addEdge h₁ h₂, multiplicity_addEdge h₁ h₂, hsymm u v]
        have hfirst : (u = e.1 ∧ v = e.2) ↔ (v = e.2 ∧ u = e.1) := and_comm
        have hsecond : (u = e.2 ∧ v = e.1) ↔ (v = e.1 ∧ u = e.2) := and_comm
        simp only [hfirst, hsecond]
        omega

end

/-! ### Loading -/

/-- `ss >> u >> v` of a line that is not skipped. -/
def parseLine (line : List Char) : Option (ℤ × ℤ) :=
  if line.isEmpty || line.head? == some '#' || line.head? == some '%' then none
  else do
    let (u, rest) ← readSigned 32 line
    let (v, _) ← readSigned 32 rest
    return (u, v)

def maxVertexId (edges : List (ℤ × ℤ)) : ℤ := edges.foldl (fun id e => max (max id e.1) e.2) (-1)

/-- The edges of ids that index `adj_list`. -/
def indexed (n : ℕ) (edges : List (ℤ × ℤ)) : Option (List (ℕ × ℕ)) :=
  edges.mapM fun e =>
    if 0 ≤ e.1 ∧ e.1 < (n : ℤ) ∧ 0 ≤ e.2 ∧ e.2 < (n : ℤ) then some (e.1.toNat, e.2.toNat) else none

theorem lt_of_indexed {n : ℕ} {edges : List (ℤ × ℤ)} {edges' : List (ℕ × ℕ)}
    (h : indexed n edges = some edges') : ∀ e ∈ edges', e.1 < n ∧ e.2 < n := by
  induction edges generalizing edges' with
  | nil =>
      rw [indexed, List.mapM_nil] at h
      obtain rfl := Option.some.inj h
      simp
  | cons e edges ih =>
      rw [indexed, List.mapM_cons] at h
      obtain ⟨first, hfirst, h⟩ := Option.bind_eq_some_iff.mp h
      obtain ⟨rest, hrest, h⟩ := Option.bind_eq_some_iff.mp h
      obtain rfl := Option.some.inj h
      intro e' he'
      rcases List.mem_cons.mp he' with rfl | he'
      · split at hfirst
        · rename_i hin
          obtain rfl := Option.some.inj hfirst
          simp only
          omega
        · simp at hfirst
      · exact ih hrest e' he'

theorem getD_replicate_nil (n u : ℕ) : (List.replicate n ([] : List ℕ)).getD u [] = [] := by
  by_cases hu : u < n
  · exact List.getD_replicate [] hu
  · exact List.getD_eq_default _ _ (by simpa using hu)

/-- `loadFromFile`. It returns false for a file without an edge; with the largest `int` as an id
`num_vertices` overflows, and a negative id is no index of `adj_list`. -/
def loadFromFile (text : List Char) : Option DataGraph :=
  let edges := (lines text).filterMap parseLine
  let maxId := maxVertexId edges
  if maxId = -1 ∨ maxId = 2 ^ 31 - 1 then none
  else
    let n := (maxId + 1).toNat
    match h : indexed n edges with
    | none => none
    | some edges =>
        have hfold := foldl_addEdge (List.replicate n []) (lt_of_indexed h)
          List.length_replicate (fun u v hv => absurd hv (by rw [getD_replicate_nil]; simp))
          fun u v => by rw [multiplicity, multiplicity, getD_replicate_nil, getD_replicate_nil]; rfl
        some {
          numVertices := n
          adjList := edges.foldl addEdge (List.replicate n [])
          length_adjList := hfold.1
          inRange := hfold.2.1
          symm := hfold.2.2 }

/-! ### Sampling -/

section

variable (g : DataGraph) (choice : ℕ → ℕ)

def neighbors (u : ℕ) : List ℕ := g.adjList.getD u []

/-- The neighbour that the draw with the given number chooses. -/
def chosen (draw u : ℕ) : ℕ :=
  (neighbors g u).getD (choice draw % (neighbors g u).length) 0

/-- The search that gathers the nodes: one neighbour of each popped vertex is tried. -/
def gather (target draw : ℕ) (selectedNodes q : List ℕ) : List ℕ :=
  if selectedNodes.length < target then
    match q with
    | [] => selectedNodes
    | u :: q =>
        if neighbors g u = [] then gather target draw selectedNodes q
        else if chosen g choice draw u ∈ selectedNodes then gather target (draw + 1) selectedNodes q
        else
          gather target (draw + 1) (selectedNodes ++ [chosen g choice draw u])
            (q ++ [chosen g choice draw u])
  else selectedNodes
termination_by 2 * (target - selectedNodes.length) + q.length
decreasing_by all_goals simp only [List.length_append, List.length_cons, List.length_nil]; omega

end

/-- The query as it is saved. -/
structure Query where
  numVertices : ℕ
  edges : List (ℕ × ℕ)
deriving DecidableEq, Repr

/-- The edges between the selected nodes; `node_map` is the place in `query_nodes_vec`. -/
def queryEdges (g : DataGraph) (queryNodes : List ℕ) : List (ℕ × ℕ) :=
  queryNodes.flatMap fun u =>
    ((neighbors g u).filter fun v =>
        decide (v ∈ queryNodes) && decide (queryNodes.idxOf u < queryNodes.idxOf v)).map
      fun v => (queryNodes.idxOf u, queryNodes.idxOf v)

/-- `generate_guaranteed_connected_subgraph` from a start node on. `enumerate` is the order in which an
`unordered_set` lists its elements. -/
def generate (enumerate : List ℕ → List ℕ) (g : DataGraph) (target start : ℕ) (choice : ℕ → ℕ) :
    Option Query :=
  if g.numVertices < target then none
  else
    let queryNodes := enumerate (gather g choice target 0 [start] [start])
    some { numVertices := queryNodes.length, edges := queryEdges g queryNodes }

end QueryGenerator

end GraphMini
