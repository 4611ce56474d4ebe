import GraphMini.Backend.MiniGraphRun
import GraphMini.Exec.Store

/-!
# The mini-graphs of a run and the requests they stand for

Each built object stands for the request of its build. A build adds a request, reading leaves the
requests as they are, and a scope that is left gives back the requests of the outer scopes.
-/

namespace GraphMini

namespace MgStore

variable {g : Graph} {layout : Layout} {path : List ℕ} {reqs added : List BuildRequest}
  {req : BuildRequest} {s s' : MgStore} {mg : ℤ} {names built : List ℤ}

/-- The object that a name stands for. -/
def object (s : MgStore) (mg : ℤ) : Option MiniGraph := do lookup s.objects (← number s.built mg)

/-- What `build` asks for. -/
def request (layout : Layout) (path : List ℕ) (s : MgStore) (mg : ℤ) (parent : Option ℤ)
    (vertex intersect iter : VertexSet) : Option BuildRequest := do
  let (type, bounded) ← s.declared mg
  let parent ← parent.mapM (number s.built)
  let arrays := s.objects.map MiniGraph.vertex
  let vertex := place (layout.address path mg .vertex) arrays vertex
  let iter := place (layout.address path mg .iter) (vertex :: arrays) iter
  return {
    type, bounded, parent, vertex, intersect, iter
    shouldPrune := layout.shouldPrune path mg
    beyond := layout.beyond path mg }

theorem build_of_request {parent : Option ℤ} {vertex intersect iter : VertexSet}
    (hreq : s.request layout path mg parent vertex intersect iter = some req) :
    s.build g layout path mg parent vertex intersect iter
      = (miniGraphBuild g (layout.pool path mg) req s.objects).map
        fun objects => { s with built := mg :: s.built, objects } := by
  simp only [request, Option.bind_eq_bind, Option.bind_eq_some_iff, Option.pure_def,
    Option.some.injEq] at hreq
  obtain ⟨args, hdeclared, parent', hparent, rfl⟩ := hreq
  simp only [build, hdeclared, hparent, Option.bind_eq_bind, Option.bind_some, Option.map_eq_bind]
  rfl

/-! ### Where an array begins -/

section Place

variable {address : ℕ} {others : List VertexArray} {set : VertexSet}

theorem place_toVertexSet : (place address others set).toVertexSet = set := by
  rw [place]
  split_ifs <;> rfl

theorem start_le_foldr {other : VertexArray} (h : other ∈ others) :
    other.start ≤ (others.map VertexArray.start).foldr max 0 := by
  induction others with
  | nil => simp at h
  | cons a rest ih =>
      rw [List.map_cons, List.foldr_cons]
      rcases List.mem_cons.mp h with rfl | h
      · exact le_max_left _ _
      · exact (ih h).trans (le_max_right _ _)

/-- An array has a place of its own unless it is the same array as another one. -/
theorem consistent_place {other : VertexArray} (h : other ∈ others) :
    other.Consistent (place address others set) := by
  rw [place]
  split_ifs with hall
  · rw [List.all_eq_true] at hall
    exact of_decide_eq_true (hall other h)
  · intro hstart
    have hle := start_le_foldr h
    have : other.start = (others.map VertexArray.start).foldr max 0 + 1 := hstart
    omega

end Place

/-! ### Names -/

theorem number_append (h : mg ∉ names) : number (names ++ built) mg = number built mg := by
  induction names with
  | nil => rfl
  | cons name rest ih =>
      rw [List.cons_append, number, if_neg fun heq => h (by simp [heq])]
      exact ih fun hmem => h (List.mem_cons_of_mem _ hmem)

theorem number_self (built : List ℤ) (mg : ℤ) : number (mg :: built) mg = some built.length := by
  rw [number, if_pos rfl]

theorem lookup_append {α : Type} {l l' : List α} {a : α} {k : ℕ} (h : lookup l k = some a) :
    lookup (l' ++ l) k = some a := by
  induction l' with
  | nil => exact h
  | cons b rest ih => exact lookup_cons b ih

theorem mem_of_lookup {α : Type} {l : List α} {a : α} {k : ℕ} (h : lookup l k = some a) : a ∈ l := by
  induction l with
  | nil => simp [lookup] at h
  | cons b rest ih =>
      rw [lookup] at h
      split_ifs at h
      · rw [← Option.some.inj h]
        exact List.mem_cons_self
      · exact List.mem_cons_of_mem _ (ih h)

/-! ### Requests -/

/-- The request that the object of a name was built for. -/
def requestOf (built : List ℤ) (reqs : List BuildRequest) (mg : ℤ) : Option BuildRequest := do
  lookup reqs (← number built mg)

theorem requestOf_append (h : mg ∉ names) (hreq : requestOf built reqs mg = some req) :
    requestOf (names ++ built) (added ++ reqs) mg = some req := by
  obtain ⟨k, hk, hlookup⟩ := Option.bind_eq_some_iff.mp hreq
  rw [requestOf, number_append h, hk]
  exact lookup_append hlookup

/-- The objects stand for these requests. -/
structure Recorded (g : Graph) (reqs : List BuildRequest) (s : MgStore) : Prop where
  represent : Represent g reqs s.objects
  length : s.built.length = reqs.length

theorem recorded_empty (g : Graph) : Recorded g [] empty := ⟨.nil, rfl⟩

theorem requestOf_self (h : Recorded g reqs s) (mg : ℤ) (req : BuildRequest) :
    requestOf (mg :: s.built) (req :: reqs) mg = some req := by
  rw [requestOf, number_self, h.length]
  exact lookup_self req reqs

namespace Recorded

variable (h : Recorded g reqs s)

include h

theorem object_eq (hreq : requestOf s.built reqs mg = some req) :
    ∃ m ∈ s.objects, s.object mg = some m ∧ m.vertex = req.vertex := by
  obtain ⟨k, hk, hlookup⟩ := Option.bind_eq_some_iff.mp hreq
  obtain ⟨m, hm, reqs', ⟨_, hholds⟩, -⟩ := h.represent.lookup hlookup
  refine ⟨m, mem_of_lookup hm, ?_, hholds.vertex⟩
  rw [object, hk]
  exact hm

/-- A declaration constructs a new object and leaves the built ones alone. -/
theorem declare (type : MgType) (bounded : Bool) : Recorded g reqs (s.declare mg type bounded) :=
  ⟨h.represent, h.length⟩

/-- `N` answers. -/
theorem N_spec (hg : g.Valid) (hreq : requestOf s.built reqs mg = some req) {i v : ℕ}
    (hv : req.vertex.data[i]? = some v) :
    ∃ value s', s.N g mg i = some (value, s') ∧ Answers g req v value ∧ Recorded g reqs s' ∧
      s'.built = s.built ∧ s'.declared = s.declared := by
  obtain ⟨k, hk, hlookup⟩ := Option.bind_eq_some_iff.mp hreq
  obtain ⟨view, objects, hN, hout⟩ := miniGraphN_spec hg h.represent k req i v hlookup hv
  refine ⟨_, { s with objects }, ?_, hout.answers, ⟨hout.represent, h.length⟩, rfl, rfl⟩
  simp [MgStore.N, hk, hN, hout.read]

/-- A build goes through where `miniGraphBuild` does. -/
theorem build_spec {parent : Option ℤ} {vertex intersect iter : VertexSet} (hg : g.Valid)
    (hreq : s.request layout path mg parent vertex intersect iter = some req)
    (hadm : req.Admissible g reqs) (hfit : req.OffsetsFit g s.objects)
    (hfound : req.type = .lazy → req.IterFound) (hreach : req.type = .costModel → req.ReachesIter) :
    ∃ s', s.build g layout path mg parent vertex intersect iter = some s' ∧
      Recorded g (req :: reqs) s' ∧ s'.built = mg :: s.built ∧ s'.declared = s.declared := by
  obtain ⟨m, objects, hbuild, hrep, -⟩ :=
    miniGraphBuild_spec (layout.pool path mg) hg hadm h.represent hfit hfound hreach
  refine ⟨{ s with built := mg :: s.built, objects := m :: objects }, ?_, ⟨hrep, ?_⟩, rfl, rfl⟩
  · rw [build_of_request hreq, hbuild]
    rfl
  · simp [h.length]

/-- `indices` finds every id of a set that lies in the vertex set. -/
theorem indices_spec {toIter : VertexSet} (hreq : requestOf s.built reqs mg = some req)
    (hsorted : toIter.data.SortedLT) (hsub : ∀ x ∈ toIter.data, x ∈ req.vertex.data) :
    ∃ l : List ℕ, s.indices layout path mg toIter = some l ∧
      ∀ i x : ℕ, toIter.data[i]? = some x →
        ∃ j : ℕ, l[i]? = some j ∧ req.vertex.data[j]? = some x := by
  obtain ⟨k, hk, hlookup⟩ := Option.bind_eq_some_iff.mp hreq
  obtain ⟨m, hm, reqs', ⟨_, hholds⟩, hsets⟩ := h.represent.lookup hlookup
  set array := place (layout.address path mg .indices) (s.objects.map MiniGraph.vertex) toIter
    with harray
  have hdata : array.toVertexSet = toIter := place_toVertexSet
  have hconsistent : m.vertex.Consistent array :=
    consistent_place (List.mem_map_of_mem (mem_of_lookup hm))
  have hvsorted : m.vertex.data.SortedLT := hholds.vertex ▸ hsets.vertex_sorted
  have hasorted : array.data.SortedLT := by rwa [hdata]
  have hmap := getIndices_of_covers hvsorted hasorted hconsistent
    (by rw [hdata, hholds.vertex]; exact hsub)
  have hlen : (getIndices m.vertex array).length = array.size := by
    rw [← List.length_map (fun i => m.vertex.data.getD i 0), hmap]
    rfl
  refine ⟨getIndices m.vertex array, ?_, ?_⟩
  · simp only [MgStore.indices, hk, hm, ← harray, Option.bind_eq_bind, Option.bind_some]
    rw [MiniGraph.indices]
    simp [hlen]
  · intro i x hx
    rw [← hdata, ← hmap, List.getElem?_map, Option.map_eq_some_iff] at hx
    obtain ⟨j, hj, rfl⟩ := hx
    have hlt := lt_of_mem_getIndices hvsorted hasorted hconsistent (List.mem_of_getElem? hj)
    refine ⟨j, hj, ?_⟩
    rw [← hholds.vertex, List.getD_eq_getElem _ _ hlt, List.getElem?_eq_getElem hlt]

end Recorded

/-- The store has more objects than these, under names that are not in `keep`. -/
def Grown (g : Graph) (keep : ℤ → Bool) (built : List ℤ) (reqs : List BuildRequest) (s : MgStore) :
    Prop :=
  ∃ names added, s.built = names ++ built ∧ names.length = added.length ∧
    (∀ mg ∈ names, keep mg = false) ∧ Recorded g (added ++ reqs) s

theorem represent_drop {objects : List MiniGraph} (h : Represent g (added ++ reqs) objects) :
    Represent g reqs (objects.drop added.length) := by
  induction added generalizing objects with
  | nil => exact h
  | cons req rest ih =>
      cases h with
      | cons _ _ hrest => exact ih hrest

/-- Leaving a scope brings back the requests of the outer scopes. -/
theorem Grown.leave {keep : ℤ → Bool} (h : Grown g keep built reqs s)
    (hkept : ∀ mg ∈ built, keep mg = true) :
    (s.leave keep).built = built ∧ Recorded g reqs (s.leave keep) := by
  obtain ⟨names, added, hbuilt, hlength, hnew, hrec⟩ := h
  have hnames : ∀ mg ∈ names, (!keep mg) = true := fun mg hmg => by simp [hnew mg hmg]
  have hdrop : built.dropWhile (fun mg => !keep mg) = built := by
    cases built with
    | nil => rfl
    | cons mg rest => rw [List.dropWhile_cons_of_neg (by simp [hkept mg (by simp)])]
  have htake : built.takeWhile (fun mg => !keep mg) = [] := by
    cases built with
    | nil => rfl
    | cons mg rest => rw [List.takeWhile_cons_of_neg (by simp [hkept mg (by simp)])]
  have hleft : (s.leave keep).built = built := by
    rw [MgStore.leave, hbuilt, List.dropWhile_append_of_pos hnames, hdrop]
  refine ⟨hleft, ?_, ?_⟩
  · rw [MgStore.leave, hbuilt, List.takeWhile_append_of_pos hnames, htake, List.append_nil, hlength]
    exact represent_drop hrec.represent
  · have hlen := hrec.length
    rw [hbuilt, List.length_append, List.length_append, hlength] at hlen
    rw [hleft]
    omega

end MgStore

end GraphMini
