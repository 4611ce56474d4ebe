import GraphMini.Backend.MiniGraphBuild
import GraphMini.Lib.Loop
import GraphMini.Exec.Machine

/-!
# The mini-graph objects of a run

The machine of the four mini-graph classes. What the model of the values leaves open is a `Layout`:
the containers that the pool hands out, what `should_prune` decides, what lies behind the end of an
array, and where arrays begin. Arrays that begin at one address are one array, cut to two lengths.
-/

namespace GraphMini

/-- The array arguments of a build and the one of `indices`. -/
inductive ArrayUse where
  | vertex
  | iter
  | indices
deriving DecidableEq, Repr

/-- What a run finds, by the position of the run and the mini-graph. -/
structure Layout where
  pool : List ℕ → ℤ → MiniGraphPool
  shouldPrune : List ℕ → ℤ → ℕ → Bool
  beyond : List ℕ → ℤ → ℕ → ℕ
  address : List ℕ → ℤ → ArrayUse → ℕ

/-- The objects of a run: the constructor's arguments of the declared ones, and the built ones with
their names, the newest first. -/
structure MgStore where
  declared : ℤ → Option (MgType × Bool)
  built : List ℤ
  objects : List MiniGraph

namespace MgStore

def empty : MgStore where
  declared := fun _ => none
  built := []
  objects := []

/-- The number of a built object. -/
def number : List ℤ → ℤ → Option ℕ
  | [], _ => none
  | name :: rest, mg => if name = mg then some rest.length else number rest mg

/-- An array begins at this address, unless other contents are there. -/
def place (address : ℕ) (others : List VertexArray) (s : VertexSet) : VertexArray :=
  let array : VertexArray := { s with start := address }
  if others.all fun other => decide (other.Consistent array) then array
  else { s with start := (others.map VertexArray.start).foldr max 0 + 1 }

def declare (s : MgStore) (mg : ℤ) (type : MgType) (bounded : Bool) : MgStore :=
  { s with declared := Function.update s.declared mg (some (type, bounded)) }

def build (g : Graph) (layout : Layout) (path : List ℕ) (s : MgStore) (mg : ℤ) (parent : Option ℤ)
    (vertex intersect iter : VertexSet) : Option MgStore := do
  let (type, bounded) ← s.declared mg
  let parent ← parent.mapM (number s.built)
  let arrays := s.objects.map MiniGraph.vertex
  let vertex := place (layout.address path mg .vertex) arrays vertex
  let iter := place (layout.address path mg .iter) (vertex :: arrays) iter
  let objects ← miniGraphBuild g (layout.pool path mg)
    { type, bounded, parent, vertex, intersect, iter
      shouldPrune := layout.shouldPrune path mg
      beyond := layout.beyond path mg }
    s.objects
  return { s with built := mg :: s.built, objects }

def N (g : Graph) (s : MgStore) (mg : ℤ) (i : ℕ) : Option (VertexSet × MgStore) := do
  let (view, objects) ← miniGraphN g s.objects (← number s.built mg) i
  return (← view.read g objects, { s with objects })

def indices (layout : Layout) (path : List ℕ) (s : MgStore) (mg : ℤ) (toIter : VertexSet) :
    Option (List ℕ) := do
  let m ← lookup s.objects (← number s.built mg)
  m.indices (place (layout.address path mg .indices) (s.objects.map MiniGraph.vertex) toIter)

/-- Objects are destroyed from the newest on. -/
def leave (s : MgStore) (keep : ℤ → Bool) : MgStore where
  declared := fun mg => if keep mg then s.declared mg else none
  built := s.built.dropWhile fun mg => !keep mg
  objects := s.objects.drop (s.built.takeWhile fun mg => !keep mg).length

end MgStore

/-- The machine of `backend/minigraph.h`. -/
def miniGraphMachine (g : Graph) (layout : Layout) : MgMachine where
  State := MgStore
  empty := .empty
  declare := MgStore.declare
  build := MgStore.build g layout
  N := MgStore.N g
  indices := MgStore.indices layout
  leave := MgStore.leave

/-! ### Objects that reading does not change -/

/-- `N` of these classes only reads. -/
def MgType.ReadOnly (type : MgType) : Prop := type = .eager ∨ type = .lazy

namespace MiniGraph

variable {g : Graph} {pool : MiniGraphPool} {m m' : MiniGraph} {objects objects' : List MiniGraph}
  {id i n : ℕ}

theorem N_objects (hall : ∀ m ∈ objects, m.type.ReadOnly) {view : View}
    (hN : miniGraphN g objects id i = some (view, objects')) : objects' = objects := by
  induction objects generalizing id i view objects' with
  | nil => simp [miniGraphN] at hN
  | cons m rest ih =>
      have hrest : ∀ {id i : ℕ} {view : View} {objects' : List MiniGraph},
          miniGraphN g rest id i = some (view, objects') → objects' = rest :=
        fun h => ih (fun m hm => hall m (List.mem_cons_of_mem _ hm)) h
      rw [miniGraphN] at hN
      split_ifs at hN with hid
      · rcases hall m List.mem_cons_self with htype | htype
        · simp only [htype, MiniGraphEager.N, Option.bind_eq_bind, Option.bind_eq_some_iff,
            Option.pure_def, Option.some.injEq, Prod.mk.injEq] at hN
          obtain ⟨-, -, -, rfl⟩ := hN
          rfl
        · simp only [htype, MiniGraphLazy.N, Option.bind_eq_bind, Option.bind_eq_some_iff] at hN
          obtain ⟨degree, -, hN⟩ := hN
          split_ifs at hN with hleft
          · obtain ⟨⟨view', rest'⟩, hunpruned, heq⟩ := Option.bind_eq_some_iff.mp hN
            obtain ⟨-, rfl⟩ := Prod.mk.inj (Option.some.inj heq)
            rw [MiniGraph.unpruned] at hunpruned
            cases hparent : m.parent with
            | none =>
                simp only [hparent, Option.bind_eq_bind, Option.bind_eq_some_iff, Option.pure_def,
                  Option.some.injEq, Prod.mk.injEq] at hunpruned
                obtain ⟨-, -, -, rfl⟩ := hunpruned
                rfl
            | some parent =>
                simp only [hparent, Option.bind_eq_bind, Option.bind_eq_some_iff] at hunpruned
                obtain ⟨_, -, hN'⟩ := hunpruned
                rw [hrest hN']
          · obtain ⟨_, -, heq⟩ := Option.bind_eq_some_iff.mp hN
            obtain ⟨-, rfl⟩ := Prod.mk.inj (Option.some.inj heq)
            rfl
      · simp only [Option.bind_eq_bind, Option.bind_eq_some_iff] at hN
        obtain ⟨⟨view', rest'⟩, hN', heq⟩ := hN
        obtain ⟨-, rfl⟩ := Prod.mk.inj (Option.some.inj heq)
        rw [hrest hN']

theorem pruned_objects (hall : ∀ m ∈ objects, m.type.ReadOnly) {ids : List ℕ}
    (h : m.pruned g objects (miniGraphN g objects) i = some (ids, objects')) : objects' = objects := by
  simp only [MiniGraph.pruned, Option.bind_eq_bind, Option.bind_eq_some_iff] at h
  obtain ⟨v, -, h⟩ := h
  cases hparent : m.parent with
  | none =>
      simp only [hparent, Option.pure_def, Option.some.injEq, Prod.mk.injEq] at h
      exact h.2.symm
  | some parent =>
      simp only [hparent, Option.bind_eq_some_iff, Option.pure_def, Option.some.injEq,
        Prod.mk.injEq] at h
      obtain ⟨_, -, ⟨view, rest⟩, hN, _, -, -, rfl⟩ := h
      exact N_objects hall hN

theorem setPos_type (hrun : m.setPos i n = some m') : m'.type = m.type := by
  simp only [setPos, Option.bind_eq_bind, Option.bind_eq_some_iff, Option.pure_def,
    Option.some.injEq] at hrun
  obtain ⟨pos, -, rfl⟩ := hrun
  rfl

theorem setDegree_type (hrun : m.setDegree i n = some m') : m'.type = m.type := by
  simp only [setDegree, Option.bind_eq_bind, Option.bind_eq_some_iff, Option.pure_def,
    Option.some.injEq] at hrun
  obtain ⟨degree, -, rfl⟩ := hrun
  rfl

theorem resize_type : (m.resize pool i n).type = m.type := by
  rw [resize]
  split_ifs <;> rfl

theorem fill_type {ids : List ℕ} (hrun : m.fill i ids = some m') : m'.type = m.type := by
  simp only [fill, Option.bind_eq_bind, Option.bind_eq_some_iff] at hrun
  obtain ⟨start, -, ctn, -, hset⟩ := hrun
  have htype := setDegree_type hset
  exact htype

theorem link_type (hrun : m.link objects = some m') : m'.type = m.type := by
  rw [link] at hrun
  split at hrun
  · rw [← Option.some.inj hrun]
  · simp only [Option.bind_eq_bind, Option.bind_eq_some_iff, Option.pure_def,
      Option.some.injEq] at hrun
    obtain ⟨parent, -, mgIndices, -, rfl⟩ := hrun
    rfl

theorem clearDegrees_type (hrun : m.clearDegrees = some m') : m'.type = m.type :=
  Loop.foldlM_keeps (P := fun s : MiniGraph => s.type = m.type)
    (fun _ _ _ hs hstep => (setDegree_type hstep).trans hs) rfl hrun

theorem pruneNow_objects (hall : ∀ m ∈ objects, m.type.ReadOnly)
    (hrun : m.pruneNow g pool objects i = some (m', objects')) :
    objects' = objects ∧ m'.type = m.type := by
  simp only [pruneNow, Option.bind_eq_bind, Option.bind_eq_some_iff, Option.pure_def,
    Option.some.injEq, Prod.mk.injEq] at hrun
  obtain ⟨start, -, ⟨ids, rest⟩, hpruned, m₁, hfill, m₂, hset, rfl, rfl⟩ := hrun
  refine ⟨pruned_objects hall hpruned, ?_⟩
  calc m₂.type = m₁.type := setPos_type hset
    _ = (m.resize pool i (m.intersect.size + start)).type := fill_type hfill
    _ = m.type := resize_type

/-- Building does not change the older objects. -/
theorem build_objects (hall : ∀ m ∈ objects, m.type.ReadOnly) {req : BuildRequest}
    (htype : req.type.ReadOnly) (hrun : MiniGraph.build g pool req objects = some (m, objects')) :
    objects' = objects ∧ m.type = req.type := by
  rw [MiniGraph.build] at hrun
  rcases htype with htype | htype
  · simp only [htype, MiniGraphEager.build, Option.bind_eq_bind, Option.bind_eq_some_iff] at hrun
    obtain ⟨m₀, hset, m₁, hlink, hloop⟩ := hrun
    have hstart : m₁.type = req.type := (link_type hlink).trans (setPos_type hset)
    have hkept := Loop.foldlM_keeps
      (P := fun s : MiniGraph × List MiniGraph => s.2 = objects ∧ s.1.type = req.type)
      (fun s i s' hs hstep => ?_) ⟨rfl, hstart⟩ hloop
    · exact hkept
    · obtain ⟨hsame, hkeep⟩ := pruneNow_objects (hs.1 ▸ hall) hstep
      exact ⟨hsame.trans hs.1, hkeep.trans hs.2⟩
  · simp only [htype, MiniGraphLazy.build, Option.bind_eq_bind, Option.bind_eq_some_iff] at hrun
    obtain ⟨m₀, hset, m₁, hclear, m₂, hlink, hrun⟩ := hrun
    have hstart : m₂.type = req.type :=
      (link_type hlink).trans ((clearDegrees_type hclear).trans (setPos_type hset))
    split_ifs at hrun
    obtain ⟨⟨m₃, objects₃, numEdges⟩, hloop, heq⟩ := Option.bind_eq_some_iff.mp hrun
    obtain ⟨rfl, rfl⟩ := Prod.mk.inj (Option.some.inj heq)
    have hkept := Loop.foldlM_keeps
      (P := fun s : MiniGraph × List MiniGraph × ℕ => s.2.1 = objects ∧ s.1.type = req.type)
      (fun s i s' hs hstep => ?_) ⟨rfl, hstart⟩ hloop
    · exact hkept
    · simp only [Option.bind_eq_some_iff, Option.pure_def, Option.some.injEq] at hstep
      obtain ⟨m₄, hpos, ⟨ids, rest⟩, hpruned, m₅, hfill, rfl⟩ := hstep
      refine ⟨(pruned_objects (hs.1 ▸ hall) hpruned).trans hs.1, ?_⟩
      calc m₅.type = (m₄.resize pool i (m₄.intersect.size + s.2.2)).type := fill_type hfill
        _ = m₄.type := resize_type
        _ = s.1.type := setPos_type hpos
        _ = req.type := hs.2

end MiniGraph

/-! ### What a scope leaves behind -/

namespace MgStore

/-- All objects have names in `keep`, and reading does not change them. -/
structure Within (keep : ℤ → Bool) (s : MgStore) : Prop where
  length : s.built.length = s.objects.length
  built : ∀ mg ∈ s.built, keep mg = true
  declared : ∀ mg, (s.declared mg).isSome = true → keep mg = true
  readOnly : ∀ m ∈ s.objects, m.type.ReadOnly
  types : ∀ mg args, s.declared mg = some args → args.1.ReadOnly

/-- The store has more objects, under names that are not in `keep`. -/
structure Extends (keep : ℤ → Bool) (base s : MgStore) : Prop where
  added : ∃ names objects, s.built = names ++ base.built ∧ s.objects = objects ++ base.objects ∧
    names.length = objects.length ∧ ∀ mg ∈ names, keep mg = false
  declared : ∀ mg, keep mg = true → s.declared mg = base.declared mg

variable {g : Graph} {layout : Layout} {path : List ℕ} {keep keep' : ℤ → Bool} {base s s' : MgStore}
  {mg : ℤ}

theorem within_empty (keep : ℤ → Bool) : Within keep empty := by
  constructor <;> simp [empty]

theorem Within.mono (h : Within keep s) (hsub : ∀ mg, keep mg = true → keep' mg = true) :
    Within keep' s where
  length := h.length
  built := fun mg hmg => hsub mg (h.built mg hmg)
  declared := fun mg hmg => hsub mg (h.declared mg hmg)
  readOnly := h.readOnly
  types := h.types

theorem Extends.refl (keep : ℤ → Bool) (s : MgStore) : Extends keep s s :=
  ⟨⟨[], [], by simp⟩, fun _ _ => rfl⟩

/-- Leaving the scope brings the store back. -/
theorem Extends.leave (h : Extends keep base s) (hbase : Within keep base) : s.leave keep = base := by
  obtain ⟨names, objects, hbuilt, hobjects, hlength, hnew⟩ := h.added
  have hnames : ∀ mg ∈ names, (!keep mg) = true := fun mg hmg => by simp [hnew mg hmg]
  have hkept : ∀ mg ∈ base.built, (!keep mg) = false := fun mg hmg => by simp [hbase.built mg hmg]
  have hdrop : base.built.dropWhile (fun mg => !keep mg) = base.built := by
    cases hlist : base.built with
    | nil => rfl
    | cons mg rest => rw [List.dropWhile_cons_of_neg (by simp [hkept mg (by simp [hlist])])]
  have htake : base.built.takeWhile (fun mg => !keep mg) = [] := by
    cases hlist : base.built with
    | nil => rfl
    | cons mg rest => rw [List.takeWhile_cons_of_neg (by simp [hkept mg (by simp [hlist])])]
  have hdeclared : (fun mg => if keep mg then s.declared mg else none) = base.declared := by
    funext mg
    cases hmg : keep mg with
    | true => exact h.declared mg hmg
    | false =>
        cases hargs : base.declared mg with
        | none => rfl
        | some args =>
            have := hbase.declared mg (by rw [hargs]; rfl)
            simp [hmg] at this
  rw [MgStore.leave, hdeclared, hbuilt, hobjects, List.dropWhile_append_of_pos hnames, hdrop,
    List.takeWhile_append_of_pos hnames, htake, List.append_nil, hlength, List.drop_left]

theorem declare_declared (s : MgStore) (mg mg' : ℤ) (type : MgType) (bounded : Bool) :
    (s.declare mg type bounded).declared mg' = if mg' = mg then some (type, bounded) else s.declared mg' :=
  Function.update_apply _ _ _ _

theorem Extends.declare (h : Extends keep base s) (hnew : keep mg = false) (type : MgType)
    (bounded : Bool) : Extends keep base (s.declare mg type bounded) := by
  refine ⟨h.added, fun mg' hmg' => ?_⟩
  have hne : mg' ≠ mg := by
    rintro rfl
    simp [hnew] at hmg'
  rw [declare_declared, if_neg hne]
  exact h.declared mg' hmg'

theorem Within.declare (h : Within keep s) (hmg : keep mg = true) {type : MgType}
    (htype : type.ReadOnly) (bounded : Bool) : Within keep (s.declare mg type bounded) := by
  refine ⟨h.length, h.built, fun mg' hmg' => ?_, h.readOnly, fun mg' args hargs => ?_⟩
  · rw [declare_declared] at hmg'
    by_cases hsame : mg' = mg
    · rw [hsame]
      exact hmg
    · rw [if_neg hsame] at hmg'
      exact h.declared mg' hmg'
  · rw [declare_declared] at hargs
    by_cases hsame : mg' = mg
    · rw [if_pos hsame] at hargs
      rw [← Option.some.inj hargs]
      exact htype
    · rw [if_neg hsame] at hargs
      exact h.types mg' args hargs

/-- A build adds one object. -/
theorem Within.build_eq (h : Within keep s) {parent : Option ℤ} {vertex intersect iter : VertexSet}
    (hrun : s.build g layout path mg parent vertex intersect iter = some s') :
    ∃ m : MiniGraph, m.type.ReadOnly ∧ (s.declared mg).isSome = true ∧
      s' = { s with built := mg :: s.built, objects := m :: s.objects } := by
  simp only [MgStore.build, Option.bind_eq_bind, Option.bind_eq_some_iff, Option.pure_def,
    Option.some.injEq] at hrun
  obtain ⟨⟨type, bounded⟩, hdeclared, parent', -, objects, hbuild, rfl⟩ := hrun
  simp only [miniGraphBuild, Option.bind_eq_bind, Option.bind_eq_some_iff, Option.pure_def,
    Option.some.injEq] at hbuild
  obtain ⟨⟨m, rest⟩, hbuild, rfl⟩ := hbuild
  have htype : type.ReadOnly := h.types mg _ hdeclared
  obtain ⟨rfl, hm⟩ := MiniGraph.build_objects h.readOnly htype hbuild
  refine ⟨m, ?_, by rw [hdeclared]; rfl, rfl⟩
  rw [hm]
  exact htype

theorem Extends.build (h : Extends keep base s) (hs : Within keep' s) (hnew : keep mg = false)
    {parent : Option ℤ} {vertex intersect iter : VertexSet}
    (hrun : s.build g layout path mg parent vertex intersect iter = some s') : Extends keep base s' := by
  obtain ⟨m, -, -, rfl⟩ := hs.build_eq hrun
  obtain ⟨names, objects, hbuilt, hobjects, hlength, hnames⟩ := h.added
  refine ⟨⟨mg :: names, m :: objects, by simp [hbuilt], by simp [hobjects], by simp [hlength], ?_⟩,
    h.declared⟩
  intro mg' hmg'
  rcases List.mem_cons.mp hmg' with rfl | hmg'
  · exact hnew
  · exact hnames mg' hmg'

theorem Within.build (h : Within keep s) {parent : Option ℤ} {vertex intersect iter : VertexSet}
    (hrun : s.build g layout path mg parent vertex intersect iter = some s') : Within keep s' := by
  obtain ⟨m, htype, hdeclared, rfl⟩ := h.build_eq hrun
  refine ⟨by simp [h.length], fun mg' hmg' => ?_, h.declared, fun m' hm' => ?_, h.types⟩
  · rcases List.mem_cons.mp hmg' with rfl | hmg'
    · exact h.declared _ hdeclared
    · exact h.built mg' hmg'
  · rcases List.mem_cons.mp hm' with rfl | hm'
    · exact htype
    · exact h.readOnly m' hm'

/-- Reading leaves the store as it is. -/
theorem Within.N_eq (h : Within keep s) {i : ℕ} {value : VertexSet}
    (hrun : s.N g mg i = some (value, s')) : s' = s := by
  simp only [MgStore.N, Option.bind_eq_bind, Option.bind_eq_some_iff, Option.pure_def,
    Option.some.injEq, Prod.mk.injEq] at hrun
  obtain ⟨id, -, ⟨view, objects⟩, hN, s₁, -, -, rfl⟩ := hrun
  rw [MiniGraph.N_objects h.readOnly hN]

end MgStore

end GraphMini
