import GraphMini.Backend.MiniGraphSpec

/-!
# Reading mini-graphs

Which requests the objects of a run stand for, and that `N` answers them. An object gives each entry
`i` a part of its buffer: the places from `∑ j < i, room j` on, `room i` of them. Reading fills the
part of one entry at most, so the parts of all the others keep what they hold.
-/

namespace GraphMini

open Finset (range)

/-- The first place of an entry. -/
def entryStart (room : ℕ → ℕ) (i : ℕ) : ℕ := ∑ j ∈ range i, room j

theorem entryStart_succ (room : ℕ → ℕ) (i : ℕ) :
    entryStart room (i + 1) = entryStart room i + room i :=
  Finset.sum_range_succ room i

theorem entryStart_mono (room : ℕ → ℕ) {i j : ℕ} (h : i ≤ j) :
    entryStart room i ≤ entryStart room j :=
  Finset.sum_le_sum_of_subset (by simpa using h)

theorem entryStart_add_le (room : ℕ → ℕ) {i j : ℕ} (h : i < j) :
    entryStart room i + room i ≤ entryStart room j := by
  rw [← entryStart_succ]
  exact entryStart_mono room h

/-- A degree that says that the entry is not stored. -/
def MgType.Sentinel (type : MgType) (degree : ℕ) : Prop :=
  degree = invalidId ∨ type = .costModel ∧ degree = notPrune

namespace MiniGraph

/-- Entry `i` is stored as `len` ids from place `pos` on. -/
structure HasStored (m : MiniGraph) (i pos len : ℕ) : Prop where
  pos_get : m.pos.get i = some pos
  degree_get : m.degree.get i = some len
  stored : ¬ m.type.Sentinel len

/-- Entry `i` is left to the parent. -/
def Unpruned (m : MiniGraph) (i : ℕ) : Prop :=
  m.type = .lazy ∧ m.degree.get i = some invalidId ∨
    m.type = .costModel ∧ m.degree.get i = some notPrune

instance (m : MiniGraph) (i : ℕ) : Decidable (m.Unpruned i) := by
  unfold Unpruned
  infer_instance

/-- Nothing stored is moved, and the same entries are left to the parent. -/
structure Kept (m m' : MiniGraph) : Prop where
  parent : m'.parent = m.parent
  vertex : m'.vertex = m.vertex
  mgIndices : m'.mgIndices = m.mgIndices
  stored : ∀ i pos len, m.HasStored i pos len → m'.HasStored i pos len
  unpruned : ∀ i, m'.Unpruned i ↔ m.Unpruned i

theorem Kept.refl (m : MiniGraph) : m.Kept m :=
  ⟨rfl, rfl, rfl, fun _ _ _ => id, fun _ => Iff.rfl⟩

theorem Kept.trans {m₁ m₂ m₃ : MiniGraph} (h : m₁.Kept m₂) (h' : m₂.Kept m₃) : m₁.Kept m₃ where
  parent := h'.parent.trans h.parent
  vertex := h'.vertex.trans h.vertex
  mgIndices := h'.mgIndices.trans h.mgIndices
  stored i pos len hm := h'.stored i pos len (h.stored i pos len hm)
  unpruned i := (h'.unpruned i).trans (h.unpruned i)

/-- What a build passes on to the object. -/
structure Same (m : MiniGraph) (req : BuildRequest) : Prop where
  type : m.type = req.type
  bounded : m.bounded = req.bounded
  parent : m.parent = req.parent
  vertex : m.vertex = req.vertex
  intersect : m.intersect = req.intersect

/-- The object knows where its vertices stand in the parent, too. -/
structure Matches (m : MiniGraph) (reqs : List BuildRequest) (req : BuildRequest) : Prop
    extends m.Same req where
  linked : ∀ p parent, req.parent = some p → lookup reqs p = some parent →
    ∀ i v : ℕ, req.vertex.data[i]? = some v →
      ∃ j : ℕ, m.mgIndices[i]? = some j ∧ parent.vertex.data[j]? = some v

/-- The states of an entry. -/
inductive Entry (g : Graph) (req : BuildRequest) (m : MiniGraph) (start room i v : ℕ) : Prop where
  | stored (pos : m.pos.get i = some start)
      (degree : m.degree.get i = some (req.exact g v).length)
      (read : m.ctn.read start (req.exact g v).length = some (req.exact g v))
      (fits : (req.exact g v).length ≤ room) (kept : ¬ req.LeftFree i v)
  | reserved (type : req.type = .online ∨ req.type = .costModel)
      (pos : m.pos.get i = some start) (degree : m.degree.get i = some invalidId)
      (fits : (req.exact g v).length ≤ room) (kept : ¬ req.LeftFree i v)
  | unpruned (state : m.Unpruned i) (free : v ∉ req.iter.data) (left : req.LeftFree i v)

/-- The first `k` entries of an object that is being built. -/
structure Holds (g : Graph) (reqs : List BuildRequest) (req : BuildRequest) (room : ℕ → ℕ) (k : ℕ)
    (m : MiniGraph) : Prop extends m.Matches reqs req where
  degree_capacity : req.vertex.size ≤ m.degree.capacity
  fits : entryStart room k ≤ m.ctn.capacity
  entry : ∀ i < k, ∀ v, req.vertex.data[i]? = some v → Entry g req m (entryStart room i) (room i) i v

/-- The object stands for the request. -/
def Represents (g : Graph) (reqs : List BuildRequest) (m : MiniGraph) (req : BuildRequest) : Prop :=
  ∃ room, m.Holds g reqs req room req.vertex.size

end MiniGraph

/-- The objects stand for the requests they were built for. -/
inductive Represent (g : Graph) : List BuildRequest → List MiniGraph → Prop where
  | nil : Represent g [] []
  | cons {reqs req objects m} : req.Admissible g reqs → m.Represents g reqs req →
      Represent g reqs objects → Represent g (req :: reqs) (m :: objects)

/-- Nothing stored in any object is moved. -/
def Keeps : List MiniGraph → List MiniGraph → Prop := List.Forall₂ MiniGraph.Kept

/-- What entry `i` of object `id` is read as. -/
def shown (g : Graph) : List BuildRequest → List MiniGraph → ℕ → ℕ → VertexSet
  | req :: reqs, m :: rest, id, i =>
      if id = rest.length then
        let v := req.vertex.data.getD i 0
        if m.Unpruned i then
          match m.parent with
          | none => g.N v
          | some p => shown g reqs rest p (m.mgIndices.getD i 0)
        else { data := req.exact g v, vid := v }
      else shown g reqs rest id i
  | _, _, _, _ => { data := [] }

theorem Keeps.refl : ∀ objects : List MiniGraph, Keeps objects objects
  | [] => List.Forall₂.nil
  | m :: rest => List.Forall₂.cons (MiniGraph.Kept.refl m) (Keeps.refl rest)

/-- A view that later reads and builds leave alone. -/
def View.Settled (objects : List MiniGraph) (view : View) : Prop :=
  match view.place with
  | .graph => True
  | .miniGraph id => ∃ m, lookup objects id = some m ∧
      ∃ i, i < m.vertex.size ∧ m.HasStored i view.pos view.len

/-! ### Looking objects up -/

section Lookup

variable {α : Type} {a b : α} {l : List α} {id : ℕ}

theorem lookup_lt (h : lookup l id = some a) : id < l.length := by
  induction l with
  | nil => simp [lookup] at h
  | cons b l ih =>
      rw [lookup] at h
      split_ifs at h with heq
      · simp [heq]
      · have := ih h
        simp only [List.length_cons]
        omega

theorem lookup_cons (b : α) (h : lookup l id = some a) : lookup (b :: l) id = some a := by
  rw [lookup, if_neg (lookup_lt h).ne, h]

theorem lookup_self (a : α) (l : List α) : lookup (a :: l) l.length = some a := by
  rw [lookup, if_pos rfl]

theorem Keeps.lookup {objects objects' : List MiniGraph} {m : MiniGraph} (h : Keeps objects objects')
    (hm : lookup objects id = some m) : ∃ m', lookup objects' id = some m' ∧ m.Kept m' := by
  induction h with
  | nil => simp [GraphMini.lookup] at hm
  | cons hkept htail ih =>
      rw [GraphMini.lookup, ← htail.length_eq]
      rw [GraphMini.lookup] at hm
      split_ifs at hm ⊢ with heq
      · cases hm
        exact ⟨_, rfl, hkept⟩
      · exact ih hm

end Lookup

theorem Keeps.length_eq {objects objects' : List MiniGraph} (h : Keeps objects objects') :
    objects.length = objects'.length :=
  List.Forall₂.length_eq h

theorem Keeps.trans {o₁ o₂ o₃ : List MiniGraph} (h : Keeps o₁ o₂) (h' : Keeps o₂ o₃) :
    Keeps o₁ o₃ := by
  induction h generalizing o₃ with
  | nil => exact h'
  | cons hkept _ ih =>
      cases h' with
      | cons hkept' htail' => exact List.Forall₂.cons (hkept.trans hkept') (ih htail')

/-- Reading and building do not change what the entries are read as. -/
theorem Keeps.shown_eq {g : Graph} {objects objects' : List MiniGraph} (h : Keeps objects objects')
    (reqs : List BuildRequest) (id i : ℕ) :
    shown g reqs objects' id i = shown g reqs objects id i := by
  induction h generalizing reqs id i with
  | nil => rfl
  | cons hkept htail ih =>
      cases reqs with
      | nil => rfl
      | cons req reqs =>
          simp only [shown, ← htail.length_eq, hkept.parent, hkept.mgIndices, hkept.unpruned, ih]

theorem View.Settled.mono {objects objects' : List MiniGraph} {view : View}
    (h : Keeps objects objects') (hs : view.Settled objects) : view.Settled objects' := by
  obtain ⟨place, pos, len, vid⟩ := view
  cases place with
  | graph => trivial
  | miniGraph id =>
      obtain ⟨m, hm, i, hi, hstored⟩ := hs
      obtain ⟨m', hm', hkept⟩ := h.lookup hm
      exact ⟨m', hm', i, hkept.vertex ▸ hi, hkept.stored i pos len hstored⟩

theorem View.Settled.cons {objects : List MiniGraph} {view : View} (m : MiniGraph)
    (hs : view.Settled objects) : view.Settled (m :: objects) := by
  obtain ⟨place, pos, len, vid⟩ := view
  cases place with
  | graph => trivial
  | miniGraph id =>
      obtain ⟨m₀, hm₀, hstored⟩ := hs
      exact ⟨m₀, lookup_cons m hm₀, hstored⟩

theorem View.read_cons {g : Graph} {objects : List MiniGraph} {view : View} (m : MiniGraph)
    (hs : view.Settled objects) : view.read g (m :: objects) = view.read g objects := by
  obtain ⟨place, pos, len, vid⟩ := view
  cases place with
  | graph => rfl
  | miniGraph id =>
      obtain ⟨m₀, hm₀, -⟩ := hs
      simp only [View.read, hm₀, lookup_cons m hm₀]

/-! ### Requests and objects side by side -/

section Represent

variable {g : Graph} {reqs : List BuildRequest} {objects objects' : List MiniGraph} {id : ℕ}
  {req : BuildRequest}

theorem Represent.length_eq (h : Represent g reqs objects) : reqs.length = objects.length := by
  induction h with
  | nil => rfl
  | cons _ _ _ ih => simp [ih]

theorem Represent.lookup (h : Represent g reqs objects) (hreq : lookup reqs id = some req) :
    ∃ m, GraphMini.lookup objects id = some m ∧ ∃ reqs', m.Represents g reqs' req ∧ req.Sets g := by
  induction h with
  | nil => simp [GraphMini.lookup] at hreq
  | cons hadm hm htail ih =>
      rw [GraphMini.lookup] at hreq
      rw [GraphMini.lookup, ← htail.length_eq]
      split_ifs at hreq ⊢ with heq
      · cases hreq
        exact ⟨_, rfl, _, hm, hadm.sets⟩
      · exact ih hreq

theorem Represent.lookup_req {m : MiniGraph} (h : Represent g reqs objects)
    (hm : GraphMini.lookup objects id = some m) :
    ∃ req, GraphMini.lookup reqs id = some req ∧ ∃ reqs', m.Represents g reqs' req := by
  induction h with
  | nil => simp [GraphMini.lookup] at hm
  | cons _ hm' htail ih =>
      rw [GraphMini.lookup] at hm
      rw [GraphMini.lookup, htail.length_eq]
      split_ifs at hm ⊢ with heq
      · cases hm
        exact ⟨_, rfl, _, hm'⟩
      · exact ih hm

/-- A stored entry holds the exact list of its vertex. -/
theorem MiniGraph.Represents.read_stored {m : MiniGraph} {i pos len : ℕ}
    (h : m.Represents g reqs req) (hi : i < m.vertex.size) (hstored : m.HasStored i pos len) :
    ∃ v, req.vertex.data[i]? = some v ∧ m.ctn.read pos len = some (req.exact g v) := by
  obtain ⟨room, hm⟩ := h
  rw [hm.vertex] at hi
  have hv : req.vertex.data[i]? = some (req.vertex.data[i]) := List.getElem?_eq_getElem hi
  refine ⟨_, hv, ?_⟩
  have hpos := hstored.pos_get
  have hdegree := hstored.degree_get
  have hnot := hstored.stored
  rw [hm.type] at hnot
  cases hm.entry i hi _ hv with
  | stored pos' degree' read' _ _ =>
      rw [pos'] at hpos
      rw [degree'] at hdegree
      cases hpos
      cases hdegree
      exact read'
  | reserved _ _ degree' _ _ =>
      rw [degree'] at hdegree
      cases hdegree
      exact absurd (Or.inl rfl) hnot
  | unpruned state' _ _ =>
      rcases state' with ⟨-, degree'⟩ | ⟨htype, degree'⟩
      · rw [degree'] at hdegree
        cases hdegree
        exact absurd (Or.inl rfl) hnot
      · rw [degree'] at hdegree
        cases hdegree
        exact absurd (Or.inr ⟨hm.type ▸ htype, rfl⟩) hnot

/-- What a settled view shows stays as it is. -/
theorem View.Settled.read_eq {view : View} (hs : view.Settled objects)
    (h : Represent g reqs objects) (h' : Represent g reqs objects') (hkeep : Keeps objects objects') :
    view.read g objects' = view.read g objects := by
  obtain ⟨place, pos, len, vid⟩ := view
  cases place with
  | graph => rfl
  | miniGraph id =>
      obtain ⟨m, hm, i, hi, hstored⟩ := hs
      obtain ⟨m', hm', hkept⟩ := hkeep.lookup hm
      obtain ⟨req, hreq, _, hrep⟩ := h.lookup_req hm
      obtain ⟨req', hreq', _, hrep'⟩ := h'.lookup_req hm'
      obtain rfl : req = req' := Option.some.inj (hreq.symm.trans hreq')
      obtain ⟨v, hv, hread⟩ := hrep.read_stored hi hstored
      obtain ⟨v', hv', hread'⟩ :=
        hrep'.read_stored (hkept.vertex ▸ hi) (hkept.stored i pos len hstored)
      obtain rfl : v = v' := Option.some.inj (hv.symm.trans hv')
      simp [View.read, hm, hm', hread, hread']

end Represent

end GraphMini
