import GraphMini.Backend.Graph
import GraphMini.Lib.Borrowing

/-!
# Vertex sets in memory

A `VertexSet` object of `backend/vertex_set.h` is a pointer and a size. The pointer goes into the index
array of the graph, into the memory of a mini-graph or into a buffer of the pool of its thread, and an
object that is pooled gives its buffer back when it is destroyed. `VertexSet` is what such an object holds
at one point of a run. A buffer has room for `MAX_DEGREE + 1` ids. What is written to it stays in its
memory, also what is written beyond its end, so the memory tells afterwards whether all writes fitted.
-/

namespace GraphMini

open Borrowing

/-- Where `m_data` points to. The buffers are numbered in the order in which they come to exist. A
mini-graph has its entries in containers of its own, and an entry that has been filled stays as it is. -/
inductive DataPtr where
  | row (v : ℕ)
  | entry (ids : List ℕ)
  | buffer (b : ℕ)
deriving DecidableEq, Repr

def DataPtr.toBuffer : DataPtr → Option ℕ
  | .row _ => none
  | .entry _ => none
  | .buffer b => some b

structure SetObject where
  data : DataPtr
  vid : ℕ := invalidId
  size : ℕ
  pooled : Bool
deriving DecidableEq, Repr

/-- `VertexSetPool`; the top of the stack `buffer_avail` comes first. `memory` is what has been written
to the buffers. -/
structure VertexSetPool where
  bufferExist : ℕ := 0
  bufferAvail : List ℕ := []
  memory : ℕ → List ℕ := fun _ => []

/-- `Graph::N`. -/
def Graph.rowObject (g : Graph) (v : ℕ) : SetObject :=
  { data := .row v, vid := (g.N v).vid, size := (g.N v).size, pooled := false }

/-- What `N` of a mini-graph returns. -/
def VertexSet.entryObject (s : VertexSet) : SetObject :=
  { data := .entry s.data, vid := s.vid, size := s.size, pooled := false }

/-- The copy constructor copies the pointer. -/
def SetObject.copy (s : SetObject) : SetObject := { s with pooled := false }

namespace VertexSetPool

variable (g : Graph) (pool : VertexSetPool)

def allocateWorkSpace : ℕ × VertexSetPool :=
  match pool.bufferAvail with
  | [] => (pool.bufferExist, { pool with bufferExist := pool.bufferExist + 1 })
  | b :: rest => (b, { pool with bufferAvail := rest })

def freeWorkSpace (b : ℕ) : VertexSetPool := { pool with bufferAvail := b :: pool.bufferAvail }

/-- The destructor. -/
def destroy (s : SetObject) : VertexSetPool :=
  match s.pooled, s.data with
  | true, .buffer b => pool.freeWorkSpace b
  | _, _ => pool

/-- The first entries of a buffer are written. -/
def write (b : ℕ) (values : List ℕ) : VertexSetPool :=
  { pool with memory := Function.update pool.memory b (values ++ (pool.memory b).drop values.length) }

/-- What lies behind a pointer. -/
def elements : DataPtr → List ℕ
  | .row v => (g.N v).data
  | .entry ids => ids
  | .buffer b => pool.memory b

/-- No buffer has been written beyond this length. -/
def Within (capacity : ℕ∞) : Prop := ∀ b, ((pool.memory b).length : ℕ∞) ≤ capacity

/-- What an object holds. -/
def contents (s : SetObject) : VertexSet :=
  { data := (pool.elements g s.data).take s.size, vid := s.vid }

/-- `VertexSet out(size());`, filled with the result. An entry is written after the entries it comes
from are read, also where the receiver points into the same buffer. -/
def fill (values : List ℕ) : SetObject × VertexSetPool :=
  let (b, pool) := pool.allocateWorkSpace
  ({ data := .buffer b, size := values.length, pooled := true }, pool.write b values)

def intersect (s other : SetObject) (upper : Option ℕ) : SetObject × VertexSetPool :=
  pool.fill ((pool.contents g s).intersect (pool.contents g other) upper).data

def subtract (s other : SetObject) (upper : Option ℕ) : SetObject × VertexSetPool :=
  pool.fill ((pool.contents g s).subtract (pool.contents g other) upper).data

def bounded (s : SetObject) (upper : ℕ) : SetObject × VertexSetPool :=
  ({ s with size := (pool.contents g s).boundedCnt upper, pooled := false }, pool)

def remove (s : SetObject) (id : ℕ) : SetObject × VertexSetPool :=
  if (pool.contents g s).removeFinds id then pool.fill ((pool.contents g s).remove id).data
  else ({ s with vid := invalidId, pooled := false }, pool)

end VertexSetPool

/-! ### Which buffer an object keeps -/

def SetObject.handle (s : SetObject) : Handle ℕ :=
  match s.pooled, s.data with
  | true, .buffer b => .owns b
  | false, .buffer b => .borrows b
  | _, .row _ => .outside
  | _, .entry _ => .outside

/-- A view of a buffer is one of a buffer that these objects own. -/
def SetObject.RestsOn (s : SetObject) (objects : List SetObject) : Prop :=
  s.pooled = false → ∀ b, s.data = .buffer b → b ∈ owned (objects.map SetObject.handle)

/-- The objects that are alive, the youngest first, have their buffers to themselves. -/
structure VertexSetPool.Backs (pool : VertexSetPool) (live : List SetObject) : Prop where
  apart : Apart pool.bufferAvail (live.map SetObject.handle)
  exist : ∀ b, b ∈ owned (live.map SetObject.handle) ∨ b ∈ pool.bufferAvail → b < pool.bufferExist

namespace SetObject

variable {s : SetObject} {objects : List SetObject} {b : ℕ}

theorem buffer_handle (s : SetObject) (b : ℕ) : s.handle.buffer = some b ↔ s.data = .buffer b := by
  obtain ⟨data, vid, size, pooled⟩ := s
  cases data <;> cases pooled <;> simp [handle, Handle.buffer]

theorem handle_eq_borrows : s.handle = .borrows b ↔ s.pooled = false ∧ s.data = .buffer b := by
  obtain ⟨data, vid, size, pooled⟩ := s
  cases data <;> cases pooled <;> simp [handle]

theorem handle_eq_owns : s.handle = .owns b ↔ s.pooled = true ∧ s.data = .buffer b := by
  obtain ⟨data, vid, size, pooled⟩ := s
  cases data <;> cases pooled <;> simp [handle]

theorem RestsOn.append (h : s.RestsOn objects) (young : List SetObject) : s.RestsOn (young ++ objects) := by
  intro hpooled b hb
  rw [List.map_append, mem_owned_append]
  exact Or.inr (h hpooled b hb)

theorem RestsOn.borrows {young : List SetObject} (h : ∀ x ∈ young, x.RestsOn objects) (b : ℕ)
    (hb : .borrows b ∈ young.map handle) : b ∈ owned (objects.map handle) := by
  obtain ⟨x, hx, heq⟩ := List.mem_map.mp hb
  obtain ⟨hpooled, hdata⟩ := handle_eq_borrows.mp heq
  exact h x hx hpooled b hdata

end SetObject

namespace VertexSetPool

variable {g : Graph} {pool : VertexSetPool} {live rest : List SetObject} {s : SetObject}

theorem destroy_eq (pool : VertexSetPool) (s : SetObject) :
    pool.destroy s = { pool with bufferAvail := release pool.bufferAvail s.handle } := by
  obtain ⟨data, vid, size, pooled⟩ := s
  cases data <;> cases pooled <;> rfl

@[simp] theorem contents_destroy (pool : VertexSetPool) (s x : SetObject) :
    (pool.destroy s).contents g x = pool.contents g x := by
  rw [destroy_eq]
  rfl

@[simp] theorem within_destroy (pool : VertexSetPool) (s : SetObject) (capacity : ℕ∞) :
    (pool.destroy s).Within capacity ↔ pool.Within capacity := by
  rw [destroy_eq]
  rfl

theorem contents_rowObject (pool : VertexSetPool) (v : ℕ) : pool.contents g (g.rowObject v) = g.N v := by
  rw [contents, Graph.rowObject, elements, VertexSet.size, List.take_length]

theorem contents_entryObject (pool : VertexSetPool) (value : VertexSet) :
    pool.contents g value.entryObject = value := by
  rw [contents, VertexSet.entryObject, elements, VertexSet.size, List.take_length]

theorem contents_fill (pool : VertexSetPool) (values : List ℕ) :
    (pool.fill values).2.contents g (pool.fill values).1 = { data := values } := by
  simp [fill, contents, elements, write]

/-- A bounded view of an object holds its elements below the bound. -/
theorem contents_bounded (hsize : s.size = (pool.contents g s).size) (upper : ℕ) :
    pool.contents g (pool.bounded g s upper).1 = (pool.contents g s).bounded upper ∧
      (pool.bounded g s upper).1.size = ((pool.contents g s).bounded upper).size := by
  have hcnt : (pool.contents g s).boundedCnt upper ≤ (pool.contents g s).size := searchUpper_le _ _
  constructor
  · have htake : ((pool.elements g s.data).take s.size).take ((pool.contents g s).boundedCnt upper)
        = (pool.elements g s.data).take ((pool.contents g s).boundedCnt upper) := by
      rw [List.take_take, min_eq_left (hsize ▸ hcnt)]
    exact congrArg (fun data => ({ data, vid := s.vid } : VertexSet)) htake.symm
  · exact (List.length_take_of_le hcnt).symm

theorem memory_allocate (pool : VertexSetPool) : pool.allocateWorkSpace.2.memory = pool.memory := by
  rw [allocateWorkSpace]
  cases pool.bufferAvail <;> rfl

/-- Filling a buffer adds one write. -/
theorem within_fill {values : List ℕ} {capacity : ℕ∞} : (pool.fill values).2.Within capacity ↔
    pool.Within capacity ∧ (values.length : ℕ∞) ≤ capacity := by
  have hother : ∀ b ≠ pool.allocateWorkSpace.1, (pool.fill values).2.memory b = pool.memory b := by
    intro b hb
    simp only [fill, write, memory_allocate, Function.update_of_ne hb]
  have hwritten : ((pool.fill values).2.memory pool.allocateWorkSpace.1).length
      = max values.length (pool.memory pool.allocateWorkSpace.1).length := by
    simp only [fill, write, memory_allocate, Function.update_self, List.length_append, List.length_drop]
    omega
  constructor
  · intro hall
    have hmax := hall pool.allocateWorkSpace.1
    rw [hwritten, Nat.mono_cast.map_max, max_le_iff] at hmax
    refine ⟨fun b => ?_, hmax.1⟩
    by_cases hb : b = pool.allocateWorkSpace.1
    · rw [hb]
      exact hmax.2
    · rw [← hother b hb]
      exact hall b
  · rintro ⟨hall, hvalues⟩ b
    by_cases hb : b = pool.allocateWorkSpace.1
    · rw [hb, hwritten, Nat.mono_cast.map_max, max_le_iff]
      exact ⟨hvalues, hall _⟩
    · rw [hother b hb]
      exact hall b

/-- An object that points elsewhere keeps what it holds. -/
theorem contents_fill_of_ne {values : List ℕ} {x : SetObject} (hne : x.data ≠ (pool.fill values).1.data) :
    (pool.fill values).2.contents g x = pool.contents g x := by
  cases hdata : x.data with
  | row v | entry ids => simp only [contents, hdata, elements]
  | buffer b =>
      rw [hdata] at hne
      have hb : b ≠ pool.allocateWorkSpace.1 := fun heq => hne (heq ▸ rfl)
      simp only [contents, hdata, elements, VertexSetPool.fill, write, memory_allocate, Function.update_of_ne hb]

namespace Backs

/-- No object points into a buffer that is owned by nobody. -/
theorem data_ne (h : pool.Backs live) {b : ℕ} (hb : b ∉ owned (live.map SetObject.handle)) :
    ∀ x ∈ live, x.data ≠ .buffer b := by
  intro x hx hdata
  apply hb
  exact h.apart.stacked.mem_owned (List.mem_map_of_mem hx) ((x.buffer_handle b).mpr hdata)

/-- No object points into a buffer that is handed out next. -/
theorem safe (h : pool.Backs live) {b : ℕ} (hs : s ∈ live) (hdata : s.data = .buffer b) :
    b ∉ pool.bufferAvail :=
  h.apart.safe (List.mem_map_of_mem hs) ((s.buffer_handle b).mpr hdata)

/-- The object that is filled has a buffer that no other object points into. -/
theorem fill (h : pool.Backs live) (values : List ℕ) :
    (pool.fill values).2.Backs ((pool.fill values).1 :: live) ∧
      ∀ x ∈ live, x.data ≠ (pool.fill values).1.data := by
  cases havail : pool.bufferAvail with
  | nil =>
      have hnew : pool.bufferExist ∉ owned (live.map SetObject.handle) := fun hmem =>
        lt_irrefl _ (h.exist _ (Or.inl hmem))
      simp only [VertexSetPool.fill, allocateWorkSpace, havail]
      refine ⟨⟨?_, fun b hb => ?_⟩, h.data_ne hnew⟩
      · have hapart : Apart [] (live.map SetObject.handle) := havail ▸ h.apart
        exact havail ▸ hapart.own hnew List.not_mem_nil
      · have hlt : b = pool.bufferExist ∨ b < pool.bufferExist := by
          rcases hb with hb | hb
          · refine (mem_owned_cons.mp hb).imp (fun heq => (Handle.owns.inj heq).symm) fun hb => ?_
            exact h.exist b (Or.inl hb)
          · simp [write] at hb
        exact Nat.lt_succ_iff_lt_or_eq.mpr hlt.symm
  | cons b rest =>
      have hapart : Apart (b :: rest) (live.map SetObject.handle) := havail ▸ h.apart
      have hnew : b ∉ owned (live.map SetObject.handle) := fun hmem =>
        hapart.not_free b hmem List.mem_cons_self
      simp only [VertexSetPool.fill, allocateWorkSpace, havail]
      refine ⟨⟨hapart.take, fun b' hb' => h.exist b' ?_⟩, h.data_ne hnew⟩
      rw [havail, List.mem_cons]
      rcases hb' with hb' | hb'
      · rcases mem_owned_cons.mp hb' with heq | hb'
        · exact Or.inr (Or.inl (Handle.owns.inj heq).symm)
        · exact Or.inl hb'
      · exact Or.inr (Or.inr hb')

/-- A new object that points into a row or a buffer that has an owner, and owns nothing itself. -/
theorem view (h : pool.Backs live) (hpooled : s.pooled = false) (hs : s.RestsOn live) :
    pool.Backs (s :: live) := by
  have howns : ∀ b, s.handle ≠ .owns b := fun b hb => by
    simp [(SetObject.handle_eq_owns.mp hb).1] at hpooled
  constructor
  · exact h.apart.borrow howns fun b hb => hs hpooled b (SetObject.handle_eq_borrows.mp hb).2
  · intro b hb
    exact h.exist b (hb.imp_left fun hb => (mem_owned_cons.mp hb).resolve_left (howns b))

/-- An object is forgotten that no younger one points into. -/
theorem forget (young : List SetObject) (h : pool.Backs (young ++ s :: rest))
    (hyoung : ∀ x ∈ young, x.RestsOn rest) : pool.Backs (young ++ rest) := by
  obtain ⟨hapart, hexist⟩ := h
  rw [List.map_append, List.map_cons] at hapart hexist
  refine ⟨?_, fun b hb => hexist b (hb.imp_left fun hb => ?_)⟩
  · rw [List.map_append]
    exact hapart.forget (SetObject.RestsOn.borrows hyoung)
  · rw [List.map_append, mem_owned_append] at hb
    rw [mem_owned_append, mem_owned_cons]
    exact hb.imp_right Or.inr

/-- Objects in the middle are forgotten. -/
theorem forgetAll (young : List SetObject) {mid : List SetObject} (h : pool.Backs (young ++ (mid ++ rest)))
    (hyoung : ∀ x ∈ young, x.RestsOn rest) : pool.Backs (young ++ rest) := by
  induction mid with
  | nil => exact h
  | cons s mid ih =>
      rw [List.cons_append] at h
      exact ih (forget young h fun x hx => (hyoung x hx).append mid)

/-- An object is destroyed that no younger one points into. -/
theorem drop (young : List SetObject) (h : pool.Backs (young ++ s :: rest))
    (hyoung : ∀ x ∈ young, x.RestsOn rest) : (pool.destroy s).Backs (young ++ rest) := by
  have hforget := forget young h hyoung
  obtain ⟨hapart, hexist⟩ := h
  rw [List.map_append, List.map_cons] at hapart hexist
  rw [destroy_eq]
  constructor
  · rw [List.map_append]
    exact hapart.drop (SetObject.RestsOn.borrows hyoung)
  · intro b hb
    rcases hb with hb | hb
    · exact hforget.exist b (Or.inl hb)
    · rcases mem_release.mp hb with hs | hb
      · exact hexist b (Or.inl (mem_owned_append.mpr (Or.inr (mem_owned_cons.mpr (Or.inl hs)))))
      · exact hforget.exist b (Or.inr hb)

/-- The youngest object is destroyed. -/
theorem pop (h : pool.Backs (s :: rest)) : (pool.destroy s).Backs rest :=
  drop [] h (by simp)

end Backs

end VertexSetPool

end GraphMini
