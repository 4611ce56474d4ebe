import GraphMini.Lib.Buffer
import GraphMini.Backend.MiniGraphBuild
import Mathlib.Data.List.Sort

/-!
# The pool of containers

`MiniGraphPool` with its lists and the arrays behind them. A container is handed out, freed and handed
out again, possibly for a smaller request, and carries what was written into it along. In every history
the containers that are held and those that are available are all that were ever allocated, each once,
so that no array is ever in two hands.
-/

namespace GraphMini

/-- The pointer is `none` for null, and else the number of the array. -/
structure Container where
  data : Option ℕ
  capacity : ℕ
deriving DecidableEq, Repr

/-- `m_4k_buffer_exist` is left out: nothing is ever put there, small containers are entered into
`buffer_exist` as well. Capacities are not cut to the machine's words. -/
structure ContainerPool where
  bufferExist : List Container := []
  bufferAvail : List Container := []
  m4kBufferAvail : List Container := []
  totalAllocated : ℕ := 0
  memory : List (Buffer ℕ) := []

namespace ContainerPool

/-- `4096 / sizeof(IdType)`, also `m_increment`. -/
def m4kCap : ℕ := 1024

def kAllocScale : ℚ := 3 / 2

variable (pool : ContainerPool)

/-- `new IdType[capacity]` with the entry in `buffer_exist`. -/
def newContainer (capacity : ℕ) : Container × ContainerPool :=
  let ctn : Container := { data := some pool.memory.length, capacity }
  (ctn, { pool with
    bufferExist := pool.bufferExist ++ [ctn]
    totalAllocated := pool.totalAllocated + capacity * 4
    memory := pool.memory ++ [Buffer.fresh capacity] })

def allocateSmallWorkSpace : Container × ContainerPool :=
  match pool.m4kBufferAvail.getLast? with
  | none => pool.newContainer m4kCap
  | some out => (out, { pool with m4kBufferAvail := pool.m4kBufferAvail.dropLast })

def freeSmallWorkSpace (ctn : Container) : ContainerPool :=
  { pool with m4kBufferAvail := pool.m4kBufferAvail ++ [ctn] }

/-- The capacity of a new large container, computed without rounding. -/
def newCapacity (numElements : ℕ) : ℕ :=
  ⌊((numElements * kAllocScale / m4kCap) + 1) * m4kCap⌋.toNat

/-- The first available container that is large enough. Where there is none, the function ends without
a `return`. -/
def firstFit (numElements : ℕ) : Option (Container × ContainerPool) := do
  let out ← pool.bufferAvail.find? (numElements ≤ ·.capacity)
  return (out, { pool with bufferAvail := pool.bufferAvail.eraseP (numElements ≤ ·.capacity) })

def allocateWorkSpace (numElements : ℕ) : Option (Container × ContainerPool) :=
  if numElements ≤ m4kCap then some pool.allocateSmallWorkSpace
  else
    match pool.bufferAvail.getLast? with
    | none => some (pool.newContainer (newCapacity numElements))
    | some back =>
        if back.capacity < numElements then some (pool.newContainer (newCapacity numElements))
        else pool.firstFit numElements

/-- A large container goes before the first one that is at least as large. -/
def freeWorkSpace (ctn : Container) : ContainerPool :=
  if ctn.data = none then pool
  else if ctn.capacity ≤ m4kCap then pool.freeSmallWorkSpace ctn
  else { pool with
    bufferAvail := pool.bufferAvail.orderedInsert (fun a b => a.capacity ≤ b.capacity) ctn }

/-- The array of a container. -/
def array (ctn : Container) : Option (Buffer ℕ) := do
  pool.memory[← ctn.data]?

/-- `ctn[i]`. -/
def get (ctn : Container) (i : ℕ) : Option ℕ := do
  (← pool.array ctn).get i

/-- `ctn[i] = value`. -/
def set (ctn : Container) (i value : ℕ) : Option ContainerPool := do
  let b ← (← pool.array ctn).set i value
  return { pool with memory := pool.memory.set (← ctn.data) b }

/-- `std::copy(ctn.data, ctn.data + ctn.capacity, out.data)`. -/
def copy (ctn out : Container) : Option ContainerPool := do
  let b ← (← pool.array out).copy (← pool.array ctn) ctn.capacity
  return { pool with memory := pool.memory.set (← out.data) b }

def resize (ctn : Container) (newCapacity : ℕ) : Option (Container × ContainerPool) :=
  match ctn.data with
  | none => pool.allocateWorkSpace newCapacity
  | some _ => do
      let (out, pool) ← pool.allocateWorkSpace newCapacity
      let pool ← pool.copy ctn out
      return (out, pool.freeWorkSpace ctn)

end ContainerPool

/-- The histories of a pool, with the containers that are held at the end. Who holds a container may
write into it. A null container may be freed and resized, too. -/
inductive ContainerPool.Run : ContainerPool → List Container → Prop
  | start : Run {} []
  | allocate {pool pool' held ctn} (numElements : ℕ) (h : Run pool held)
      (hrun : pool.allocateWorkSpace numElements = some (ctn, pool')) : Run pool' (ctn :: held)
  | free {pool held ctn} (h : Run pool held) (hctn : ctn.data = none ∨ ctn ∈ held) :
      Run (pool.freeWorkSpace ctn) (held.erase ctn)
  | resize {pool pool' held ctn out} (newCapacity : ℕ) (h : Run pool held)
      (hctn : ctn.data = none ∨ ctn ∈ held) (hlarger : ctn.capacity < newCapacity)
      (hrun : pool.resize ctn newCapacity = some (out, pool')) :
      Run pool' (out :: held.erase ctn)
  | set {pool pool' held ctn} (i value : ℕ) (h : Run pool held) (hctn : ctn ∈ held)
      (hrun : pool.set ctn i value = some pool') : Run pool' held

namespace ContainerPool

/-- What every history keeps. -/
structure WellFormed (pool : ContainerPool) (held : List Container) : Prop where
  pointers : pool.bufferExist.map Container.data = (List.range pool.memory.length).map some
  partition : (held ++ (pool.bufferAvail ++ pool.m4kBufferAvail)).Perm pool.bufferExist
  arrays : ∀ ctn ∈ pool.bufferExist, ∃ b, pool.array ctn = some b ∧ b.capacity = ctn.capacity
  least : ∀ ctn ∈ pool.bufferExist, m4kCap ≤ ctn.capacity
  sorted : pool.bufferAvail.Pairwise (·.capacity ≤ ·.capacity)
  large : ∀ ctn ∈ pool.bufferAvail, m4kCap < ctn.capacity
  small : ∀ ctn ∈ pool.m4kBufferAvail, ctn.capacity = m4kCap
  allocated : pool.totalAllocated = 4 * (pool.bufferExist.map Container.capacity).sum

/-- A container is handed out that nobody holds, and the other ones keep their arrays. -/
structure HandsOut (pool : ContainerPool) (held : List Container) (numElements : ℕ) (ctn : Container)
    (pool' : ContainerPool) : Prop where
  enough : numElements ≤ ctn.capacity
  wellFormed : pool'.WellFormed (ctn :: held)
  keeps : ∀ c ∈ pool.bufferExist, pool'.array c = pool.array c

instance : Std.Total fun a b : Container => a.capacity ≤ b.capacity :=
  ⟨fun _ _ => le_total _ _⟩

instance : IsTrans Container fun a b => a.capacity ≤ b.capacity :=
  ⟨fun _ _ _ => le_trans⟩

variable {pool pool' : ContainerPool} {held : List Container} {ctn out : Container} {n : ℕ}

theorem newCapacity_eq (n : ℕ) : newCapacity n = n * 3 / 2 + 1024 := by
  have hexact : ((n : ℚ) * kAllocScale / m4kCap + 1) * m4kCap = ((n * 3 : ℕ) : ℚ) / 2 + (1024 : ℕ) := by
    rw [kAllocScale, m4kCap]
    push_cast
    ring
  rw [newCapacity, hexact, Int.floor_add_natCast]
  have hfloor : ⌊((n * 3 : ℕ) : ℚ) / 2⌋ = ((n * 3 : ℕ) : ℤ) / 2 :=
    Rat.floor_natCast_div_natCast (n * 3) 2
  rw [hfloor]
  omega

namespace WellFormed

theorem start : WellFormed {} [] where
  pointers := rfl
  partition := List.Perm.refl _
  arrays := by simp
  least := by simp
  sorted := List.Pairwise.nil
  large := by simp
  small := by simp
  allocated := rfl

/-- No array is in two hands, or held and available. -/
theorem nodup (h : pool.WellFormed held) :
    ((held ++ (pool.bufferAvail ++ pool.m4kBufferAvail)).map Container.data).Nodup := by
  rw [(h.partition.map Container.data).nodup_iff, h.pointers]
  exact List.nodup_range.map (Option.some_injective _)

theorem mem_exist (h : pool.WellFormed held) (hctn : ctn ∈ held) : ctn ∈ pool.bufferExist :=
  h.partition.subset (List.mem_append_left _ hctn)

theorem data_ne_none (h : pool.WellFormed held) (hctn : ctn ∈ held) : ctn.data ≠ none := by
  have hdata : ctn.data ∈ pool.bufferExist.map Container.data :=
    List.mem_map_of_mem (h.mem_exist hctn)
  rw [h.pointers] at hdata
  obtain ⟨p, -, hp⟩ := List.mem_map.mp hdata
  simp [← hp]

theorem erase_null (h : pool.WellFormed held) (hnull : ctn.data = none) : held.erase ctn = held :=
  List.erase_of_not_mem fun hctn => h.data_ne_none hctn hnull

/-- Taking a container out of one of the lists of available ones. -/
theorem take (h : pool.WellFormed held) {avail m4k : List Container}
    (hperm : (ctn :: (avail ++ m4k)).Perm (pool.bufferAvail ++ pool.m4kBufferAvail))
    (havail : avail.Sublist pool.bufferAvail) (hm4k : m4k.Sublist pool.m4kBufferAvail) :
    ({ pool with bufferAvail := avail, m4kBufferAvail := m4k } : ContainerPool).WellFormed
      (ctn :: held) where
  pointers := h.pointers
  partition := by
    refine List.Perm.trans ?_ h.partition
    refine List.Perm.trans ?_ (hperm.append_left held)
    exact List.perm_middle.symm
  arrays := h.arrays
  least := h.least
  sorted := h.sorted.sublist havail
  large c hc := h.large c (havail.subset hc)
  small c hc := h.small c (hm4k.subset hc)
  allocated := h.allocated

theorem array_newContainer (pool : ContainerPool) (capacity : ℕ) {c : Container} {b : Buffer ℕ}
    (hb : pool.array c = some b) : (pool.newContainer capacity).2.array c = some b := by
  simp only [array, Option.bind_eq_bind, Option.bind_eq_some_iff] at hb ⊢
  obtain ⟨p, hp, hget⟩ := hb
  have hlt := (List.getElem?_eq_some_iff.mp hget).1
  exact ⟨p, hp, by rw [newContainer, List.getElem?_append_left hlt, hget]⟩

theorem newContainer (h : pool.WellFormed held) (capacity : ℕ) (hcap : m4kCap ≤ capacity)
    (hn : n ≤ capacity) :
    pool.HandsOut held n (pool.newContainer capacity).1 (pool.newContainer capacity).2 where
  enough := hn
  wellFormed := {
    pointers := by
      simp only [ContainerPool.newContainer, List.map_append, h.pointers, List.length_append,
        List.length_singleton, List.range_succ]
      rfl
    partition := by
      refine List.Perm.trans ?_ (List.perm_append_singleton _ _).symm
      exact h.partition.cons _
    arrays := by
      intro c hc
      rcases List.mem_append.mp hc with hc | hc
      · obtain ⟨b, hb, hbcap⟩ := h.arrays c hc
        exact ⟨b, array_newContainer pool capacity hb, hbcap⟩
      · rw [List.mem_singleton.mp hc]
        exact ⟨Buffer.fresh capacity, by simp [array, ContainerPool.newContainer], rfl⟩
    least := by
      intro c hc
      rcases List.mem_append.mp hc with hc | hc
      · exact h.least c hc
      · rw [List.mem_singleton.mp hc]
        exact hcap
    sorted := h.sorted
    large := h.large
    small := h.small
    allocated := by
      simp only [ContainerPool.newContainer, h.allocated, List.map_append, List.sum_append,
        List.map_singleton, List.sum_singleton]
      ring }
  keeps c hc := by
    obtain ⟨b, hb, -⟩ := h.arrays c hc
    rw [hb]
    exact array_newContainer pool capacity hb

theorem allocateSmallWorkSpace (h : pool.WellFormed held) (hn : n ≤ m4kCap) :
    pool.HandsOut held n pool.allocateSmallWorkSpace.1 pool.allocateSmallWorkSpace.2 := by
  rw [ContainerPool.allocateSmallWorkSpace]
  cases hback : pool.m4kBufferAvail.getLast? with
  | none => exact h.newContainer m4kCap le_rfl hn
  | some out =>
      have hlist : pool.m4kBufferAvail.dropLast ++ [out] = pool.m4kBufferAvail :=
        List.dropLast_append_getLast? out hback
      refine ⟨?_, ?_, fun _ _ => rfl⟩
      · rw [h.small out (List.mem_of_getLast? hback)]
        exact hn
      · have hperm : (out :: (pool.bufferAvail ++ pool.m4kBufferAvail.dropLast)).Perm
            (pool.bufferAvail ++ (pool.m4kBufferAvail.dropLast ++ [out])) := by
          rw [← List.append_assoc]
          exact (List.perm_append_singleton _ _).symm
        rw [hlist] at hperm
        exact h.take hperm (List.Sublist.refl _) (List.dropLast_sublist _)

/-- The search ends with a container as soon as there is one that is large enough. -/
theorem firstFit (h : pool.WellFormed held) {back : Container} (hback : back ∈ pool.bufferAvail)
    (hn : n ≤ back.capacity) :
    ∃ ctn pool', pool.firstFit n = some (ctn, pool') ∧ pool.HandsOut held n ctn pool' := by
  obtain ⟨out, before, after, hbefore, hout, hlist, herase⟩ :=
    List.exists_of_eraseP (p := fun c => decide (n ≤ c.capacity)) hback (by simpa using hn)
  have hfind : pool.bufferAvail.find? (n ≤ ·.capacity) = some out := by
    rw [hlist, List.find?_append, List.find?_eq_none.mpr (by simpa using hbefore)]
    simp [hout]
  have hperm : (out :: (pool.bufferAvail.eraseP (n ≤ ·.capacity) ++ pool.m4kBufferAvail)).Perm
      (pool.bufferAvail ++ pool.m4kBufferAvail) := by
    rw [herase, hlist, List.append_assoc, List.append_assoc, List.cons_append]
    exact List.perm_middle.symm
  refine ⟨out, { pool with bufferAvail := pool.bufferAvail.eraseP (n ≤ ·.capacity) }, ?_, ?_, ?_,
    fun _ _ => rfl⟩
  · rw [ContainerPool.firstFit, hfind]
    rfl
  · simpa using hout
  · exact h.take hperm List.eraseP_sublist (List.Sublist.refl _)

/-- `AllocateWorkSpace` always reaches a `return`. -/
theorem allocateWorkSpace (h : pool.WellFormed held) (n : ℕ) :
    ∃ ctn pool', pool.allocateWorkSpace n = some (ctn, pool') ∧ pool.HandsOut held n ctn pool' := by
  rw [ContainerPool.allocateWorkSpace]
  by_cases hn : n ≤ m4kCap
  · rw [if_pos hn]
    exact ⟨_, _, rfl, h.allocateSmallWorkSpace hn⟩
  · have hnew := h.newContainer (newCapacity n) (n := n)
      (by rw [newCapacity_eq, m4kCap]; omega) (by rw [newCapacity_eq]; omega)
    rw [if_neg hn]
    cases hback : pool.bufferAvail.getLast? with
    | none => exact ⟨_, _, rfl, hnew⟩
    | some back =>
        by_cases hless : back.capacity < n
        · simp only [if_pos hless]
          exact ⟨_, _, rfl, hnew⟩
        · simp only [if_neg hless]
          exact h.firstFit (List.mem_of_getLast? hback) (not_lt.mp hless)

/-- A container comes back. -/
theorem freeWorkSpace (h : pool.WellFormed held) (hctn : ctn ∈ held) :
    (pool.freeWorkSpace ctn).WellFormed (held.erase ctn) := by
  have hback : ∀ {avail m4k : List Container},
      (avail ++ m4k).Perm (ctn :: (pool.bufferAvail ++ pool.m4kBufferAvail)) →
      (held.erase ctn ++ (avail ++ m4k)).Perm pool.bufferExist := by
    intro avail m4k hperm
    refine List.Perm.trans ?_ h.partition
    refine (hperm.append_left _).trans (List.perm_middle.trans ?_)
    exact (List.perm_cons_erase hctn).symm.append_right _
  have hleast := h.least ctn (h.mem_exist hctn)
  rw [ContainerPool.freeWorkSpace, if_neg (h.data_ne_none hctn)]
  by_cases hsmall : ctn.capacity ≤ m4kCap
  · rw [if_pos hsmall]
    refine { h with partition := hback ?_, small := fun c hc => ?_ }
    · rw [freeSmallWorkSpace, ← List.append_assoc]
      exact List.perm_append_singleton _ _
    · rcases List.mem_append.mp hc with hc | hc
      · exact h.small c hc
      · rw [List.mem_singleton.mp hc]
        exact le_antisymm hsmall hleast
  · rw [if_neg hsmall]
    refine { h with partition := hback ?_, sorted := ?_, large := fun c hc => ?_ }
    · exact (List.perm_orderedInsert _ _ _).append_right _
    · exact h.sorted.orderedInsert _ _
    · rcases (List.mem_orderedInsert _).mp hc with rfl | hc
      · exact not_le.mp hsmall
      · exact h.large c hc

/-- Words may be written into any array. -/
theorem setArray (h : pool.WellFormed held) {p : ℕ} {b b' : Buffer ℕ} (hb : pool.memory[p]? = some b)
    (hcap : b'.capacity = b.capacity) :
    ({ pool with memory := pool.memory.set p b' } : ContainerPool).WellFormed held := by
  refine { h with pointers := ?_, arrays := fun c hc => ?_ }
  · simpa using h.pointers
  · obtain ⟨bc, hbc, hbcap⟩ := h.arrays c hc
    simp only [array, Option.bind_eq_bind, Option.bind_eq_some_iff] at hbc ⊢
    obtain ⟨q, hq, hget⟩ := hbc
    by_cases hqp : q = p
    · subst hqp
      obtain rfl : b = bc := Option.some.inj (hb.symm.trans hget)
      refine ⟨b', ⟨q, hq, ?_⟩, hcap.trans hbcap⟩
      exact List.getElem?_set_self (List.getElem?_eq_some_iff.mp hget).1
    · exact ⟨bc, ⟨q, hq, by rw [List.getElem?_set_ne (Ne.symm hqp), hget]⟩, hbcap⟩

theorem array_eq_some {c : Container} {b : Buffer ℕ} :
    pool.array c = some b ↔ ∃ p, c.data = some p ∧ pool.memory[p]? = some b := by
  simp only [array, Option.bind_eq_bind, Option.bind_eq_some_iff]

/-- Two containers of a pool are one or have two arrays. -/
theorem data_inj (h : pool.WellFormed held) {c c' : Container} (hc : c ∈ pool.bufferExist)
    (hc' : c' ∈ pool.bufferExist) (hdata : c.data = c'.data) : c = c' := by
  refine List.inj_on_of_nodup_map ?_ hc hc' hdata
  rw [h.pointers]
  exact List.nodup_range.map (Option.some_injective _)

theorem set (h : pool.WellFormed held) {i value : ℕ} (hrun : pool.set ctn i value = some pool') :
    pool'.WellFormed held := by
  simp only [ContainerPool.set, Option.bind_eq_bind, Option.bind_eq_some_iff, Option.pure_def,
    Option.some.injEq] at hrun
  obtain ⟨b, hb, b', hset, p, hp, rfl⟩ := hrun
  obtain ⟨q, hq, hmem⟩ := array_eq_some.mp hb
  obtain rfl : p = q := Option.some.inj (hp.symm.trans hq)
  refine h.setArray hmem ?_
  rw [Buffer.set] at hset
  split_ifs at hset
  rw [← Option.some.inj hset]

theorem copy (h : pool.WellFormed held) (hctn : ctn ∈ held) (hout : out ∈ held)
    (hcap : ctn.capacity ≤ out.capacity) :
    ∃ pool', pool.copy ctn out = some pool' ∧ pool'.WellFormed held ∧
      (∀ i < ctn.capacity, pool'.get out i = pool.get ctn i) ∧
      ∀ c ∈ held, c ≠ out → pool'.array c = pool.array c := by
  obtain ⟨src, hsrc, hsrccap⟩ := h.arrays ctn (h.mem_exist hctn)
  obtain ⟨dst, hdst, hdstcap⟩ := h.arrays out (h.mem_exist hout)
  obtain ⟨p, hp, hmem⟩ := array_eq_some.mp hdst
  obtain ⟨b, hcopy, hbcap, hwords⟩ :=
    Buffer.exists_copy (b := dst) hsrccap.ge (hdstcap ▸ hcap)
  refine ⟨{ pool with memory := pool.memory.set p b }, ?_, h.setArray hmem hbcap, ?_, ?_⟩
  · simp only [ContainerPool.copy, hdst, hsrc, hcopy, hp, Option.bind_eq_bind, Option.bind_some,
      Option.pure_def]
  · intro i hi
    have hself : (pool.memory.set p b)[p]? = some b :=
      List.getElem?_set_self (List.getElem?_eq_some_iff.mp hmem).1
    have hnew : ({ pool with memory := pool.memory.set p b } : ContainerPool).array out = some b :=
      array_eq_some.mpr ⟨p, hp, hself⟩
    simp only [get, hnew, hsrc, Option.bind_eq_bind, Option.bind_some]
    exact hwords i hi
  · intro c hc hcout
    have hdata : c.data ≠ some p := fun heq =>
      hcout (h.data_inj (h.mem_exist hc) (h.mem_exist hout) (heq.trans hp.symm))
    obtain ⟨q, hq⟩ := Option.ne_none_iff_exists'.mp (h.data_ne_none hc)
    have hqp : p ≠ q := fun heq => hdata (heq ▸ hq)
    simp only [array, hq, Option.bind_eq_bind, Option.bind_some, List.getElem?_set_ne hqp]

/-- `Resize` takes the words along and leaves the arrays of all others alone. -/
theorem resize (h : pool.WellFormed held) (hctn : ctn ∈ held) (hn : ctn.capacity < n) :
    ∃ out pool', pool.resize ctn n = some (out, pool') ∧ n ≤ out.capacity ∧
      pool'.WellFormed (out :: held.erase ctn) ∧
      (∀ i < ctn.capacity, pool'.get out i = pool.get ctn i) ∧
      ∀ c ∈ held, c ≠ ctn → pool'.array c = pool.array c := by
  obtain ⟨p, hp⟩ := Option.ne_none_iff_exists'.mp (h.data_ne_none hctn)
  obtain ⟨out, pool₁, halloc, hhands⟩ := h.allocateWorkSpace n
  have hfresh : ∀ c ∈ held, c ≠ out := by
    rintro c hc rfl
    have hnodup := hhands.wellFormed.nodup
    rw [List.cons_append, List.map_cons, List.nodup_cons] at hnodup
    exact hnodup.1 (List.mem_map_of_mem (List.mem_append_left _ hc))
  obtain ⟨pool₂, hcopy, hwell, hwords, hothers⟩ := hhands.wellFormed.copy (List.mem_cons_of_mem _ hctn)
    List.mem_cons_self (hn.le.trans hhands.enough)
  have harray : ∀ c ∈ held, pool₁.array c = pool.array c :=
    fun c hc => hhands.keeps c (h.mem_exist hc)
  have hkeeps : ∀ c, (pool₂.freeWorkSpace ctn).array c = pool₂.array c := by
    intro c
    rw [ContainerPool.freeWorkSpace]
    split_ifs <;> rfl
  have hfree := hwell.freeWorkSpace (List.mem_cons_of_mem _ hctn)
  rw [List.erase_cons_tail (by simpa using (hfresh ctn hctn).symm)] at hfree
  refine ⟨out, pool₂.freeWorkSpace ctn, ?_, hhands.enough, hfree, fun i hi => ?_, fun c hc _ => ?_⟩
  · simp only [ContainerPool.resize, hp, halloc, hcopy, Option.bind_eq_bind, Option.bind_some,
      Option.pure_def]
  · rw [get, hkeeps, ← get, hwords i hi, get, harray ctn hctn, ← get]
  · rw [hkeeps, hothers c (List.mem_cons_of_mem _ hc) (hfresh c hc), harray c hc]

end WellFormed

/-- Every history keeps the pool well formed. -/
theorem Run.wellFormed (h : Run pool held) : pool.WellFormed held := by
  induction h with
  | start => exact .start
  | allocate numElements _ hrun ih =>
      obtain ⟨ctn, pool', halloc, hhands⟩ := ih.allocateWorkSpace numElements
      obtain ⟨rfl, rfl⟩ : ctn = _ ∧ pool' = _ := by simpa using halloc.symm.trans hrun
      exact hhands.wellFormed
  | free _ hctn ih =>
      rcases hctn with hnull | hctn
      · rw [freeWorkSpace, if_pos hnull, ih.erase_null hnull]
        exact ih
      · exact ih.freeWorkSpace hctn
  | resize newCapacity _ hctn hlarger hrun ih =>
      rcases hctn with hnull | hctn
      · rw [ContainerPool.resize, hnull] at hrun
        obtain ⟨out, pool', halloc, hhands⟩ := ih.allocateWorkSpace newCapacity
        obtain ⟨rfl, rfl⟩ : out = _ ∧ pool' = _ := by simpa using halloc.symm.trans hrun
        rw [ih.erase_null hnull]
        exact hhands.wellFormed
      · obtain ⟨out, pool', hresize, -, hwell, -⟩ := ih.resize hctn hlarger
        obtain ⟨rfl, rfl⟩ : out = _ ∧ pool' = _ := by simpa using hresize.symm.trans hrun
        exact hwell
  | set i value _ _ hrun ih => exact ih.set hrun

/-- What holds after every history: a request ends with a container that nobody else has, the lists are
in order and share out all arrays, and `Resize` keeps the words. -/
theorem run_sound (h : Run pool held) :
    (∀ numElements, ∃ ctn pool', pool.allocateWorkSpace numElements = some (ctn, pool') ∧
      numElements ≤ ctn.capacity ∧
      ctn.data ∉ (held ++ (pool'.bufferAvail ++ pool'.m4kBufferAvail)).map Container.data) ∧
    (pool.bufferAvail.Pairwise (·.capacity ≤ ·.capacity) ∧
      (∀ ctn ∈ pool.bufferAvail, 1024 < ctn.capacity) ∧
      ∀ ctn ∈ pool.m4kBufferAvail, ctn.capacity = 1024) ∧
    ((held ++ (pool.bufferAvail ++ pool.m4kBufferAvail)).Perm pool.bufferExist ∧
      pool.bufferExist.map Container.data = (List.range pool.memory.length).map some) ∧
    ∀ ctn ∈ held, ∀ newCapacity, ctn.capacity < newCapacity →
      ∃ out pool', pool.resize ctn newCapacity = some (out, pool') ∧ newCapacity ≤ out.capacity ∧
        ∀ i < ctn.capacity, pool'.get out i = pool.get ctn i := by
  have hwell := h.wellFormed
  refine ⟨fun numElements => ?_, ⟨hwell.sorted, hwell.large, hwell.small⟩,
    ⟨hwell.partition, hwell.pointers⟩, fun ctn hctn newCapacity hlarger => ?_⟩
  · obtain ⟨ctn, pool', halloc, hhands⟩ := hwell.allocateWorkSpace numElements
    have hnodup := hhands.wellFormed.nodup
    rw [List.cons_append, List.map_cons, List.nodup_cons] at hnodup
    exact ⟨ctn, pool', halloc, hhands.enough, hnodup.1⟩
  · obtain ⟨out, pool', hresize, hn, -, hwords, -⟩ := hwell.resize hctn hlarger
    exact ⟨out, pool', hresize, hn, hwords⟩

/-- After one small container has come back, a request for ten words gets it again. -/
theorem run_sound_recycled :
    ∃ ctn pool', ((({} : ContainerPool).newContainer 1024).2.freeWorkSpace
        { data := some 0, capacity := 1024 }).allocateWorkSpace 10 = some (ctn, pool') ∧
      10 ≤ ctn.capacity ∧
      ctn.data ∉ (pool'.bufferAvail ++ pool'.m4kBufferAvail).map Container.data :=
  (run_sound (.free (.allocate 5 .start rfl) (Or.inr List.mem_cons_self))).1 10

/-- The pool that builds draw on, one state for each request. -/
def miniGraphPool (pools : ℕ → ContainerPool) (hrun : ∀ request, ∃ held, Run (pools request) held) :
    MiniGraphPool where
  capacity request n := ((pools request).allocateWorkSpace n).elim n fun out => out.1.capacity
  le_capacity request n := by
    obtain ⟨held, h⟩ := hrun request
    obtain ⟨ctn, pool', halloc, hhands⟩ := h.wellFormed.allocateWorkSpace n
    rw [halloc]
    exact hhands.enough

end ContainerPool

end GraphMini
