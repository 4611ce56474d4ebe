import GraphMini.Exec.PoolFree
import GraphMini.Exec.Result

/-!
# Threads with pools of their own

A thread keeps the sets in scope as they are and writes no buffer beyond its end if and only if no statement
that it comes to declares a set as a view of a temporary and every set that an operator fills a buffer with has
room. Then the threads count together what the run over values counts, each in a `long long`.
-/

namespace GraphMini

/-! ### One thread -/

section

variable {M : MgMachine} {g : Graph} {capacity : ℕ∞}

theorem always_intact_top_iff {block : Block} {path : List ℕ} {f : Frame M} :
    block.Always (Intact ⊤) g path f ↔ block.Always Lasting g path f :=
  ⟨fun h => h.mono fun _ _ _ => intact_top.mp, fun h => h.mono fun _ _ _ => intact_top.mpr⟩

theorem always_intact_iff {block : Block} {path : List ℕ} {f : Frame M} :
    block.Always (Intact g.workSpace) g path f ↔
      block.Always Lasting g path f ∧ block.Always (WithinBuffers g) g path f := by
  constructor
  · intro h
    exact ⟨h.mono fun _ _ _ hintact => (intact_workSpace.mp hintact).1,
      h.mono fun _ _ _ hintact => (intact_workSpace.mp hintact).2⟩
  · rintro ⟨hlasting, hwithin⟩
    exact (hlasting.and hwithin).mono fun _ _ _ => intact_workSpace.mpr

/-- A thread keeps the sets in scope and the ends of the buffers if and only if no set is declared as a view
of a temporary and everything that is filled has room. -/
theorem poolThread_intact_iff {prog : OmpProgram} {vs : List ℕ} {amount : ℕ → ℤ}
    (hexec : ∀ v ∈ vs, execVertex M g prog.body v = some (amount v)) :
    (∃ f, poolThread M g prog vs = some f ∧ f.Undisturbed g ∧ f.pool.Within capacity) ↔
      ∀ v ∈ vs, prog.body.Always (Intact capacity) g [v] (Frame.start M v) := by
  constructor
  · rintro ⟨f, hthread, hundisturbed, hwithin⟩
    exact intact_of_clean_thread hexec PoolFrame.idle_start hthread ⟨hundisturbed.1, hwithin⟩
  · intro hintact
    obtain ⟨f, hthread, hidle, -⟩ := poolThread_spec hintact hexec
    exact ⟨f, hthread, ⟨hidle.sound.safe, hidle.sound.chain⟩, hidle.within⟩

end

/-! ### All threads -/

/-- The threads run their iterations, and neither does a set in scope change or lie in a free buffer nor is a
buffer filled beyond its end. -/
def IntactRun (M : MgMachine) (g : Graph) (prog : OmpProgram) {threads : ℕ} (share : Fin threads → List ℕ)
    (f : Fin threads → PoolFrame M) : Prop :=
  ∀ thread, poolThread M g prog (share thread) = some (f thread) ∧ (f thread).Undisturbed g
    ∧ (f thread).pool.Within g.workSpace

/-- Every iteration of the outermost loop is run by one thread. -/
def SharesOut {threads : ℕ} (share : Fin threads → List ℕ) (numVertex : ℕ) : Prop :=
  ((List.finRange threads).flatMap share).Perm (List.range numVertex)

instance {threads : ℕ} (share : Fin threads → List ℕ) (numVertex : ℕ) : Decidable (SharesOut share numVertex) :=
  inferInstanceAs (Decidable (((List.finRange threads).flatMap share).Perm (List.range numVertex)))

/-- Whichever thread runs which iteration, a run that keeps its sets and buffers ends with `n` if and only if
no set is declared as a view of a temporary, everything that is filled has room and `n` is not too large. -/
def OmpProgram.Counts (prog : OmpProgram) (g : Graph) (n : ℕ) : Prop :=
  ∀ {threads : ℕ} (share : Fin threads → List ℕ), SharesOut share g.numVertex →
    ((∃ f, IntactRun MgMachine.absent g prog share f ∧ longLong (∑ thread, longLong (f thread).counter) = n) ↔
      prog.Always (Lasting (M := MgMachine.absent)) g ∧ prog.Always (WithinBuffers (M := MgMachine.absent) g) g
        ∧ n < 2 ^ 63)

section

variable {M : MgMachine} {g : Graph} {prog : OmpProgram} {threads : ℕ} {share : Fin threads → List ℕ}
  {amount : ℕ → ℤ} (hshare : SharesOut share g.numVertex)

include hshare

theorem SharesOut.mem {v : ℕ} : (∃ thread, v ∈ share thread) ↔ v < g.numVertex := by
  have hmem := hshare.mem_iff (a := v)
  simpa using hmem

theorem SharesOut.sum (amount : ℕ → ℤ) :
    ∑ thread, ((share thread).map amount).sum = ((List.range g.numVertex).map amount).sum := by
  calc ∑ thread, ((share thread).map amount).sum
      = ((List.finRange threads).map fun thread => ((share thread).map amount).sum).sum := Fin.sum_univ_def _
    _ = (((List.finRange threads).flatMap share).map amount).sum := by
        rw [List.map_flatMap, List.flatMap_def, List.sum_flatten, List.map_map]
        rfl
    _ = ((List.range g.numVertex).map amount).sum := (hshare.map amount).sum_eq

variable (hexec : ∀ v < g.numVertex, execVertex M g prog.body v = some (amount v))

include hexec

/-- The threads keep their sets and buffers if and only if no set is declared as a view of a temporary and
everything that is filled has room. -/
theorem exists_intactRun_iff : (∃ f, IntactRun M g prog share f) ↔
    prog.Always (Lasting (M := M)) g ∧ prog.Always (WithinBuffers (M := M) g) g := by
  have hthread : ∀ thread, (∃ f, poolThread M g prog (share thread) = some f ∧ f.Undisturbed g
      ∧ f.pool.Within g.workSpace) ↔ ∀ v ∈ share thread, prog.body.Always Lasting g [v] (Frame.start M v)
        ∧ prog.body.Always (WithinBuffers g) g [v] (Frame.start M v) := by
    intro thread
    rw [poolThread_intact_iff fun v hv => hexec v (hshare.mem.mp ⟨thread, hv⟩)]
    exact forall₂_congr fun _ _ => always_intact_iff
  unfold IntactRun
  refine Classical.skolem.symm.trans ((forall_congr' hthread).trans ?_)
  constructor
  · intro h
    have hall : ∀ v < g.numVertex, _ := fun v hv => (hshare.mem.mpr hv).elim fun thread => h thread v
    exact ⟨fun v hv => (hall v hv).1, fun v hv => (hall v hv).2⟩
  · intro h thread v hv
    have hlt := hshare.mem.mp ⟨thread, hv⟩
    exact ⟨h.1 v hlt, h.2 v hlt⟩

/-- Together they count what the iterations add over values. -/
theorem IntactRun.sum {f : Fin threads → PoolFrame M} (h : IntactRun M g prog share f) :
    ∑ thread, (f thread).counter = ((List.range g.numVertex).map amount).sum := by
  rw [← hshare.sum]
  refine Finset.sum_congr rfl fun thread _ => ?_
  obtain ⟨hf, hundisturbed, hwithin⟩ := h thread
  have hrun : ∀ v ∈ share thread, execVertex M g prog.body v = some (amount v) :=
    fun v hv => hexec v (hshare.mem.mp ⟨thread, hv⟩)
  have hintact := (poolThread_intact_iff hrun).mp ⟨f thread, hf, hundisturbed, hwithin⟩
  obtain ⟨f', hf', -, hcounter⟩ := poolThread_spec hintact hrun
  obtain rfl := Option.some.inj (hf'.symm.trans hf)
  exact hcounter

/-- The counters hold what is to be counted if that is not too large for them. -/
theorem intactRun_counts_iff {n : ℕ} (hsum : ((List.range g.numVertex).map amount).sum = n) :
    (∃ f, IntactRun M g prog share f ∧ longLong (∑ thread, longLong (f thread).counter) = n) ↔
      prog.Always (Lasting (M := M)) g ∧ prog.Always (WithinBuffers (M := M) g) g ∧ n < 2 ^ 63 := by
  rw [← and_assoc, ← exists_intactRun_iff hshare hexec, ← exists_and_right]
  refine exists_congr fun f => and_congr_right fun hf => ?_
  rw [longLong_sum, hf.sum hshare hexec, hsum, longLong_natCast_iff]

end

end GraphMini
