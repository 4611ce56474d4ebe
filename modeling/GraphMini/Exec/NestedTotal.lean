import GraphMini.Codegen.SelfContained
import GraphMini.Exec.NestedRun
import GraphMini.Exec.Omp
import GraphMini.Exec.Reuse

/-!
# The nested program counts what the sequential program counts

The classes of a nested program have the bodies of the one loop nest, from their own depth on. So the
outermost class adds the total of the nest for each vertex, and the sequential program does the same.
-/

namespace GraphMini

open StdAlgorithm

variable {g : Graph} {layout : Layout} {plan : PlanIR} {cfg : CodeGenConfig}

/-- The calls of a nest do not matter for what it adds. -/
theorem blockTotal_nest {M : MgMachine} (call call' : ℕ → Option ParCall) (n dep : ℕ) :
    blockTotal M g (nest plan cfg call n dep) = blockTotal M g (nest plan cfg call' n dep) := by
  induction n generalizing dep with
  | zero => rfl
  | succ n ih =>
      funext path env state
      rw [nest, nest, blockTotal, blockTotal, ih (dep + 1)]

theorem height_nest (call : ℕ → Option ParCall) (n dep : ℕ) :
    (nest plan cfg call n dep).height = n := by
  induction n generalizing dep with
  | zero => rfl
  | succ n ih => rw [nest, Block.height, ih]

/-- A nest calls the classes that have the rest of it as their bodies. -/
theorem unfolds_nest {loops : List LoopClass}
    (hloops : ∀ k < plan.getSerialLoop, loops[k]? = some {
      members := genMembers plan cfg k
      body := nest plan cfg (genCodeTbbCall plan cfg) (lastDep plan cfg - k) k }) {n dep : ℕ}
    (hn : dep + n = lastDep plan cfg) :
    (nest plan cfg (genCodeTbbCall plan cfg) n dep).Unfolds loops := by
  induction n generalizing dep with
  | zero => trivial
  | succ n ih =>
      refine ⟨fun call hcall => ?_, Nat.succ_pos dep, ih (by omega)⟩
      obtain ⟨hlt, -, hloop, hiter, hargs, -⟩ := PlannedMgs.genCodeTbbCall_eq_some hcall
      refine ⟨hloop, hiter, _, hloops (dep + 1) hlt, ?_, hargs (Nat.succ_pos dep)⟩
      rw [show lastDep plan cfg - (dep + 1) = n by omega]

theorem readOnly_nest (hcfg : cfg.pruningType = .none ∨ cfg.pruningType = .static ∨
    cfg.pruningType = .eager) (call : ℕ → Option ParCall) (n dep : ℕ) :
    (nest plan cfg call n dep).ReadOnly := by
  intro id type bounded hmem
  obtain ⟨dep', mg, -, -, rfl⟩ := declMg_mem_nest hmem
  rw [genMgType]
  split_ifs
  · exact Or.inl rfl
  · rcases hcfg with hcfg | hcfg | hcfg <;> simp [miniGraphType, hcfg, MgType.ReadOnly]

namespace PlannedMgs

variable {edge restrict : ℕ → Finset ℕ} (h : PlannedMgs edge restrict cfg plan)

include h

/-- Every depth has mini-graphs of its own. -/
theorem fresh_nest (call : ℕ → Option ParCall) {taken : ℤ → Prop} {n dep : ℕ}
    (htaken : ∀ id, taken id → ∃ dep' < dep, ∃ mg ∈ plan.mgs dep', id = mg.id) :
    (nest plan cfg call n dep).Fresh taken := by
  induction n generalizing dep taken with
  | zero =>
      intro stmt hstmt id hid
      simp [changes_lastStmts hstmt] at hid
  | succ n ih =>
      refine ⟨fun stmt hstmt id hid hin => ?_, ih fun id hin => ?_⟩
      · obtain ⟨mg, hmg, rfl, -⟩ := eq_of_mem_bodyStmts hstmt hid
        obtain ⟨dep', hlt, mg', hmg', hsame⟩ := htaken _ hin
        obtain rfl := h.mg_id _ _ mg hmg mg' hmg' hsame
        have := (h.mg_loopDepth hmg).1
        have := (h.mg_loopDepth hmg').1
        omega
      · rcases hin with hin | ⟨stmt, hstmt, hid⟩
        · obtain ⟨dep', hlt, hmem⟩ := htaken id hin
          exact ⟨dep', by omega, hmem⟩
        · obtain ⟨mg, hmg, hsame, -⟩ := eq_of_mem_bodyStmts hstmt hid
          exact ⟨dep, by omega, mg, hmg, hsame⟩

/-- The classes of the program. -/
theorem loops_eq {nested : NestedProgram} (hnested : genCodeNested plan cfg = .ok (some nested)) :
    nested.loops.length = plan.getSerialLoop ∧ ∀ k < plan.getSerialLoop, nested.loops[k]? = some {
      members := genMembers plan cfg k
      body := nest plan cfg (genCodeTbbCall plan cfg) (lastDep plan cfg - k) k } := by
  rw [genCodeNested, Loop.mapM_ok fun loop _ => h.genCodeTbbLoop_eq loop] at hnested
  obtain ⟨loops, hloops, rfl⟩ := Option.map_eq_some_iff.mp (Except.ok.inj hnested)
  have hall := Loop.forall₂_of_mapM hloops
  have hlength := hall.length_eq
  rw [List.length_map, List.length_range] at hlength
  refine ⟨hlength.symm, fun k hk => ?_⟩
  have hget := hall.get (i := k) (by simpa using hk) (by simpa [← hlength] using hk)
  simp only [List.get_eq_getElem, List.getElem_map, List.getElem_range, id_eq] at hget
  split_ifs at hget
  rw [List.getElem?_eq_getElem (by simpa [← hlength] using hk), Option.some.inj hget]

end PlannedMgs

/-! ### Whole programs -/

theorem alike_enter (layout : Layout) (v : ℕ) (c c' : ℤ) :
    Alike (fun _ => false) [.id 0]
      ({ env := Env.empty.set (.id 0) v, state := MgStore.empty, counter := c } :
        Frame (miniGraphMachine g layout))
      { env := Env.empty.set (.id 0) v, state := MgStore.empty, counter := c' } := by
  have hempty : Alike (fun _ => false) []
      ({ env := Env.empty, state := MgStore.empty, counter := c } : Frame (miniGraphMachine g layout))
      { env := Env.empty, state := MgStore.empty, counter := c' } :=
    ⟨rfl, by simp, by simp, fun _ => rfl⟩
  exact hempty.set (.id 0) v (by simp) c c'

theorem settled_enter (layout : Layout) (v : ℕ) :
    Settled ({ env := Env.empty.set (.id 0) v, state := MgStore.empty } :
      Frame (miniGraphMachine g layout)) :=
  MgStore.within_empty _

theorem not_declared_enter (v : ℕ) (mg : ℤ) (h : (Env.empty.set (.id 0) v).declared (.mg mg) = true) :
    False := by
  rw [declared_set _ _ _ (by simp)] at h
  simp [Env.declared, Env.empty] at h

/-- The total of the sequential program is the sum of the totals of its rounds. -/
theorem ompTotal_eq {prog : OmpProgram} (hclosed : prog.Closed) (hread : prog.body.ReadOnly)
    (hfresh : prog.body.Fresh fun _ => False) :
    ompTotal (miniGraphMachine g layout) g prog = Loop.sumM (fun v =>
      blockTotal (miniGraphMachine g layout) g prog.body [v] (Env.empty.set (.id 0) v) MgStore.empty)
      (List.range g.getVnum) := by
  refine Loop.sumM_congr fun v _ => ?_
  have hadds := execBlock_adds (g := g) [v] (alike_enter layout v 0 0)
    (settled_enter layout v) hclosed hread hfresh fun mg hmg => (not_declared_enter v mg hmg).elim
  exact hadds.map_total rfl

variable (g layout) in
/-- The counters of the nested program add up to the total of the outermost class, whatever the split. -/
theorem runNested_eq {prog : NestedProgram} (hclosed : prog.Closed) {cls : LoopClass}
    (hfirst : prog.loops[0]? = some cls) (hmembers : cls.members = [])
    (hunfolds : cls.body.Unfolds prog.loops) (hheight : cls.body.height ≤ prog.loops.length)
    (hread : cls.body.ReadOnly) (hfresh : cls.body.Fresh fun _ => False) {workers : ℕ}
    {split : Splitter workers} (hsplit : split.Partitions) :
    (runNested (miniGraphMachine g layout) g prog split).map (fun counters => ∑ w, counters w)
      = Loop.sumM (fun v =>
        blockTotal (miniGraphMachine g layout) g cls.body [v] (Env.empty.set (.id 0) v) MgStore.empty)
        (List.range g.getVnum) := by
  have hself : ClosedBlock [.id 0] cls.body := by
    have := (hclosed 0 cls hfirst).1
    rwa [LoopClass.SelfContained, hmembers] at this
  have hconstruct : cls.construct Env.empty [] = some Env.empty := by
    rw [LoopClass.construct, hmembers]
    simp
    rfl
  have hempty : Settled ({ env := Env.empty, state := MgStore.empty } :
      Frame (miniGraphMachine g layout)) := MgStore.within_empty _
  have hadds : Loop.Adds (fun s => s.state = MgStore.empty) Shared.total
      { state := MgStore.empty, counters := fun _ => 0 } (Loop.sumM (fun v =>
        blockTotal (miniGraphMachine g layout) g cls.body [v] (Env.empty.set (.id 0) v) MgStore.empty)
        (List.range g.getVnum)) ((split [] g.getVnum).foldlM (execRange (M := miniGraphMachine g layout) g
        (execCall g prog.loops split prog.loops.length) cls 0 [] Env.empty fun _ => false)
        { state := MgStore.empty, counters := fun _ => 0 }) := by
    refine execRange_adds hsplit (fun worker v s hs => ?_) rfl
    have hframe : s.frame (Env.empty.set (.id 0) v) worker
        = { env := Env.empty.set (.id 0) v, state := MgStore.empty, counter := s.counters worker } := by
      rw [Shared.frame, hs]
    have hround := execParBlock_adds [v] hsplit (fun loop cls hcls => (hclosed loop cls hcls).1)
      hheight hunfolds (hframe ▸ alike_enter layout v _ 0) (settled_enter layout v) hself hread hfresh
      fun mg hmg => (not_declared_enter v mg hmg).elim
    exact hround.mono fun s' hs' => hempty.leave (by simp) (fun _ => rfl) hs'
  have hzero : Shared.total ({ state := MgStore.empty, counters := fun _ => 0 } :
      Shared (miniGraphMachine g layout) workers) = 0 := Finset.sum_const_zero
  rw [← hadds.map_total hzero, runNested, hfirst]
  simp only [Option.bind_eq_bind, Option.bind_some, hconstruct, Option.map_bind]
  rfl

/-- The counters of the nested program of a plan add up to the total of its sequential program. -/
theorem PlannedMgs.runNested_total {edge restrict : ℕ → Finset ℕ} {sc : Schedule} {cfg : CodeGenConfig} {plan : PlanIR}
    (h : PlannedMgs edge restrict cfg plan) (hfields : plan.HasIepFields sc cfg.adjMatType)
    (hpruning : cfg.pruningType = .none ∨ cfg.pruningType = .static ∨ cfg.pruningType = .eager)
    {omp : OmpProgram} (homp : genCodeOmp plan cfg = .ok omp) (hompClosed : omp.Closed)
    {nested : NestedProgram} (hnested : genCodeNested plan cfg = .ok (some nested))
    (hnestedClosed : nested.Closed) (g : Graph) (layout : Layout) {workers : ℕ}
    {split : Splitter workers} (hsplit : split.Partitions) :
    (runNested (miniGraphMachine g layout) g nested split).map (fun counters => ∑ w, counters w)
      = ompTotal (miniGraphMachine g layout) g omp := by
  rw [h.genCodeOmp_eq] at homp
  obtain rfl := Except.ok.inj homp
  obtain ⟨hlength, hloops⟩ := h.loops_eq hnested
  have hserial : 0 < plan.getSerialLoop := by
    rw [PlanIR.getSerialLoop]
    split_ifs <;> omega
  have hdepth : lastDep plan cfg ≤ plan.getSerialLoop := by
    rw [h.lastDep_eq hfields, PlanIR.maxDep, PlanIR.getSerialLoop]
    split_ifs <;> omega
  have hfresh : ∀ call, (nest plan cfg call (lastDep plan cfg) 0).Fresh fun _ => False :=
    fun call => h.fresh_nest call fun _ hfalse => hfalse.elim
  have hmembers : genMembers plan cfg 0 = [] := by
    simp [genMembers, genUsedAdj, genUsedSet, genUsedIndices, genUsedMg, h.used_zero]
  have hrun := runNested_eq g layout hnestedClosed (hloops 0 hserial) hmembers
    (unfolds_nest hloops (Nat.add_sub_cancel' (Nat.zero_le _)))
    (by rw [height_nest, hlength]; exact hdepth) (readOnly_nest hpruning _ _ _) (hfresh _) hsplit
  rw [hrun, ompTotal_eq hompClosed (readOnly_nest hpruning _ _ _) (hfresh _),
    blockTotal_nest (genCodeTbbCall plan cfg) fun _ => none]
  rfl

/-- Nested parallelism does not change the count: whatever part of the loops is handed over, whoever
gets it and in whichever order the parts are run, the counters of the workers add up to the total of the
sequential program. -/
theorem nested_eq_omp (sort : List VertexSetIR → List VertexSetIR) (sc : Schedule) (cfg : CodeGenConfig)
    (metaData : MetaData) (pSize : ℕ) (hsc : sc.Connected pSize)
    (hsort : PermutesOps sort (sc.edge pSize) (sc.restrict pSize) pSize)
    (hpruning : cfg.pruningType = .none ∨ cfg.pruningType = .static ∨ cfg.pruningType = .eager)
    (plan : PlanIR) (hplan : genPlan sort sc cfg metaData = .ok (some plan))
    (omp : OmpProgram) (homp : genCodeOmp plan cfg = .ok omp) (hompClosed : omp.Closed)
    (nested : NestedProgram) (hnested : genCodeNested plan cfg = .ok (some nested))
    (hnestedClosed : nested.Closed) (g : Graph) (layout : Layout) {workers : ℕ}
    (split : Splitter workers) (hsplit : split.Partitions) :
    (runNested (miniGraphMachine g layout) g nested split).map (fun counters => ∑ w, counters w)
      = ompTotal (miniGraphMachine g layout) g omp := by
  obtain ⟨h, -⟩ := plannedMgs_genPlan hsc hsort hplan
  exact h.runNested_total (hasIepFields_genPlan hsc hsort hplan) hpruning homp hompClosed hnested hnestedClosed
    g layout hsplit

/-- The second half first, on another worker. -/
def halves : Splitter 2 := fun _ n =>
  [{ worker := 1, lower := n / 2, upper := n }, { worker := 0, lower := 0, upper := n / 2 }]

theorem partitions_halves : halves.Partitions := by
  intro path n
  have hsplit : List.range' 0 (n / 2) ++ List.range' (n / 2) (n - n / 2) = List.range n := by
    have happend := List.range'_append_1 (s := 0) (m := n / 2) (n := n - n / 2)
    rw [Nat.zero_add, Nat.add_sub_cancel' (Nat.div_le_self n 2)] at happend
    rw [List.range_eq_range', happend]
  rw [← hsplit]
  simpa [halves, Subrange.indices] using List.perm_append_comm

/-- Containers of the size that was asked for. -/
def exactLayout : Layout where
  pool := fun _ _ => { capacity := fun _ n => n, le_capacity := fun _ _ => le_rfl }
  shouldPrune := fun _ _ _ => true
  beyond := fun _ _ _ => invalidId
  address := fun _ _ _ => 0

/-- Four joined vertices are a clique with the second below the first in twelve ways. -/
theorem nested_eq_omp_clique : ∃ plan nested,
    genPlan (insertionSort VertexSetIR.less) orderedClique
      { pruningType := .eager, parType := .nested } {} = .ok (some plan) ∧
    genCodeNested plan { pruningType := .eager, parType := .nested } = .ok (some nested) ∧
    (runNested (miniGraphMachine completeFour exactLayout) completeFour nested halves).map
      (fun counters => ∑ w, counters w) = some 12 := by
  have htest : (genPlan (insertionSort VertexSetIR.less) orderedClique
      { pruningType := .eager, parType := .nested } {}).toOption.join.any (fun plan =>
        (genCodeNested plan { pruningType := .eager, parType := .nested }).toOption.join.any fun nested =>
          decide nested.Closed &&
            (genCodeOmp plan { pruningType := .eager, parType := .nested }).toOption.any fun omp =>
              decide omp.Closed && decide (ompTotal (miniGraphMachine completeFour exactLayout) completeFour
                omp = some 12)) = true := by decide +kernel
  obtain ⟨plan, hplan, htest⟩ := Loop.exists_ok_some_of_any htest
  obtain ⟨nested, hnested, htest⟩ := Loop.exists_ok_some_of_any htest
  simp only [Bool.and_eq_true, decide_eq_true_eq] at htest
  obtain ⟨hclosed, htest⟩ := htest
  obtain ⟨omp, homp, htest⟩ := Loop.exists_ok_of_any htest
  simp only [Bool.and_eq_true, decide_eq_true_eq] at htest
  refine ⟨plan, nested, hplan, hnested, ?_⟩
  rw [← htest.2]
  exact nested_eq_omp _ orderedClique _ {} 4 connected_orderedClique (fun _ _ => insertionSort_perm _ _)
    (by simp) plan hplan omp homp htest.1 nested hnested hclosed completeFour exactLayout halves
    partitions_halves

end GraphMini
