import GraphMini.Codegen.PlanMgSpec

/-!
# Which mini-graphs leave out the larger ids

A mini-graph is built bounded if no reader marks it otherwise, and of the operations of one depth
that read it only the first is asked. The pass over the mini-graphs that are built from others changes
no mark, since a bounded one serves bounded ones only. So the marks are right exactly where an
unrestricted reader is never hidden behind a restricted one.
-/

namespace GraphMini

open StdAlgorithm

/-- The mini-graph that the operation reads is this one. -/
def PlanIR.reads (plan : PlanIR) (mg : MiniGraphIR) (op : VertexSetIR) : Bool :=
  plan.getParentMg op == some mg

/-- A bounded mini-graph has readers that are restricted at their own depth and serves bounded
mini-graphs only. -/
def PlanIR.BoundedSound (plan : PlanIR) : Prop :=
  ∀ mg, plan.isBounded mg = true →
    (∀ dep, ∀ op ∈ plan.ops dep, plan.getParentMg op = some mg →
      op.isRestricted op.loopDepth = true) ∧
    ∀ dep, ∀ child ∈ plan.mgs dep, plan.getParentMgOf child = some mg → plan.isBounded child = true

/-- If some operation without a restriction at its own depth reads a mini-graph, then at some depth
the first operation that reads it is such an operation. -/
def PlanIR.FirstReadersTell (plan : PlanIR) : Prop :=
  ∀ mg dep, ∀ op ∈ plan.ops dep, plan.getParentMg op = some mg →
    op.isRestricted op.loopDepth = false →
    ∃ dep' first, (plan.ops dep').find? (plan.reads mg) = some first ∧
      first.isRestricted first.loopDepth = false

section Marks

variable {plan : PlanIR} {mgs : List MiniGraphIR} {mg : MiniGraphIR}
  (hmgs : ∀ op mg, plan.getParentMg op = some mg → mg ∈ mgs)
  (hinj : ∀ mg ∈ mgs, ∀ mg' ∈ mgs, mg.id = mg'.id → mg = mg') (hmg : mg ∈ mgs)

include hmgs hinj hmg

/-- At one depth the first operation that reads the mini-graph decides. -/
theorem bounded_foldl_markOp (ops : List VertexSetIR) (s : MgMarks × List MiniGraphIR)
    (hs : ∀ m ∈ s.2, m ∈ mgs) :
    (ops.foldl (markOp plan) s).1.bounded mg.id = true ↔
      s.1.bounded mg.id = true ∧ (mg ∉ s.2 → ∀ op, ops.find? (plan.reads mg) = some op →
        op.isRestricted op.loopDepth = true) := by
  induction ops generalizing s with
  | nil => simp
  | cons op ops ih =>
      rw [List.foldl_cons, List.find?_cons]
      cases hop : plan.getParentMg op with
      | none =>
          have hreads : plan.reads mg op = false := by simp [PlanIR.reads, hop]
          have hstep : markOp plan s op = s := by simp [markOp, hop]
          rw [hstep, ih s hs, hreads]
      | some m =>
          have hm : m ∈ mgs := hmgs op m hop
          have hany : (s.2.any fun m' => m'.id == m.id) = true ↔ m ∈ s.2 := by
            simp only [List.any_eq_true, beq_iff_eq]
            constructor
            · rintro ⟨m', hm', hid⟩
              exact hinj m' (hs m' hm') m hm hid ▸ hm'
            · exact fun h => ⟨m, h, rfl⟩
          by_cases hmem : m ∈ s.2
          · have hstep : (markOp plan s op).2 = s.2
                ∧ (markOp plan s op).1.bounded = s.1.bounded := by
              simp only [markOp, hop, hany.mpr hmem, if_true, and_self]
            rw [ih _ (by rwa [hstep.1]), hstep.1, hstep.2]
            by_cases heq : m = mg
            · subst heq
              simp [hmem]
            · have hreads : plan.reads mg op = false := by simp [PlanIR.reads, hop, heq]
              simp [hreads]
          · have hnot : (s.2.any fun m' => m'.id == m.id) = false := by
              simpa using mt hany.mp hmem
            have hstep : (markOp plan s op).2 = s.2 ++ [m] ∧ (markOp plan s op).1.bounded
                = Function.update s.1.bounded m.id
                  (s.1.bounded m.id && op.isRestricted op.loopDepth) := by
              simp [markOp, hop, hnot]
            have hs' : ∀ m' ∈ (markOp plan s op).2, m' ∈ mgs := by
              rw [hstep.1]
              intro m' hm'
              rcases List.mem_append.mp hm' with h | h
              · exact hs m' h
              · exact List.mem_singleton.mp h ▸ hm
            rw [ih _ hs', hstep.1, hstep.2]
            by_cases heq : m = mg
            · subst heq
              have hreads : plan.reads m op = true := by simp [PlanIR.reads, hop]
              simp [hreads, hmem]
            · have hreads : plan.reads mg op = false := by simp [PlanIR.reads, hop, heq]
              have hid : mg.id ≠ m.id := fun hid => heq (hinj m hm mg hmg hid.symm)
              simp [hreads, Function.update_of_ne hid, Ne.symm heq]

/-- Over all depths every first reader has a say. -/
theorem bounded_foldl_markDepth (k : ℕ) :
    ((List.range' 1 k).foldl (markDepth plan) ({}, [[]])).1.bounded mg.id = true ↔
      ∀ dep, 1 ≤ dep → dep ≤ k → ∀ op, (plan.ops dep).find? (plan.reads mg) = some op →
        op.isRestricted op.loopDepth = true := by
  induction k with
  | zero =>
      refine iff_of_true rfl fun dep h1 h2 => ?_
      omega
  | succ k ih =>
      rw [List.range'_1_concat, List.foldl_append, List.foldl_cons, List.foldl_nil, markDepth,
        bounded_foldl_markOp hmgs hinj hmg _ _ (by simp), ih]
      constructor
      · rintro ⟨hlow, hlast⟩ dep h1 h2
        by_cases hle : dep ≤ k
        · exact hlow dep h1 hle
        · obtain rfl : dep = 1 + k := by omega
          exact hlast (by simp)
      · intro h
        exact ⟨fun dep h1 h2 => h dep h1 (by omega), fun _ => h (1 + k) (by omega) (by omega)⟩

end Marks

/-- A bounded mini-graph is found only for a bounded one, so nothing changes. -/
theorem bounded_markParent (plan : PlanIR) (marks : MgMarks) (child : MiniGraphIR) :
    (markParent plan marks child).bounded = marks.bounded := by
  rw [markParent]
  split
  · cases hparent : ({ plan with mgBounded := marks.bounded } : PlanIR).getParentMgOf child with
    | none => rfl
    | some parent =>
        obtain ⟨-, -, -, -, -, hbounded⟩ := PlanIR.mem_mgs_of_getParentMgOf hparent
        simp only [PlanIR.isBounded] at hbounded
        funext id
        by_cases hid : id = parent.id
        · subst hid
          simp only [Function.update_self]
          cases hb : marks.bounded parent.id with
          | false => rfl
          | true => simp [hbounded hb]
        · simp only [Function.update_of_ne hid]
  · rfl

theorem bounded_markParents (plan : PlanIR) (marks : MgMarks) :
    (markParents plan marks).bounded = marks.bounded := by
  rw [markParents]
  induction (List.range (plan.maxDep + 1)).reverse.flatMap plan.mgs generalizing marks with
  | nil => rfl
  | cons child rest ih => rw [List.foldl_cons, ih, bounded_markParent]

section

variable {edge restrict : ℕ → Finset ℕ} {plan out : PlanIR} {cfg : CodeGenConfig}

theorem isBounded_createPlanMg (hplan : createPlanMg plan cfg = some out) {mg : MiniGraphIR}
    (hmg : mg ∈ (planMgs plan cfg).flatten) :
    out.isBounded mg = true ↔ ∀ dep, 1 ≤ dep → dep ≤ plan.maxDep → ∀ op,
      (plan.ops dep).find? ((plan.numbered cfg).reads mg) = some op →
        op.isRestricted op.loopDepth = true := by
  obtain ⟨mgOps, -, rfl⟩ := createPlanMg_eq_some hplan
  rw [PlanIR.isBounded, finalMarks, bounded_markParents]
  exact bounded_foldl_markDepth (fun _ _ hmg => mem_flatten_of_read hmg) (planMgs_inj plan cfg)
    hmg plan.maxDep

/-- The marks of a plan are right if and only if its first readers tell. -/
theorem PlannedSets.marks_iff_firstReadersTell (h : PlannedSets edge restrict plan) (hiep : plan.iepNum = 0)
    (hplan : createPlanMg plan cfg = some out) :
    out.BoundedSound ↔ (plan.numbered cfg).FirstReadersTell := by
  have hops : out.ops = plan.ops := by
    obtain ⟨mgOps, -, rfl⟩ := createPlanMg_eq_some hplan
    rfl
  have hle : ∀ {dep op}, op ∈ plan.ops dep → dep ≤ plan.maxDep := by
    intro dep op hop
    have := h.lt_pSize hop
    simp only [PlanIR.maxDep, hiep]
    omega
  have hreads : ∀ {dep op}, op ∈ plan.ops dep →
      out.getParentMg op = (plan.numbered cfg).getParentMg op :=
    fun hop => h.getParentMg_createPlanMg hplan (hle hop) hop
  constructor
  · intro hsound mg dep op hop hmg hnot
    have hmem := mem_flatten_of_read hmg
    by_contra htell
    push Not at htell
    have hbounded : out.isBounded mg = true := by
      refine (isBounded_createPlanMg hplan hmem).mpr fun dep' _ _ first hfirst => ?_
      simpa using htell dep' first hfirst
    have hres := (hsound mg hbounded).1 dep op (hops ▸ hop) ((hreads hop).trans hmg)
    rw [hres] at hnot
    simp at hnot
  · intro htell mg hbounded
    refine ⟨fun dep op hop hmg => ?_, fun dep child _ hchild => ?_⟩
    · rw [hops] at hop
      rw [hreads hop] at hmg
      by_contra hnot
      obtain ⟨dep', first, hfirst, hres⟩ := htell mg dep op hop hmg (by simpa using hnot)
      have hmem' : first ∈ plan.ops dep' := List.mem_of_find?_eq_some hfirst
      have hread : (plan.numbered cfg).getParentMg first = some mg := by
        simpa [PlanIR.reads] using List.find?_some hfirst
      have hpos := (PlanIR.mem_mgs_of_getParentMg hread).1
      rw [h.loopDepth_eq hmem'] at hpos
      have := (isBounded_createPlanMg hplan (mem_flatten_of_read hmg)).mp hbounded dep' (by omega)
        (hle hmem') first hfirst
      rw [this] at hres
      simp at hres
    · obtain ⟨-, -, -, -, -, hserves⟩ := PlanIR.mem_mgs_of_getParentMgOf hchild
      exact hserves hbounded

end

/-- The marks are right for exactly the plans in which the first readers tell, whatever the pattern,
the restrictions and the pruning. -/
theorem boundedSound_iff (sc : Schedule) (cfg : CodeGenConfig) (metaData : MetaData) (pSize : ℕ)
    (hsc : sc.Connected pSize) (ht : cfg.adjMatType ≠ .edgeInducedIEP) (plan out : PlanIR)
    (hplan : createPlan (insertionSort VertexSetIR.less) sc cfg.adjMatType metaData = .ok plan)
    (hout : createPlanMg plan cfg = some out) :
    out.BoundedSound ↔ (plan.numbered cfg).FirstReadersTell := by
  have hsort : PermutesOps (insertionSort VertexSetIR.less) (sc.edge pSize) (sc.restrict pSize)
      pSize := fun _ _ => insertionSort_perm _ _
  refine (createPlan_ok hsort hsc hplan).1.marks_iff_firstReadersTell ?_ hout
  rw [createPlan_eq hsort hsc ht] at hplan
  exact (Except.ok.inj hplan).symm ▸ rfl

/-- A triangle with one more vertex joined to the first of its vertices, which the two others
restrict. -/
def tailedTriangle : Schedule where
  adjMat := "0111101011001000".toList
  restrictPair := [(1, 3), (2, 3)]

theorem connected_tailedTriangle : tailedTriangle.Connected 4 := by
  constructor <;> decide

/-- The marks of its edge induced plan. -/
theorem boundedSound_iff_tailedTriangle : ∃ plan out,
    createPlan (insertionSort VertexSetIR.less) tailedTriangle .edgeInduced {} = .ok plan ∧
      createPlanMg plan { adjMatType := .edgeInduced, pruningType := .eager } = some out ∧
      (out.BoundedSound ↔ (plan.numbered
        { adjMatType := .edgeInduced, pruningType := .eager }).FirstReadersTell) := by
  have hsome : (createPlan (insertionSort VertexSetIR.less) tailedTriangle
      .edgeInduced {}).toOption.any (fun plan =>
        (createPlanMg plan { adjMatType := .edgeInduced, pruningType := .eager }).isSome) = true := by
    decide +kernel
  obtain ⟨plan, hplan, hsome⟩ := Loop.exists_ok_of_any hsome
  obtain ⟨out, hout⟩ := Option.isSome_iff_exists.mp hsome
  exact ⟨plan, out, hplan, hout, boundedSound_iff tailedTriangle _ {} 4 connected_tailedTriangle
    (by decide) plan out hplan hout⟩

/-- The neighbours of the first vertex are cut below the second although the third vertex may lie
above it. -/
theorem bounded_although_unrestricted :
    ¬ ∀ (sc : Schedule) (cfg : CodeGenConfig) (metaData : MetaData) (pSize : ℕ) (plan out : PlanIR),
      sc.Connected pSize → cfg.adjMatType ≠ .edgeInducedIEP →
      createPlan (insertionSort VertexSetIR.less) sc cfg.adjMatType metaData = .ok plan →
      createPlanMg plan cfg = some out → out.BoundedSound := by
  intro hall
  have hread : (createPlan (insertionSort VertexSetIR.less) tailedTriangle
      .vertexInduced {}).toOption.any (fun plan =>
        (createPlanMg plan { pruningType := .eager }).any fun out =>
          (out.ops 1).any fun op => (out.getParentMg op).any fun mg =>
            out.isBounded mg && !op.isRestricted op.loopDepth) = true := by decide +kernel
  obtain ⟨plan, hplan, hread⟩ := Loop.exists_ok_of_any hread
  obtain ⟨out, hout, hread⟩ := (Option.any_eq_true _ _).mp hread
  obtain ⟨op, hop, hread⟩ := List.any_eq_true.mp hread
  obtain ⟨mg, hmg, hread⟩ := (Option.any_eq_true _ _).mp hread
  simp only [Bool.and_eq_true, Bool.not_eq_true'] at hread
  have hsound := hall tailedTriangle { pruningType := .eager } {} 4 plan out
    connected_tailedTriangle (by decide) hplan hout
  have hres := (hsound mg hread.1).1 1 op hop hmg
  rw [hread.2] at hres
  simp at hres

end GraphMini
