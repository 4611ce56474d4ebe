import GraphMini.Exec.OpSpec
import GraphMini.Lib.Completion
import GraphMini.Lib.Loop

/-!
# The loop nest without pruning

One operation makes its set ready, the operations of a depth make all sets of the depth ready or
find one of them empty, and a loop body adds to the counter the number of ways to place the vertices
that are left. The induction is on the number of loops below.
-/

namespace GraphMini

open VertexSetIR

section

variable {t : AdjMatType} {g : Graph} {placed : List ℕ} {done : List VertexSetIR} {env : Env}
  {op : VertexSetIR}

/-- The chain over all earlier vertices, from a set whose members fit the vertex of the operation's
own depth. -/
theorem evalSet_chain (op : VertexSetIR) (hready : Ready t g placed done env) (hg : g.Valid) {e : SetExpr}
    {s : VertexSet} (hs : evalSet env e = some s) (hsorted : s.data.SortedLT) {k : ℕ}
    (hk : k ≤ placed.length) (hedges : ∀ i < k, i ∉ op.edges) :
    ∃ s', evalSet env ((List.range k).foldl (chainLink t op) e) = some s' ∧ s'.data.SortedLT
      ∧ ∀ x, x ∈ s'.data ↔
        x ∈ s.data ∧ ∀ i < k, Fits t g op.edges op.restricts i (placed.getD i 0) x := by
  induction k with
  | zero => exact ⟨s, hs, hsorted, by simp⟩
  | succ k ih =>
      obtain ⟨s₁, heval₁, hsorted₁, hmem₁⟩ := ih (by omega) fun i hi => hedges i (by omega)
      obtain ⟨s₂, p, heval₂, hdata, hp⟩ := evalSet_chainLink t op heval₁ hsorted₁ hg
        (hready.lt k (by omega)) (hready.adj k (by omega)) (hedges k (by omega))
      refine ⟨s₂, ?_, hdata ▸ SortedList.filter hsorted₁ p, fun x => ?_⟩
      · rw [List.range_succ, List.foldl_append]
        exact heval₂
      · rw [hdata, List.mem_filter, hmem₁, hp, and_assoc]
        simp only [Nat.lt_succ_iff_lt_or_eq, or_imp, forall_and, forall_eq]

/-- The set of an operation without a parent. -/
theorem evalSet_chainExpr (hready : Ready t g placed done env) (hg : g.Valid)
    (hdep : op.loopDepth < placed.length) (hedges : op.edges = {op.loopDepth}) :
    ∃ s, evalSet env (chainExpr t op) = some s ∧ Denotes t g placed op s := by
  set y := placed.getD op.loopDepth 0 with hydef
  have hy : y < g.numVertex := hready.lt _ hdep
  have hmem : op.loopDepth ∈ op.edges := by simp [hedges]
  obtain ⟨s₀, hs₀, hsorted₀, hmem₀⟩ : ∃ s₀,
      evalSet env (if op.isRestricted op.loopDepth then .bounded (.adj op.loopDepth)
        (.id op.loopDepth) else .adj op.loopDepth) = some s₀ ∧ s₀.data.SortedLT
      ∧ ∀ x, x ∈ s₀.data ↔ Fits t g op.edges op.restricts op.loopDepth y x := by
    have hN : (g.N y).data.SortedLT := hg.sorted y hy
    by_cases hres : op.loopDepth ∈ op.restricts
    · refine ⟨(g.N y).bounded y, ?_, ?_, fun x => ?_⟩
      · simp [isRestricted, hres, evalSet, evalId, hready.adj _ hdep, hready.id _ hdep, hydef]
      · rw [VertexSet.bounded_data hN]
        exact SortedList.filter hN _
      · rw [VertexSet.bounded_data hN, List.mem_filter, decide_eq_true_eq,
          fits_edge_iff hg hy hmem, Graph.mem_N]
        simp [hres]
    · refine ⟨g.N y, ?_, hN, fun x => ?_⟩
      · simp [isRestricted, hres, evalSet, hready.adj _ hdep, hydef]
      · rw [fits_edge_iff hg hy hmem, Graph.mem_N]
        simp [hres]
  obtain ⟨s, heval, hsorted, hs⟩ := evalSet_chain op hready hg hs₀ hsorted₀
    hdep.le (fun i hi => by simp [hedges, hi.ne])
  refine ⟨s, heval, hsorted, fun x => ?_⟩
  rw [hs, hmem₀, candidate_succ_iff, Candidate]
  constructor
  · rintro ⟨hfits, hearlier⟩
    exact ⟨⟨hg.lt_numVertex y hy x (hfits.2.1 hmem), hearlier⟩, hfits⟩
  · rintro ⟨⟨-, hearlier⟩, hfits⟩
    exact ⟨hfits, hearlier⟩

/-- A set declared under a new id. -/
theorem Ready.declareSet (hready : Ready t g placed done env) {s : VertexSet}
    (hs : Denotes t g placed op s) (hfresh : ∀ u ∈ done, u.id ≠ op.id) :
    Ready t g placed (done ++ [op]) (env.set (.set op.id) s) where
  lt := hready.lt
  id i hi := by
    rw [Env.set_of_ne _ _ (by simp)]
    exact hready.id i hi
  adj i hi := by
    rw [Env.set_of_ne _ _ (by simp)]
    exact hready.adj i hi
  set u hu := by
    rcases List.mem_append.mp hu with hu | hu
    · rw [Env.set_of_ne _ _ (by simpa using hfresh u hu)]
      exact hready.set u hu
    · obtain rfl : u = op := by simpa using hu
      exact ⟨s, Env.set_self _ _ _, hs⟩

end

/-! ### The vertices that are left -/

/-- `x` may be placed after `placed`. -/
def Admissible (t : AdjMatType) (g : Graph) (edge restrict : ℕ → Finset ℕ) (placed : List ℕ)
    (x : ℕ) : Prop :=
  Candidate t g (edge placed.length) (restrict placed.length) placed placed.length x

instance (t : AdjMatType) (g : Graph) (edge restrict : ℕ → Finset ℕ) (placed : List ℕ) :
    DecidablePred (Admissible t g edge restrict placed) := fun x => by
  unfold Admissible
  infer_instance

/-- The number of ways to place `k` more vertices. -/
def extensions (t : AdjMatType) (g : Graph) (edge restrict : ℕ → Finset ℕ) (k : ℕ)
    (placed : List ℕ) : ℕ :=
  Completion.count (Finset.range g.numVertex) (Admissible t g edge restrict) k placed

section

variable {t : AdjMatType} {g : Graph} {edge restrict : ℕ → Finset ℕ} {placed : List ℕ}
  {op : VertexSetIR} {s : VertexSet} {dep : ℕ}

/-- The set a loop runs over holds the vertices that may be placed next. -/
theorem Denotes.mem_iff_admissible (h : Denotes t g placed op s)
    (hsame : op.same (cut (edge placed.length) (restrict placed.length) dep) = true)
    (hlen : placed.length = dep + 1) (x : ℕ) :
    x ∈ s.data ↔ Admissible t g edge restrict placed x := by
  have hcut := (h.congr hsame).2 x
  rw [hcut, Admissible, hlen]
  exact candidate_cut le_rfl

/-- A loop over the set adds up over the vertices that may be placed next. -/
theorem Denotes.sum_map_eq (h : Denotes t g placed op s)
    (hsame : op.same (cut (edge placed.length) (restrict placed.length) dep) = true)
    (hlen : placed.length = dep + 1) (amount : ℕ → ℤ) :
    (s.data.map amount).sum
      = ∑ x ∈ Finset.range g.numVertex with Admissible t g edge restrict placed x, amount x := by
  rw [← List.sum_toFinset _ h.1.nodup]
  refine Finset.sum_congr ?_ fun _ _ => rfl
  ext x
  rw [List.mem_toFinset, h.mem_iff_admissible hsame hlen x, Finset.mem_filter, Finset.mem_range]
  exact ⟨fun hadm => ⟨hadm.1, hadm⟩, fun hadm => hadm.2⟩

/-- The last set has one element for every way to finish. -/
theorem Denotes.size_eq (h : Denotes t g placed op s)
    (hsame : op.same (cut (edge placed.length) (restrict placed.length) dep) = true)
    (hlen : placed.length = dep + 1) : s.size = extensions t g edge restrict 1 placed := by
  have hsum := h.sum_map_eq hsame hlen fun _ => 1
  simp only [List.map_const', List.sum_replicate, nsmul_eq_mul, mul_one] at hsum
  simp only [extensions, Completion.count]
  exact_mod_cast hsum

/-- A vertex without a candidate cannot be placed any more. -/
theorem extensions_eq_zero {v k : ℕ} (hlow : placed.length ≤ v) (hhigh : v < placed.length + k)
    (hnone : ∀ x, ¬ Candidate t g (edge v) (restrict v) placed placed.length x) :
    extensions t g edge restrict k placed = 0 := by
  refine Completion.count_eq_zero fun f _ hcompletes => ?_
  have hi : v - placed.length < k := by omega
  have hadm := hcompletes ⟨v - placed.length, hi⟩
  have hlen : (placed ++ (List.ofFn f).take (v - placed.length)).length = v := by
    rw [List.length_append, List.length_take, List.length_ofFn]
    omega
  simp only [Admissible, hlen] at hadm
  exact hnone _ ((candidate_append le_rfl).mp (hadm.mono hlow))

end

/-! ### One operation -/

section

variable {edge restrict : ℕ → Finset ℕ} {plan : PlanIR} (h : Planned edge restrict plan)
  {g : Graph} (hg : g.Valid) {M : MgMachine} {placed : List ℕ} {dep : ℕ}

/-- The operations of the depths before `dep`. -/
def PlanIR.opsBelow (plan : PlanIR) (dep : ℕ) : List VertexSetIR := (List.range dep).flatMap plan.ops

theorem PlanIR.opsBelow_succ (plan : PlanIR) (dep : ℕ) :
    plan.opsBelow (dep + 1) = plan.opsBelow dep ++ plan.ops dep := by
  simp [PlanIR.opsBelow, List.range_succ]

theorem PlannedSets.id_ne (h : PlannedSets edge restrict plan)
    {before after : List VertexSetIR} {op : VertexSetIR}
    (hops : plan.ops dep = before ++ op :: after) :
    ∀ u ∈ plan.opsBelow dep ++ before, u.id ≠ op.id := by
  intro u hu
  rcases List.mem_append.mp hu with hu | hu
  · obtain ⟨k, hk, hu⟩ := List.mem_flatMap.mp hu
    exact (h.ids_lt_of_lt k dep (List.mem_range.mp hk) u hu op (by simp [hops])).ne
  · have hlt := h.ids_lt dep
    rw [hops, List.pairwise_append] at hlt
    exact (hlt.2.2 u hu op List.mem_cons_self).ne

variable (hlen : placed.length = dep + 1) {before after : List VertexSetIR} {op : VertexSetIR}
  (hops : plan.ops dep = before ++ op :: after) {env : Env}
  (hready : Ready plan.adjMatType g placed (plan.opsBelow dep ++ before) env)

include h hg hlen hops hready

/-- The expression of an operation with its prefix one depth above. -/
theorem evalSet_above {u : VertexSetIR} {dep' : ℕ} (hdep : op.loopDepth = dep' + 1)
    (hmem : u ∈ plan.ops dep') (hsame : u.same (op.prefixAt dep') = true) :
    ∃ s, evalSet env (prefixExpr plan.adjMatType op u.id) = some s
      ∧ evalCnt env (prefixCnt plan.adjMatType op u.id) = some s.size
      ∧ Denotes plan.adjMatType g placed op s := by
  have hd : op.loopDepth = dep := h.loopDepth_eq (by simp [hops])
  have hin : op.loopDepth < placed.length := by omega
  obtain ⟨s, henv, hs⟩ := hready.set u
    (List.mem_append_left _ (List.mem_flatMap.mpr ⟨dep', List.mem_range.mpr (by omega), hmem⟩))
  obtain ⟨s', p, heval, hcnt, hdata, hp⟩ := evalSet_prefixExpr plan.adjMatType op henv hs.1 hg
    (hready.lt _ hin) (hready.adj _ hin)
  exact ⟨s', heval, hcnt, hs.of_filter hsame hdep hdata fun x _ => hdep ▸ hp x⟩

omit hg in
/-- The expression of an operation that is cut from its sibling. -/
theorem evalSet_sibling {u : VertexSetIR} (hmem : u ∈ before)
    (hsame : u.same op.unrestricted = true) (hrestricted : op.loopDepth ∈ op.restricts) :
    ∃ s, evalSet env (.bounded (.set u.id) (.id op.loopDepth)) = some s
      ∧ Denotes plan.adjMatType g placed op s := by
  have hd : op.loopDepth = dep := h.loopDepth_eq (by simp [hops])
  obtain ⟨s, henv, hs⟩ := hready.set u (List.mem_append_right _ hmem)
  refine ⟨s.bounded (placed.getD op.loopDepth 0), ?_,
    hs.of_sibling hsame hrestricted (VertexSet.bounded_data hs.1 _)⟩
  simp [evalSet, evalId, henv, hready.id op.loopDepth (by omega)]

end

end GraphMini
