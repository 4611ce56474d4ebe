import GraphMini.Exec.Nested
import GraphMini.Exec.Total

/-!
# Parallel regions add what the loop would add

Whether a call is taken or the inlined copy of the loop is run, the rounds are the same, and every round
gives the mini-graphs back as it found them. So the amounts of the rounds add up to the total of the body
in any split and in any order.
-/

namespace GraphMini

open Finset (univ)

variable {g : Graph} {layout : Layout} {workers : ℕ}

namespace Shared

variable {M : MgMachine}

/-- What `Context::get_result` adds up. -/
def total (s : Shared M workers) : ℤ := ∑ worker, s.counters worker

theorem total_update (s : Shared M workers) (worker : Fin workers) (f : Frame M) {x : ℤ}
    (hx : f.counter = s.counters worker + x) : (s.update worker f).total = s.total + x := by
  have hrest : ∑ w ∈ univ.erase worker, (s.update worker f).counters w
      = ∑ w ∈ univ.erase worker, s.counters w := by
    refine Finset.sum_congr rfl fun w hw => ?_
    exact Function.update_of_ne (Finset.ne_of_mem_erase hw) _ _
  have hself : (s.update worker f).counters worker = s.counters worker + x := by
    rw [← hx]
    exact Function.update_self _ _ _
  calc (s.update worker f).total
      = (s.update worker f).counters worker
          + ∑ w ∈ univ.erase worker, (s.update worker f).counters w :=
        (Finset.add_sum_erase _ _ (Finset.mem_univ worker)).symm
    _ = (s.counters worker + ∑ w ∈ univ.erase worker, s.counters w) + x := by
        rw [hself, hrest]
        ring
    _ = s.total + x := by rw [Finset.add_sum_erase _ _ (Finset.mem_univ worker), total]

end Shared

namespace Block

/-- The number of loops. -/
def height : Block → ℕ
  | .last _ => 0
  | .loop _ _ _ _ body => body.height + 1

/-- The class that is called at a loop has the inlined loop body as its own. -/
def Unfolds (loops : List LoopClass) : Block → Prop
  | .last _ => True
  | .loop _ call dep iter body =>
      (∀ c, call = some c → c.loop = dep ∧ c.iter = iter ∧
        ∃ cls, loops[dep]? = some cls ∧ cls.body = body ∧ c.args = cls.members.map Decl.var) ∧
      0 < dep ∧ body.Unfolds loops

end Block

theorem takenCall_some {env : Env} {call : Option ParCall}
    (h : ∀ v ∈ call.toList.flatMap ParCall.reads, env.declared v = true) :
    takenCall env call = some none ∨ ∃ c, call = some c ∧ takenCall env call = some (some c) := by
  cases call with
  | none => exact Or.inl rfl
  | some call =>
      have htest : ∃ b, call.test.taken env = some b := by
        cases hcall : call.test with
        | always => exact ⟨true, rfl⟩
        | sizeAbove setId bound =>
            have hset := h (.set setId) (by simp [ParCall.reads, hcall])
            obtain ⟨s, hs⟩ := Option.isSome_iff_exists.mp hset
            exact ⟨_, by rw [ParTest.taken, hs]; rfl⟩
      obtain ⟨b, hb⟩ := htest
      cases b with
      | true => exact Or.inr ⟨call, rfl, by rw [takenCall, hb]; rfl⟩
      | false => exact Or.inl (by rw [takenCall, hb]; rfl)

section

variable {outside alive : ℤ → Bool} {scope : Scope} {f f₀ : Frame (miniGraphMachine g layout)}
  {cls : LoopClass} {args : List Var} {path : List ℕ}

theorem Alike.declared_left (h : Alike outside scope f f₀) {v : Var} (hv : v ∈ scope) :
    f.env.declared v = true := by
  rw [Env.declared, h.values v hv]
  exact h.declared v hv

/-- The constructor finds its arguments. -/
theorem Alike.construct (h : Alike outside scope f f₀) (hargs : args = cls.members.map Decl.var)
    (hsub : args ⊆ scope) (halive : ∀ mg, alive mg = (outside mg || f.env.declared (.mg mg))) :
    ∃ members, cls.construct f.env args = some members ∧ ∀ (c : ℤ),
      Alike alive (cls.members.map Decl.var)
        ({ env := members, state := f₀.state, counter := c } : Frame (miniGraphMachine g layout)) f₀ := by
  have hdeclared : ∀ v ∈ args, f.env.declared v = true := fun v hv => h.declared_left (hsub hv)
  refine ⟨_, if_pos ⟨hargs, hdeclared⟩, fun c => ⟨rfl, fun v hv => ?_, fun v hv => ?_, fun mg => ?_⟩⟩
  · exact h.declared v (hsub (hargs ▸ hv))
  · have hin : v ∈ args := hargs ▸ hv
    change (if v ∈ args then f.env v else none) = f₀.env v
    rw [if_pos hin, h.values v (hsub hin)]
  · rw [halive, ← h.alive mg, Bool.or_assoc]
    congr 1
    change (f.env.declared (.mg mg) || (if Var.mg mg ∈ args then f.env (.mg mg) else none).isSome) = _
    by_cases hin : Var.mg mg ∈ args
    · simp [hdeclared _ hin]
    · simp [hin]

/-- A region adds what its rounds add, however it is split. -/
theorem execRange_adds {split : Splitter workers} (hsplit : split.Partitions)
    {region : Region (miniGraphMachine g layout) workers} {loop n : ℕ} {members : Env} {state : MgStore}
    {amount : ℕ → Option ℤ} {s : Shared (miniGraphMachine g layout) workers}
    (hround : ∀ (worker : Fin workers) (i : ℕ) (s : Shared (miniGraphMachine g layout) workers),
      s.state = state → Loop.Adds (fun s' => MgStore.leave s'.state alive = state) Shared.total s (amount i)
        (execParBlock g region worker alive cls.body (path ++ [i]) (LoopClass.enter members loop i) s))
    (hs : s.state = state) :
    Loop.Adds (fun s' => s'.state = state) Shared.total s (Loop.sumM amount (List.range n))
      ((split path n).foldlM (execRange g region cls loop path members alive) s) := by
  rw [← Loop.sumM_perm amount (hsplit path n), Loop.sumM_flatMap]
  refine Loop.adds_foldlM (fun s r _ hs => ?_) hs
  refine Loop.adds_foldlM (fun s i _ hs => ?_) hs
  change Loop.Adds _ _ _ _ (Option.bind _ fun s' => some (Shared.leave s' alive))
  exact (hround r.worker i s hs).finish rfl fun s' hs' => ⟨hs', rfl⟩

theorem enter_eq (members : Env) {loop : ℕ} (hloop : 0 < loop) (i : ℕ) :
    LoopClass.enter members loop i = members.set (.idx loop) i ∧ LoopClass.loopVar loop = .idx loop := by
  cases loop with
  | zero => simp at hloop
  | succ loop => exact ⟨rfl, rfl⟩

variable (path) in
/-- A loop body adds its total, whichever of its loops are handed over to other workers. -/
theorem execParBlock_adds {split : Splitter workers} (hsplit : split.Partitions)
    {loops : List LoopClass}
    (hclasses : ∀ (loop : ℕ) (cls : LoopClass), loops[loop]? = some cls → cls.SelfContained loop)
    {block : Block} {fuel : ℕ} (hfuel : block.height ≤ fuel) (hunfolds : block.Unfolds loops)
    {worker : Fin workers} {env : Env} {s : Shared (miniGraphMachine g layout) workers}
    {taken : ℤ → Prop} (halike : Alike outside scope (s.frame env worker) f₀) (h : Settled f₀)
    (hclosed : ClosedBlock scope block) (hread : block.ReadOnly) (hfresh : block.Fresh taken)
    (htaken : ∀ mg, f₀.env.declared (.mg mg) = true → taken mg) :
    Loop.Adds (fun s' => MgStore.Extends (fun mg => f₀.env.declared (.mg mg)) f₀.state s'.state)
      Shared.total s (blockTotal (miniGraphMachine g layout) g block path f₀.env f₀.state)
      (execParBlock g (execCall g loops split fuel) worker outside block path env s) := by
  induction block generalizing fuel worker outside scope env s f₀ path taken with
  | last stmts =>
      have hrun := execStmts_bodyRun path (halike.restart 0) rfl (h.restart 0)
        hclosed hread htaken hfresh
      rw [blockTotal, execParBlock]
      generalize execStmts g path stmts (s.frame env worker) = o,
        execStmts g path stmts ({ env := f₀.env, state := f₀.state } : Frame _) = o₀ at hrun ⊢
      cases hrun with
      | none => exact .none
      | some hrun => exact .some ⟨hrun.builds_left, Shared.total_update s worker _ hrun.counter⟩
  | loop stmts call dep iter body ih =>
      obtain ⟨hstmts, hcall, hiter, hbody⟩ := hclosed
      obtain ⟨htarget, hdep, hunfolds⟩ := hunfolds
      have hrun := execStmts_bodyRun path (halike.restart 0) rfl (h.restart 0)
        hstmts hread.of_stmts htaken hfresh.1
      rw [blockTotal, execParBlock]
      generalize execStmts g path stmts (s.frame env worker) = o,
        execStmts g path stmts ({ env := f₀.env, state := f₀.state } : Frame _) = o₀ at hrun ⊢
      cases hrun with
      | none => exact .none
      | @some r r₀ hrun =>
          obtain ⟨flow, f₁⟩ := r
          obtain ⟨flow₀, f₂⟩ := r₀
          obtain rfl : flow = flow₀ := hrun.flow
          have htotal := Shared.total_update s worker f₁ hrun.counter
          cases flow with
          | skip => exact .some ⟨hrun.builds_left, htotal⟩
          | next =>
              have halike : Alike outside _ f₁ f₂ := hrun.alike rfl
              have hsettled : Settled f₂ := hrun.settled
              have htaken' : ∀ i mg, (f₂.env.set (.idx dep) i).declared (.mg mg) = true → _ :=
                fun i mg hmg => hrun.taken mg (by rwa [declared_set _ _ _ (by simp)] at hmg)
              obtain ⟨set, hset⟩ := Option.isSome_iff_exists.mp (halike.declared _ hiter)
              have hset₁ : f₁.env (.set iter) = some set := (halike.values _ hiter).trans hset
              simp only [Option.bind_eq_bind, Option.bind_some, hset]
              -- after the statements, the rounds of the loop or of the region
              suffices hrounds : Loop.Adds (fun s' => s'.state = f₂.state) Shared.total
                  (s.update worker f₁) (Loop.sumM (fun i => blockTotal (miniGraphMachine g layout) g body
                    (path ++ [i]) (f₂.env.set (.idx dep) i) f₂.state) (List.range set.size)) _ from by
                refine hrounds.shift htotal fun s' hs' => ?_
                rw [hs']
                exact hrun.builds
              rcases takenCall_some fun v hv => halike.declared_left (hcall hv) with
                hskip | ⟨c, rfl, hgo⟩
              · simp only [hskip, hset₁, Option.bind_some]
                refine Loop.adds_foldlM (fun s' i _ hs' => ?_) halike.state
                have hframe : s'.frame (f₁.env.set (.idx dep) i) worker
                    = { env := f₁.env.set (.idx dep) i, state := f₁.state, counter := s'.counters worker } := by
                  rw [Shared.frame, hs', halike.state]
                have hround := ih (path ++ [i]) (Nat.le_of_succ_le hfuel) hunfolds
                  (hframe ▸ halike.set (.idx dep) i (by simp) _ 0) (hsettled.set (.idx dep) i (by simp) 0)
                  hbody hread.of_body hfresh.2 (htaken' i)
                change Loop.Adds _ _ _ _ (Option.bind _ fun s'' => some (Shared.leave s'' _))
                exact hround.finish rfl fun s'' hs'' =>
                  ⟨hsettled.leave (by simp) halike.alive hs'', rfl⟩
              · obtain ⟨rfl, rfl, cls, hcls, rfl, hargs⟩ := htarget c rfl
                obtain ⟨fuel, rfl⟩ := Nat.exists_eq_add_of_le' (Nat.le_of_add_left_le hfuel)
                have hsub : c.args ⊆ scopeAfter scope stmts := fun v hv => hcall (by
                  simp only [Option.toList, List.flatMap_cons, List.flatMap_nil, List.append_nil]
                  exact List.mem_append_right _ (List.mem_cons_of_mem _ hv))
                obtain ⟨members, hmembers, hm⟩ := halike.construct hargs hsub fun _ => rfl
                simp only [hgo, Option.bind_some, execCall, hcls, hmembers, hset₁, Option.bind_eq_bind]
                refine execRange_adds hsplit (fun worker' i s' hs' => ?_) halike.state
                obtain ⟨henter, hvar⟩ := enter_eq members hdep i
                have hself : ClosedBlock (LoopClass.loopVar c.loop :: cls.members.map Decl.var) cls.body :=
                  hclasses c.loop cls hcls
                rw [hvar] at hself
                have hframe : s'.frame (members.set (.idx c.loop) i) worker'
                    = { env := members.set (.idx c.loop) i, state := f₂.state,
                        counter := s'.counters worker' } := by
                  rw [Shared.frame, hs']
                have hround := ih (path ++ [i]) (Nat.le_of_succ_le_succ hfuel) hunfolds
                  (hframe ▸ (hm 0).set (.idx c.loop) i (by simp) _ 0) (hsettled.set (.idx c.loop) i (by simp) 0)
                  hself hread.of_body hfresh.2 (htaken' i)
                rw [henter]
                exact hround.mono fun s'' hs'' => hsettled.leave (by simp) halike.alive hs''

end

end GraphMini
