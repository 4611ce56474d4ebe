import GraphMini.Codegen.Nested
import GraphMini.Exec.NestRun

/-!
# What holds at every statement of a run

A run comes to a statement when everything before it went through. `Always P` says that `P` holds of
every statement that a run comes to, in the frame it finds. The rules are those of a program logic with
an assumption and a guarantee: the assumption is made at every statement that is reached, and the
guarantee and the end of the run follow from it.
-/

namespace GraphMini

variable {M : MgMachine} {g : Graph} {path : List ℕ}

/-- What is said of a statement, with the position of the run and the frame it finds. -/
abbrev StmtPred (M : MgMachine) : Type := List ℕ → Frame M → Stmt → Prop

def AlwaysStmts (P : StmtPred M) (g : Graph) (path : List ℕ) : List Stmt → Frame M → Prop
  | [], _ => True
  | stmt :: rest, f =>
      P path f stmt ∧ ∀ r ∈ execStmt g path f stmt, r.1 = .next → AlwaysStmts P g path rest r.2

/-- One round of a loop. -/
def execRound (g : Graph) (body : Block) (path : List ℕ) (dep : ℕ) (f : Frame M) (i : ℕ) :
    Option (Frame M) := do
  let inner ← execBlock g body (path ++ [i]) (f.declare (.idx dep) i)
  return f.leave inner

/-- A round begins when all rounds before it are over. -/
def Block.Always (P : StmtPred M) (g : Graph) : Block → List ℕ → Frame M → Prop
  | .last stmts, path, f => AlwaysStmts P g path stmts f
  | .loop stmts _ dep iter body, path, f =>
      AlwaysStmts P g path stmts f ∧
        ∀ r ∈ execStmts g path stmts f, r.1 = .next →
          ∀ s ∈ (r.2.env (.set iter) : Option VertexSet), ∀ i < s.size,
            ∀ f' ∈ (List.range i).foldlM (execRound g body path dep) r.2,
              body.Always P g (path ++ [i]) (f'.declare (.idx dep) i)

/-- The frame in which the iteration `i0_id = v` begins. -/
def Frame.start (M : MgMachine) (v : ℕ) : Frame M := { env := Env.empty.set (.id 0) v, state := M.empty }

theorem Frame.start_env (M : MgMachine) (v : ℕ) : (Frame.start M v).env = Env.empty.set (.id 0) v := rfl

def OmpProgram.Always (P : StmtPred M) (g : Graph) (prog : OmpProgram) : Prop :=
  ∀ v < g.numVertex, prog.body.Always P g [v] (Frame.start M v)

section Decidable

variable {P : StmtPred M} [∀ path f stmt, Decidable (P path f stmt)]

instance decidableAlwaysStmts : ∀ stmts (f : Frame M), Decidable (AlwaysStmts P g path stmts f)
  | [], _ => isTrue trivial
  | stmt :: rest, f =>
      have := fun f => decidableAlwaysStmts rest f
      inferInstanceAs (Decidable (P path f stmt ∧
        ∀ r ∈ execStmt g path f stmt, r.1 = .next → AlwaysStmts P g path rest r.2))

instance decidableBlockAlways : ∀ block path (f : Frame M), Decidable (Block.Always P g block path f)
  | .last stmts, _, f => decidableAlwaysStmts stmts f
  | .loop stmts _ dep iter body, path, f =>
      have := fun path f => decidableBlockAlways body path f
      inferInstanceAs (Decidable (AlwaysStmts P g path stmts f ∧
        ∀ r ∈ execStmts g path stmts f, r.1 = .next →
          ∀ s ∈ (r.2.env (.set iter) : Option VertexSet), ∀ i < s.size,
            ∀ f' ∈ (List.range i).foldlM (execRound g body path dep) r.2,
              body.Always P g (path ++ [i]) (f'.declare (.idx dep) i)))

instance (prog : OmpProgram) : Decidable (prog.Always P g) :=
  inferInstanceAs (Decidable (∀ v < g.numVertex, prog.body.Always P g [v] (Frame.start M v)))

end Decidable

section Rules

variable {P : StmtPred M} {stmts stmts' : List Stmt} {f : Frame M}

theorem alwaysStmts_of_forall (h : ∀ path f, ∀ stmt ∈ stmts, P path f stmt) (f : Frame M) :
    AlwaysStmts P g path stmts f := by
  induction stmts generalizing f with
  | nil => trivial
  | cons stmt rest ih =>
      refine ⟨h path f stmt List.mem_cons_self, fun r _ _ => ?_⟩
      apply ih
      intro path f stmt' hstmt'
      exact h path f stmt' (List.mem_cons_of_mem _ hstmt')

/-- What holds of the statements in every frame. -/
theorem Block.always_of_forall {block : Block} (h : ∀ path f, ∀ stmt ∈ block.stmts, P path f stmt)
    (path : List ℕ) (f : Frame M) : block.Always P g path f := by
  induction block generalizing path f with
  | last stmts => exact alwaysStmts_of_forall h f
  | loop stmts call dep iter body ih =>
      refine ⟨alwaysStmts_of_forall (fun path f stmt hstmt => ?_) f, fun r _ _ s _ i _ f' _ => ?_⟩
      · exact h path f stmt (List.mem_append_left _ hstmt)
      · exact ih (fun path f stmt hstmt => h path f stmt (List.mem_append_right _ hstmt)) _ _

/-- What holds at every statement if the variables keep an invariant from which it follows. -/
theorem alwaysStmts_of_invariant {inv : Env → Prop}
    (hkeeps : ∀ path (f : Frame M) stmt flow f', inv f.env → execStmt g path f stmt = some (flow, f') → inv f'.env)
    (hP : ∀ path (f : Frame M) stmt, inv f.env → P path f stmt) (h : inv f.env) : AlwaysStmts P g path stmts f := by
  induction stmts generalizing f with
  | nil => trivial
  | cons stmt rest ih => exact ⟨hP path f stmt h, fun r hr _ => ih (hkeeps path f stmt r.1 r.2 h hr)⟩

theorem execStmts_keeps {inv : Env → Prop} {flow : Flow} {f' : Frame M}
    (hkeeps : ∀ path (f : Frame M) stmt flow f', inv f.env → execStmt g path f stmt = some (flow, f') → inv f'.env)
    (h : inv f.env) (hrun : execStmts g path stmts f = some (flow, f')) : inv f'.env := by
  induction stmts generalizing f with
  | nil =>
      obtain ⟨rfl, rfl⟩ := Prod.mk.inj (Option.some.inj hrun)
      exact h
  | cons stmt rest ih =>
      obtain ⟨⟨flow₁, f₁⟩, hstmt, hrest⟩ := Option.bind_eq_some_iff.mp hrun
      have h₁ := hkeeps path f stmt flow₁ f₁ h hstmt
      cases flow₁ with
      | next => exact ih h₁ hrest
      | skip =>
          obtain ⟨rfl, rfl⟩ := Prod.mk.inj (Option.some.inj hrest)
          exact h₁

theorem execRounds_env {body : Block} {dep : ℕ} {l : List ℕ} {f' : Frame M}
    (hrounds : l.foldlM (execRound g body path dep) f = some f') : f'.env = f.env := by
  refine Loop.foldlM_keeps (P := fun r : Frame M => r.env = f.env) ?_ rfl hrounds
  intro r i r' hr hround
  obtain ⟨inner, -, hleave⟩ := Option.bind_eq_some_iff.mp hround
  obtain rfl := Option.some.inj hleave
  exact hr

/-- A round of a loop leaves the variables outside of the loop as they were. -/
theorem Block.always_of_invariant (inv : Env → Prop)
    (hkeeps : ∀ path (f : Frame M) stmt flow f', inv f.env → execStmt g path f stmt = some (flow, f') → inv f'.env)
    (hidx : ∀ (env : Env) dep (i : ℕ), inv env → inv (env.set (.idx dep) i))
    (hP : ∀ path (f : Frame M) stmt, inv f.env → P path f stmt) {block : Block} (h : inv f.env) :
    block.Always P g path f := by
  induction block generalizing path f with
  | last stmts => exact alwaysStmts_of_invariant hkeeps hP h
  | loop stmts call dep iter body ih =>
      refine ⟨alwaysStmts_of_invariant hkeeps hP h, fun r hr _ s _ i _ f' hrounds => ih ?_⟩
      apply hidx
      rw [execRounds_env hrounds]
      exact execStmts_keeps hkeeps h hr

theorem alwaysStmts_append :
    AlwaysStmts P g path (stmts ++ stmts') f ↔ AlwaysStmts P g path stmts f ∧
      ∀ f', execStmts g path stmts f = some (.next, f') → AlwaysStmts P g path stmts' f' := by
  induction stmts generalizing f with
  | nil => simp [AlwaysStmts, execStmts]
  | cons stmt rest ih =>
      rw [List.cons_append, AlwaysStmts, AlwaysStmts, and_assoc]
      refine and_congr_right fun _ => ?_
      cases hstmt : execStmt g path f stmt with
      | none => simp [execStmts, hstmt]
      | some r =>
          obtain ⟨flow, f₁⟩ := r
          cases flow with
          | skip => simp [execStmts, hstmt]
          | next =>
              rw [execStmts_cons hstmt]
              simpa using ih

/-- Under the assumption at every statement that is reached, the guarantee holds at every such
statement, and the statements run to an end as the last argument describes it. -/
def Runs (assumption guarantee : StmtPred M) (g : Graph) (path : List ℕ) (stmts : List Stmt) (f : Frame M)
    (post : Flow → Frame M → Prop) : Prop :=
  AlwaysStmts assumption g path stmts f →
    AlwaysStmts guarantee g path stmts f ∧
      ∃ flow f', execStmts g path stmts f = some (flow, f') ∧ post flow f'

variable {assumption guarantee : StmtPred M} {post post' : Flow → Frame M → Prop} {stmt : Stmt}

theorem Runs.nil (h : post .next f) : Runs assumption guarantee g path [] f post :=
  fun _ => ⟨trivial, .next, f, rfl, h⟩

theorem Runs.mono (h : Runs assumption guarantee g path stmts f post)
    (hpost : ∀ flow f', post flow f' → post' flow f') :
    Runs assumption guarantee g path stmts f post' := by
  intro hassume
  obtain ⟨hkeeps, flow, f', hrun, hend⟩ := h hassume
  exact ⟨hkeeps, flow, f', hrun, hpost flow f' hend⟩

theorem AlwaysStmts.mono {P Q : StmtPred M} (h : AlwaysStmts P g path stmts f)
    (hPQ : ∀ f, ∀ stmt ∈ stmts, P path f stmt → Q path f stmt) : AlwaysStmts Q g path stmts f := by
  induction stmts generalizing f with
  | nil => trivial
  | cons stmt rest ih =>
      refine ⟨hPQ f stmt List.mem_cons_self h.1, fun r hr hflow => ?_⟩
      apply ih (h.2 r hr hflow)
      exact fun f' stmt' hstmt' => hPQ f' stmt' (List.mem_cons_of_mem _ hstmt')

/-- What holds of a statement where another thing does. -/
theorem Block.Always.mono {P Q : StmtPred M} {block : Block}
    (h : block.Always P g path f) (hPQ : ∀ path f stmt, P path f stmt → Q path f stmt) :
    block.Always Q g path f := by
  induction block generalizing path f with
  | last stmts => exact AlwaysStmts.mono h fun f stmt _ => hPQ path f stmt
  | loop stmts call dep iter body ih =>
      refine ⟨AlwaysStmts.mono h.1 fun f stmt _ => hPQ path f stmt, fun r hr hflow s hs i hi f' hf' => ?_⟩
      exact ih (h.2 r hr hflow s hs i hi f' hf')

theorem AlwaysStmts.and {P Q : StmtPred M}
    (hP : AlwaysStmts P g path stmts f) (hQ : AlwaysStmts Q g path stmts f) :
    AlwaysStmts (fun path f stmt => P path f stmt ∧ Q path f stmt) g path stmts f := by
  induction stmts generalizing f with
  | nil => trivial
  | cons stmt rest ih =>
      exact ⟨⟨hP.1, hQ.1⟩, fun r hr hflow => ih (hP.2 r hr hflow) (hQ.2 r hr hflow)⟩

theorem Block.Always.and {P Q : StmtPred M} {block : Block}
    (hP : block.Always P g path f) (hQ : block.Always Q g path f) :
    block.Always (fun path f stmt => P path f stmt ∧ Q path f stmt) g path f := by
  induction block generalizing path f with
  | last stmts => exact AlwaysStmts.and hP hQ
  | loop stmts call dep iter body ih =>
      refine ⟨AlwaysStmts.and hP.1 hQ.1, fun r hr hflow s hs i hi f' hf' => ?_⟩
      exact ih (hP.2 r hr hflow s hs i hi f' hf') (hQ.2 r hr hflow s hs i hi f' hf')

/-- Another guarantee of the same statements. -/
theorem Runs.weaken {guarantee' : StmtPred M} (h : Runs assumption guarantee g path stmts f post)
    (hkeep : ∀ f, ∀ stmt ∈ stmts, guarantee path f stmt → guarantee' path f stmt) :
    Runs assumption guarantee' g path stmts f post := by
  intro hassume
  obtain ⟨hkeeps, flow, f', hrun, hend⟩ := h hassume
  exact ⟨hkeeps.mono hkeep, flow, f', hrun, hend⟩

/-- One statement. -/
theorem Runs.single (h : assumption path f stmt → guarantee path f stmt ∧
      ∃ flow f', execStmt g path f stmt = some (flow, f') ∧ post flow f') :
    Runs assumption guarantee g path [stmt] f post := by
  intro hassume
  obtain ⟨hkeeps, flow, f', hrun, hend⟩ := h hassume.1
  refine ⟨⟨hkeeps, fun _ _ _ => trivial⟩, flow, f', ?_, hend⟩
  cases flow with
  | next => rw [execStmts_cons hrun, execStmts]
  | skip => exact execStmts_cons_skip hrun

theorem Runs.append (mid : Flow → Frame M → Prop) (h : Runs assumption guarantee g path stmts f mid)
    (hnext : ∀ f', mid .next f' → Runs assumption guarantee g path stmts' f' post)
    (hskip : ∀ f', mid .skip f' → post .skip f') :
    Runs assumption guarantee g path (stmts ++ stmts') f post := by
  intro hassume
  rw [alwaysStmts_append] at hassume
  obtain ⟨hkeeps, flow, f₁, hrun, hmid⟩ := h hassume.1
  cases flow with
  | skip =>
      refine ⟨alwaysStmts_append.mpr ⟨hkeeps, fun f' hf' => ?_⟩, .skip, f₁, execStmts_append_skip hrun,
        hskip f₁ hmid⟩
      rw [hrun] at hf'
      simp at hf'
  | next =>
      obtain ⟨hkeeps₂, flow, f₂, hrun₂, hend⟩ := hnext f₁ hmid (hassume.2 f₁ hrun)
      refine ⟨alwaysStmts_append.mpr ⟨hkeeps, fun f' hf' => ?_⟩, flow, f₂, ?_, hend⟩
      · rw [hrun] at hf'
        obtain rfl : f₁ = f' := by simpa using hf'
        exact hkeeps₂
      · rw [execStmts_append hrun, hrun₂]

/-- The statements of several things, one after the other: what is known grows with the part of the list
that has been run. -/
theorem Runs.flatMap {α : Type} {part : α → List Stmt} {l : List α} (inv : List α → Frame M → Prop)
    (left : Frame M → Prop)
    (hstep : ∀ before a after f, l = before ++ a :: after → inv before f →
      Runs assumption guarantee g path (part a) f fun flow f' =>
        match flow with
        | .next => inv (before ++ [a]) f'
        | .skip => left f')
    (hinv : inv [] f) :
    Runs assumption guarantee g path (l.flatMap part) f fun flow f' =>
      match flow with
      | .next => inv l f'
      | .skip => left f' := by
  have hall : ∀ (rest before : List α) (f : Frame M), l = before ++ rest → inv before f →
      Runs assumption guarantee g path (rest.flatMap part) f fun flow f' =>
        match flow with
        | .next => inv l f'
        | .skip => left f' := by
    intro rest
    induction rest with
    | nil =>
        intro before f hl hbefore
        apply Runs.nil
        rwa [hl, List.append_nil]
    | cons a rest ih =>
        intro before f hl hbefore
        rw [List.flatMap_cons]
        apply Runs.append _ (hstep before a rest f hl hbefore)
        · intro f' hf'
          apply ih (before ++ [a]) f' _ hf'
          simpa using hl
        · exact fun f' hf' => hf'
  exact hall l [] f rfl hinv

/-- The same of a loop nest. -/
def RunsBlock (assumption guarantee : StmtPred M) (g : Graph) (block : Block) (path : List ℕ) (f : Frame M)
    (post : Frame M → Prop) : Prop :=
  block.Always assumption g path f →
    block.Always guarantee g path f ∧ ∃ f', execBlock g block path f = some f' ∧ post f'

theorem RunsBlock.mono {block : Block} {post post' : Frame M → Prop}
    (h : RunsBlock assumption guarantee g block path f post) (hpost : ∀ f', post f' → post' f') :
    RunsBlock assumption guarantee g block path f post' := by
  intro hassume
  obtain ⟨hkeeps, f', hrun, hend⟩ := h hassume
  exact ⟨hkeeps, f', hrun, hpost f' hend⟩

theorem RunsBlock.last {post : Frame M → Prop}
    (h : Runs assumption guarantee g path stmts f fun _ f' => post f') :
    RunsBlock assumption guarantee g (.last stmts) path f post := by
  intro hassume
  obtain ⟨hkeeps, flow, f', hrun, hend⟩ := h hassume
  refine ⟨hkeeps, f', ?_, hend⟩
  rw [execBlock, hrun]
  rfl

/-- A loop below some statements: every round keeps the invariant, which speaks about the index that
comes next. -/
theorem RunsBlock.loop {call : Option ParCall} {dep : ℕ} {iter : ℤ} {body : Block} {post : Frame M → Prop}
    (hstmts : Runs assumption guarantee g path stmts f post')
    (hskip : ∀ f', post' .skip f' → post f')
    (hnext : ∀ f₁, post' .next f₁ → ∃ s : VertexSet, f₁.env (.set iter) = some s ∧
      ∃ inv : ℕ → Frame M → Prop, inv 0 f₁ ∧ (∀ f', inv s.size f' → post f') ∧
        ∀ i < s.size, ∀ f', inv i f' →
          RunsBlock assumption guarantee g body (path ++ [i]) (f'.declare (.idx dep) i) fun inner =>
            inv (i + 1) (f'.leave inner)) :
    RunsBlock assumption guarantee g (.loop stmts call dep iter body) path f post := by
  intro hassume
  rw [Block.Always] at hassume ⊢
  obtain ⟨hkeeps, flow, f₁, hrun, hend⟩ := hstmts hassume.1
  rw [execBlock, hrun]
  cases flow with
  | skip =>
      refine ⟨⟨hkeeps, fun r hr hflow => ?_⟩, f₁, rfl, hskip f₁ hend⟩
      rw [← Option.some.inj (Option.mem_def.mp hr)] at hflow
      simp at hflow
  | next =>
      obtain ⟨s, hs, inv, hzero, hpost, hround⟩ := hnext f₁ hend
      -- the assumption speaks about the frames that the loop reaches
      have hrounds : ∀ i < s.size, ∀ f', (List.range i).foldlM (execRound g body path dep) f₁ = some f' →
          inv i f' → body.Always guarantee g (path ++ [i]) (f'.declare (.idx dep) i) ∧
            ∃ f'', execRound g body path dep f' i = some f'' ∧ inv (i + 1) f'' := by
        intro i hi f' hreach hinv
        obtain ⟨hkeeps', inner, hinner, hinv'⟩ :=
          hround i hi f' hinv (hassume.2 _ hrun rfl s hs i hi f' hreach)
        refine ⟨hkeeps', f'.leave inner, ?_, hinv'⟩
        rw [execRound, hinner]
        rfl
      have hall : ∀ count ≤ s.size, ∃ f', (List.range count).foldlM (execRound g body path dep) f₁ = some f' ∧
          inv count f' := by
        intro count hcount
        induction count with
        | zero => exact ⟨f₁, rfl, hzero⟩
        | succ i ih =>
            obtain ⟨f', hreach, hinv⟩ := ih (by omega)
            obtain ⟨-, f'', hstep, hinv'⟩ := hrounds i (by omega) f' hreach hinv
            refine ⟨f'', ?_, hinv'⟩
            rw [List.range_succ, List.foldlM_append, hreach]
            simp [hstep]
      obtain ⟨f₂, hloop, hinv⟩ := hall s.size le_rfl
      refine ⟨⟨hkeeps, fun r hr _ s' hs' i hi f' hreach => ?_⟩, f₂, ?_, hpost f₂ hinv⟩
      · obtain rfl : (Flow.next, f₁) = r := Option.some.inj hr
        obtain rfl : s = s' := Option.some.inj (hs.symm.trans hs')
        obtain ⟨f'', hreach', hinv'⟩ := hall i hi.le
        obtain rfl : f'' = f' := Option.some.inj (hreach'.symm.trans hreach)
        exact (hrounds i hi f'' hreach hinv').1
      · simp only [Option.bind_eq_bind, Option.bind_some, hs]
        exact hloop

end Rules

end GraphMini
