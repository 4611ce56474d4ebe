import GraphMini.Exec.PoolThreads

/-!
# What holds at every statement of a run with the pool

The run over values tells what a statement finds: its frame shows the contents of the objects in scope. So
what holds at every statement of an intact run over values holds, of the frame that is shown, at every
statement of the run over objects.
-/

namespace GraphMini

variable {M : MgMachine} {g : Graph} {path : List ℕ}

/-- What is said of a statement, with the position of the run and the frame over objects it finds. -/
abbrev PoolStmtPred (M : MgMachine) : Type := List ℕ → PoolFrame M → Stmt → Prop

def PoolAlwaysStmts (P : PoolStmtPred M) (g : Graph) (path : List ℕ) : List Stmt → PoolFrame M → Prop
  | [], _ => True
  | stmt :: rest, f =>
      P path f stmt ∧ ∀ r ∈ poolStmt g path f stmt, r.1 = .next → PoolAlwaysStmts P g path rest r.2

def Block.PoolAlways (P : PoolStmtPred M) (g : Graph) : Block → List ℕ → PoolFrame M → Prop
  | .last stmts, path, f => PoolAlwaysStmts P g path stmts f
  | .loop stmts _ dep iter body, path, f =>
      PoolAlwaysStmts P g path stmts f ∧
        ∀ r ∈ poolStmts g path stmts f, r.1 = .next →
          ∀ s ∈ r.2.vars.lookup (.set iter), ∀ i < s.size,
            ∀ f' ∈ (List.range i).foldlM (poolRound g body path dep) r.2,
              body.PoolAlways P g (path ++ [i]) (f'.declareIdx dep i)

/-- An iteration of a thread begins when all iterations before it are over. -/
def OmpProgram.PoolAlways (P : PoolStmtPred M) (g : Graph) (prog : OmpProgram) (vs : List ℕ) : Prop :=
  ∀ before v after, vs = before ++ v :: after →
    ∀ f ∈ before.foldlM (poolVertex g prog.body) (PoolFrame.start M), prog.body.PoolAlways P g [v] (f.enter v)

section Decidable

variable {P : PoolStmtPred M} [∀ path f stmt, Decidable (P path f stmt)]

instance decidablePoolAlwaysStmts : ∀ stmts (f : PoolFrame M), Decidable (PoolAlwaysStmts P g path stmts f)
  | [], _ => isTrue trivial
  | stmt :: rest, f =>
      have := fun f => decidablePoolAlwaysStmts rest f
      inferInstanceAs (Decidable (P path f stmt ∧
        ∀ r ∈ poolStmt g path f stmt, r.1 = .next → PoolAlwaysStmts P g path rest r.2))

instance decidableBlockPoolAlways : ∀ block path (f : PoolFrame M), Decidable (Block.PoolAlways P g block path f)
  | .last stmts, _, f => decidablePoolAlwaysStmts stmts f
  | .loop stmts _ dep iter body, path, f =>
      have := fun path f => decidableBlockPoolAlways body path f
      inferInstanceAs (Decidable (PoolAlwaysStmts P g path stmts f ∧
        ∀ r ∈ poolStmts g path stmts f, r.1 = .next →
          ∀ s ∈ r.2.vars.lookup (.set iter), ∀ i < s.size,
            ∀ f' ∈ (List.range i).foldlM (poolRound g body path dep) r.2,
              body.PoolAlways P g (path ++ [i]) (f'.declareIdx dep i)))

end Decidable

/-- The frame over values at the point of a run over objects. -/
def PoolFrame.frame (g : Graph) (f : PoolFrame M) : Frame M :=
  { env := f.shows g, state := f.state, counter := f.counter }

/-- What the run over values says of a statement tells the run over objects what it finds. -/
def Lifts (g : Graph) (Q : StmtPred M) (P : PoolStmtPred M) : Prop :=
  ∀ path f F stmt base, f.Sound g → f.Shows g base F → Q path F stmt →
    (∃ r, poolStmt g path f stmt = some r) → P path f stmt

section

variable {Q : StmtPred M} {P : PoolStmtPred M} (hlifts : Lifts g Q P) {capacity : ℕ∞} {base : ℤ}

include hlifts

theorem poolAlwaysStmts_of_always {stmts : List Stmt} {f : PoolFrame M} {F F' : Frame M} {flow : Flow}
    (hf : f.Sound g) (hF : f.Shows g base F) (hintact : AlwaysStmts (Intact capacity) g path stmts F)
    (hQ : AlwaysStmts Q g path stmts F) (hrun : execStmts g path stmts F = some (flow, F')) :
    PoolAlwaysStmts P g path stmts f := by
  induction stmts generalizing f F with
  | nil => trivial
  | cons stmt rest ih =>
      rw [execStmts] at hrun
      obtain ⟨⟨flow₁, F₁⟩, hstmt, hrun⟩ := Option.bind_eq_some_iff.mp hrun
      obtain ⟨f₁, hpool, hfollows⟩ := poolStmt_spec hf hF hintact.1 hstmt
      refine ⟨hlifts path f F stmt base hf hF hQ.1 ⟨_, hpool⟩, fun r hr hflow => ?_⟩
      obtain rfl := Option.some.inj (hpool.symm.trans hr)
      obtain rfl : flow₁ = .next := hflow
      exact ih hfollows.sound hfollows.shows (hintact.2 _ hstmt rfl) (hQ.2 _ hstmt rfl) hrun

theorem Block.poolAlways_of_always {block : Block} {f : PoolFrame M} {F F' : Frame M} (hf : f.Sound g)
    (hF : f.Shows g base F) (hintact : block.Always (Intact capacity) g path F) (hQ : block.Always Q g path F)
    (hrun : execBlock g block path F = some F') : block.PoolAlways P g path f := by
  induction block generalizing path f F F' with
  | last stmts =>
      obtain ⟨⟨flow, F₁⟩, hstmts, -⟩ := Option.map_eq_some_iff.mp hrun
      exact poolAlwaysStmts_of_always hlifts hf hF hintact hQ hstmts
  | loop stmts call dep iter body ih =>
      rw [execBlock] at hrun
      obtain ⟨⟨flow, F₁⟩, hexec, hrun⟩ := Option.bind_eq_some_iff.mp hrun
      obtain ⟨f₁, hpool, hfollows⟩ := poolStmts_spec hf hF hintact.1 hexec
      refine ⟨poolAlwaysStmts_of_always hlifts hf hF hintact.1 hQ.1 hexec, fun r hr hflow x hx i hi fi hreach => ?_⟩
      obtain rfl := Option.some.inj (hpool.symm.trans hr)
      obtain rfl : flow = .next := hflow
      obtain ⟨s, hs, hloop⟩ := Option.bind_eq_some_iff.mp hrun
      have hshown : (f₁.vars.lookup (.set iter)).map (f₁.pool.contents g) = some s := by
        rw [← hs, hfollows.shows.env]
        rfl
      rw [Option.mem_def.mp hx, Option.map_some, Option.some.injEq] at hshown
      have hsize : x.size = s.size := by rw [hfollows.sound.sizes _ (mem_of_shows hx), hshown]
      rw [hsize] at hi
      obtain ⟨Fi, Fi', -, hreachF, hround, -⟩ := Loop.foldlM_range_split hi hloop
      -- the rounds before this one go as they go over values
      have hrounds : ∀ k < i, ∀ Fk Fk' fk,
          (List.range k).foldlM (execRound g body path dep) F₁ = some Fk →
          f₁.Follows g capacity base Fk fk → execRound g body path dep Fk k = some Fk' →
          ∃ fk', poolRound g body path dep fk k = some fk' ∧ f₁.Follows g capacity base Fk' fk' :=
        fun k hk Fk _ _ hreachk hfk hexeck =>
          poolRound_spec (fun hf hF hintact hrun => poolBlock_spec hf hF hintact hrun) hfk
            (hintact.2 _ hexec rfl s hs k (hk.trans hi) Fk hreachk) hexeck
      obtain ⟨fi', hreach', hfollowsi⟩ := Loop.foldlM_range_follows
        (fun F' f' => f₁.Follows g capacity base F' f') hrounds (.refl hfollows.sound hfollows.shows) hreachF
      obtain rfl := Option.some.inj (hreach.symm.trans hreach')
      obtain ⟨Finner, hinner, -⟩ := Option.bind_eq_some_iff.mp hround
      exact ih (hfollowsi.sound.declareIdx dep i) (hfollowsi.shows.declareIdx dep i)
        (hintact.2 _ hexec rfl s hs i hi Fi hreachF) (hQ.2 _ hexec rfl s hs i hi Fi hreachF) hinner

/-- The iterations of a thread. -/
theorem OmpProgram.poolAlways_of_always {prog : OmpProgram} {vs : List ℕ} {amount : ℕ → ℤ}
    (hintact : ∀ v ∈ vs, prog.body.Always (Intact capacity) g [v] (Frame.start M v))
    (hQ : ∀ v ∈ vs, prog.body.Always Q g [v] (Frame.start M v))
    (hexec : ∀ v ∈ vs, execVertex M g prog.body v = some (amount v)) : prog.PoolAlways P g vs := by
  rintro before v after rfl f hreach
  have hmem : ∀ w ∈ before, w ∈ before ++ v :: after := fun w hw => List.mem_append_left _ hw
  have hv : v ∈ before ++ v :: after := by simp
  obtain ⟨f', hreach', hidle, -⟩ := poolVertices_spec (PoolFrame.idle_start (M := M) (g := g))
    (fun w hw => hintact w (hmem w hw)) fun w hw => hexec w (hmem w hw)
  obtain rfl := Option.some.inj (hreach.symm.trans hreach')
  obtain ⟨F, hbody, -⟩ := Option.bind_eq_some_iff.mp (hexec v hv)
  exact Block.poolAlways_of_always hlifts (hidle.sound.enter v) (PoolFrame.shows_enter hidle.vars v)
    (hintact v hv) (hQ v hv) hbody

/-- All threads. -/
theorem exists_intactRun_always {prog : OmpProgram} {threads : ℕ} {share : Fin threads → List ℕ}
    (hshare : SharesOut share g.numVertex)
    (hexec : ∀ v < g.numVertex, ∃ F, execBlock g prog.body [v] (Frame.start M v) = some F)
    (hlasting : prog.Always (Lasting (M := M)) g) (hroom : prog.Always (WithinBuffers (M := M) g) g)
    (hQ : prog.Always Q g) :
    ∃ f, IntactRun M g prog share f ∧ ∀ thread, prog.PoolAlways P g (share thread) := by
  have hamount : ∀ v < g.numVertex,
      execVertex M g prog.body v = some ((execVertex M g prog.body v).getD 0) := by
    intro v hv
    obtain ⟨F, hF⟩ := hexec v hv
    have hrun : execVertex M g prog.body v = some F.counter := by
      rw [execVertex]
      exact Option.bind_eq_some_iff.mpr ⟨F, hF, rfl⟩
    rw [hrun, Option.getD_some]
  obtain ⟨f, hrun⟩ := (exists_intactRun_iff hshare hamount).mpr ⟨hlasting, hroom⟩
  refine ⟨f, hrun, fun thread => ?_⟩
  have hlt : ∀ v ∈ share thread, v < g.numVertex := fun v hv => hshare.mem.mp ⟨thread, hv⟩
  exact OmpProgram.poolAlways_of_always hlifts
    (fun v hv => always_intact_iff.mpr ⟨hlasting v (hlt v hv), hroom v (hlt v hv)⟩)
    (fun v hv => hQ v (hlt v hv)) fun v hv => hamount v (hlt v hv)

end

end GraphMini
