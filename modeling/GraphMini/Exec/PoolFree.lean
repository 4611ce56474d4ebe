import GraphMini.Exec.PoolSteps

/-!
# Runs that come to a free buffer or write beyond one

A set that is declared as a view of a temporary points into a free buffer when its statement is over. So
a run that never has a set in scope in a free buffer declares no such set. What has been written beyond the
end of a buffer stays there, so a run that ends with no such write has filled nothing without room.
-/

namespace GraphMini

open Borrowing

variable {M : MgMachine}

namespace PoolFrame

variable {f f' f₁ : PoolFrame M} {capacity : ℕ∞}

/-- A run goes on from one frame to another: points and writes stay. -/
structure Reaches (f f' : PoolFrame M) : Prop where
  points : f.points ⊆ f'.points
  within : ∀ capacity, f'.pool.Within capacity → f.pool.Within capacity

/-- So far no set in scope has been in a free buffer, and nothing has been written beyond a buffer. -/
structure Clean (capacity : ℕ∞) (f : PoolFrame M) : Prop where
  safe : ∀ p ∈ f.points, p.Safe
  within : f.pool.Within capacity

theorem Reaches.refl (f : PoolFrame M) : f.Reaches f := ⟨List.Subset.refl _, fun _ h => h⟩

theorem Reaches.trans (h : f.Reaches f₁) (h₁ : f₁.Reaches f') : f.Reaches f' :=
  ⟨List.Subset.trans h.points h₁.points, fun capacity hwithin => h.within capacity (h₁.within capacity hwithin)⟩

theorem Reaches.clean (h : f.Reaches f') (hclean : f'.Clean capacity) : f.Clean capacity :=
  ⟨fun p hp => hclean.safe p (h.points hp), h.within capacity hclean.within⟩

theorem reaches_endStatement (f : PoolFrame M) (l : List SetObject) : f.Reaches (f.endStatement l) := by
  refine ⟨?_, fun capacity => (within_endStatement _ _ _).mp⟩
  induction l generalizing f with
  | nil => exact List.Subset.refl _
  | cons s rest ih => exact fun p hp => ih _ (List.mem_cons_of_mem _ hp)

theorem mem_endStatement_points (hf : f.toPoolPoint ∈ f.points) (l : List SetObject) :
    (f.endStatement l).toPoolPoint ∈ (f.endStatement l).points := by
  induction l generalizing f with
  | nil => exact hf
  | cons s rest ih => exact ih List.mem_cons_self

theorem reaches_endScope (f : PoolFrame M) (n : ℕ) : f.Reaches (f.endScope n) := by
  refine ⟨?_, fun capacity => (within_endScope _ _ _).mp⟩
  induction n generalizing f with
  | zero => exact List.Subset.refl _
  | succ n ih =>
      rw [endScope]
      cases f.vars with
      | nil => exact List.Subset.refl _
      | cons x rest => exact fun p hp => ih _ (List.mem_cons_of_mem _ hp)

theorem reaches_leave (f inner : PoolFrame M) : inner.Reaches (f.leave inner) :=
  ⟨(reaches_endScope inner _).points, (reaches_endScope inner _).within⟩

theorem reaches_declare (f : PoolFrame M) (v : Var) (s : SetObject) {e : PoolEval}
    (he : ∀ capacity, e.pool.Within capacity → f.pool.Within capacity) : f.Reaches (f.declare v s e) :=
  ⟨fun _ hp => (reaches_endStatement _ _).points (List.mem_cons_of_mem _ hp),
    fun capacity hwithin => he capacity ((within_declare _ _ _ _ _).mp hwithin)⟩

theorem reaches_count (f : PoolFrame M) (n : ℤ) {e : PoolEval}
    (he : ∀ capacity, e.pool.Within capacity → f.pool.Within capacity) : f.Reaches (f.count n e) :=
  ⟨fun _ hp => (reaches_endStatement _ _).points (List.mem_cons_of_mem _ hp),
    fun capacity hwithin => he capacity ((within_endStatement _ _ _).mp hwithin)⟩

end PoolFrame

open PoolFrame

/-! ### Writes stay -/

section

variable {g : Graph} {f : PoolFrame M} {e e' : PoolEval} {s : SetObject} {n : ℕ} {capacity : ℕ∞}

theorem within_of_remove {pool : VertexSetPool} {id : ℕ} (h : (pool.remove g s id).2.Within capacity) :
    pool.Within capacity := by
  rw [VertexSetPool.remove] at h
  split_ifs at h
  · exact (VertexSetPool.within_fill.mp h).1
  · exact h

theorem within_of_evalPooled {value : SetExpr} (heval : evalPooled g f value e = some (s, e'))
    (hwithin : e'.pool.Within capacity) : e.pool.Within capacity := by
  induction value generalizing e e' s with
  | set id | adj dep | mgAdj id =>
      simp only [evalPooled, Option.bind_eq_bind, Option.bind_eq_some_iff, Option.pure_def, Option.some.injEq,
        Prod.mk.injEq] at heval
      obtain ⟨_, -, -, rfl⟩ := heval
      exact hwithin
  | intersect left right upper ihl ihr | subtract left right upper ihl ihr =>
      simp only [evalPooled, Option.bind_eq_bind, Option.bind_eq_some_iff, Option.pure_def, Option.some.injEq,
        Prod.mk.injEq] at heval
      obtain ⟨⟨l, e₁⟩, hl, ⟨r, e₂⟩, hr, u, -, -, rfl⟩ := heval
      have hright : (e₁.push l).pool.Within capacity := ihr hr (VertexSetPool.within_fill.mp hwithin).1
      exact ihl hl hright
  | bounded left upper ih =>
      simp only [evalPooled, Option.bind_eq_bind, Option.bind_eq_some_iff, Option.pure_def, Option.some.injEq,
        Prod.mk.injEq] at heval
      obtain ⟨⟨l, e₁⟩, hl, u, -, -, rfl⟩ := heval
      exact ih hl hwithin
  | remove left id ih =>
      simp only [evalPooled, Option.bind_eq_bind, Option.bind_eq_some_iff, Option.pure_def, Option.some.injEq,
        Prod.mk.injEq] at heval
      obtain ⟨⟨l, e₁⟩, hl, x, -, -, rfl⟩ := heval
      exact ih hl (within_of_remove hwithin)

theorem within_of_cntPooled {amount : CntExpr} (hcnt : cntPooled g f amount e = some (n, e'))
    (hwithin : e'.pool.Within capacity) : e.pool.Within capacity := by
  cases amount with
  | size value =>
      simp only [cntPooled, Option.bind_eq_bind, Option.bind_eq_some_iff, Option.pure_def, Option.some.injEq,
        Prod.mk.injEq] at hcnt
      obtain ⟨⟨l, e₁⟩, hl, -, rfl⟩ := hcnt
      exact within_of_evalPooled hl hwithin
  | intersectCnt left right upper | subtractCnt left right upper =>
      simp only [cntPooled, Option.bind_eq_bind, Option.bind_eq_some_iff, Option.pure_def, Option.some.injEq,
        Prod.mk.injEq] at hcnt
      obtain ⟨⟨l, e₁⟩, hl, ⟨r, e₂⟩, hr, u, -, -, rfl⟩ := hcnt
      have hright : (e₁.push l).pool.Within capacity := within_of_evalPooled hr hwithin
      exact within_of_evalPooled hl hright
  | boundedCnt left upper | removeCnt left upper =>
      simp only [cntPooled, Option.bind_eq_bind, Option.bind_eq_some_iff, Option.pure_def, Option.some.injEq,
        Prod.mk.injEq] at hcnt
      obtain ⟨⟨l, e₁⟩, hl, u, -, -, rfl⟩ := hcnt
      exact within_of_evalPooled hl hwithin

theorem within_of_cntsPooled {factors : List CntExpr} {ns : List ℕ}
    (hcnts : cntsPooled g f factors e = some (ns, e')) (hwithin : e'.pool.Within capacity) :
    e.pool.Within capacity := by
  induction factors generalizing e ns with
  | nil =>
      obtain ⟨-, rfl⟩ := Prod.mk.inj (Option.some.inj hcnts)
      exact hwithin
  | cons factor rest ih =>
      simp only [cntsPooled, Option.bind_eq_bind, Option.bind_eq_some_iff, Option.pure_def, Option.some.injEq,
        Prod.mk.injEq] at hcnts
      obtain ⟨⟨n, e₁⟩, hn, ⟨ns, e₂⟩, hns, -, rfl⟩ := hcnts
      exact within_of_cntPooled hn (ih hns)

end

section

variable {g : Graph} {path : List ℕ} {f f' : PoolFrame M} {flow : Flow} {stmt : Stmt} {stmts : List Stmt}
  {block : Block} {capacity : ℕ∞}

theorem poolStmt_reaches (hrun : poolStmt g path f stmt = some (flow, f')) : f.Reaches f' := by
  cases stmt with
  | declId dep iter =>
      simp only [poolStmt, Option.bind_eq_bind, Option.bind_eq_some_iff, Option.pure_def, Option.some.injEq,
        Prod.mk.injEq] at hrun
      obtain ⟨_, -, _, -, _, -, -, rfl⟩ := hrun
      exact ⟨List.Subset.refl _, fun _ h => h⟩
  | declAdj dep =>
      simp only [poolStmt, Option.bind_eq_bind, Option.bind_eq_some_iff, Option.pure_def, Option.some.injEq,
        Prod.mk.injEq] at hrun
      obtain ⟨id, -, -, rfl⟩ := hrun
      exact reaches_declare _ _ _ fun _ h => h
  | declMgAdj mg index =>
      simp only [poolStmt, Option.bind_eq_bind, Option.bind_eq_some_iff, Option.pure_def, Option.some.injEq,
        Prod.mk.injEq] at hrun
      obtain ⟨_, -, _, -, idx, -, ⟨s, state⟩, -, -, rfl⟩ := hrun
      exact ⟨(reaches_declare ({ f with state } : PoolFrame M) _ _ fun _ h => h).points,
        (reaches_declare ({ f with state } : PoolFrame M) _ _ fun _ h => h).within⟩
  | declSet id value =>
      simp only [poolStmt, Option.bind_eq_bind, Option.bind_eq_some_iff, Option.pure_def, Option.some.injEq,
        Prod.mk.injEq] at hrun
      obtain ⟨⟨s, e⟩, heval, -, rfl⟩ := hrun
      exact reaches_declare _ _ _ fun _ h => within_of_evalPooled heval h
  | continueIfEmpty id =>
      simp only [poolStmt, Option.bind_eq_bind, Option.bind_eq_some_iff, Option.pure_def, Option.some.injEq,
        Prod.mk.injEq] at hrun
      obtain ⟨_, -, -, rfl⟩ := hrun
      exact .refl _
  | count amount =>
      simp only [poolStmt, Option.bind_eq_bind, Option.bind_eq_some_iff, Option.pure_def, Option.some.injEq,
        Prod.mk.injEq] at hrun
      obtain ⟨⟨n, e⟩, hcnt, -, rfl⟩ := hrun
      exact reaches_count _ _ fun _ h => within_of_cntPooled hcnt h
  | countIep val factors =>
      simp only [poolStmt, Option.bind_eq_bind, Option.bind_eq_some_iff, Option.pure_def, Option.some.injEq,
        Prod.mk.injEq] at hrun
      obtain ⟨⟨ns, e⟩, hcnts, -, rfl⟩ := hrun
      exact reaches_count _ _ fun _ h => within_of_cntsPooled hcnts h
  | declMg mg type bounded =>
      obtain ⟨-, rfl⟩ := Prod.mk.inj (Option.some.inj hrun)
      exact ⟨List.Subset.refl _, fun _ h => h⟩
  | setReuseMultiplier mg summands =>
      simp only [poolStmt, Option.bind_eq_bind, Option.bind_eq_some_iff, Option.pure_def, Option.some.injEq,
        Prod.mk.injEq] at hrun
      obtain ⟨_, -, _, -, -, rfl⟩ := hrun
      exact .refl _
  | build mg parent vset vint iter =>
      simp only [poolStmt, Option.bind_eq_bind, Option.bind_eq_some_iff, Option.pure_def, Option.some.injEq,
        Prod.mk.injEq] at hrun
      obtain ⟨_, -, _, -, _, -, x, -, y, -, z, -, state, -, -, rfl⟩ := hrun
      exact ⟨List.Subset.refl _, fun _ h => h⟩
  | declIndices mg setId =>
      simp only [poolStmt, Option.bind_eq_bind, Option.bind_eq_some_iff, Option.pure_def, Option.some.injEq,
        Prod.mk.injEq] at hrun
      obtain ⟨_, -, _, -, x, -, indices, -, -, rfl⟩ := hrun
      exact ⟨List.Subset.refl _, fun _ h => h⟩

theorem poolStmts_reaches (hrun : poolStmts g path stmts f = some (flow, f')) : f.Reaches f' := by
  induction stmts generalizing f with
  | nil =>
      obtain ⟨-, rfl⟩ := Prod.mk.inj (Option.some.inj hrun)
      exact .refl _
  | cons stmt rest ih =>
      rw [poolStmts] at hrun
      obtain ⟨⟨flow₁, f₁⟩, hstmt, hrun⟩ := Option.bind_eq_some_iff.mp hrun
      have hfirst := poolStmt_reaches hstmt
      cases flow₁ with
      | skip =>
          obtain ⟨-, rfl⟩ := Prod.mk.inj (Option.some.inj hrun)
          exact hfirst
      | next => exact hfirst.trans (ih hrun)

/-- Rounds go on if the body of the loop does. -/
theorem rounds_reach {body : Block} {dep : ℕ} {l : List ℕ}
    (hbody : ∀ (path : List ℕ) (f f' : PoolFrame M), poolBlock g body path f = some f' → f.Reaches f')
    (hrun : l.foldlM (poolRound g body path dep) f = some f') : f.Reaches f' := by
  have hround : ∀ (f₂ : PoolFrame M) (i : ℕ) (f₃ : PoolFrame M), f.Reaches f₂ →
      poolRound g body path dep f₂ i = some f₃ → f.Reaches f₃ := by
    intro f₂ i f₃ hreach hround
    obtain ⟨inner, hinner, hleave⟩ := Option.bind_eq_some_iff.mp hround
    obtain rfl := Option.some.inj hleave
    have hinner' := hbody _ _ _ hinner
    have hfrom : f₂.Reaches inner := ⟨hinner'.points, hinner'.within⟩
    exact hreach.trans (hfrom.trans (reaches_leave _ _))
  exact Loop.foldlM_keeps hround (.refl _) hrun

theorem poolBlock_reaches (hrun : poolBlock g block path f = some f') : f.Reaches f' := by
  induction block generalizing path f f' with
  | last stmts =>
      obtain ⟨⟨flow, f₁⟩, hstmts, rfl⟩ := Option.map_eq_some_iff.mp hrun
      exact poolStmts_reaches hstmts
  | loop stmts call dep iter body ih =>
      rw [poolBlock] at hrun
      obtain ⟨⟨flow, f₁⟩, hstmts, hrun⟩ := Option.bind_eq_some_iff.mp hrun
      have hfirst := poolStmts_reaches hstmts
      cases flow with
      | skip =>
          obtain rfl := Option.some.inj hrun
          exact hfirst
      | next =>
          obtain ⟨s, -, hloop⟩ := Option.bind_eq_some_iff.mp hrun
          exact hfirst.trans (rounds_reach (fun _ _ _ => ih) hloop)

theorem poolVertex_reaches {v : ℕ} (hrun : poolVertex g block f v = some f') : f.Reaches f' := by
  obtain ⟨inner, hinner, hleave⟩ := Option.bind_eq_some_iff.mp hrun
  obtain rfl := Option.some.inj hleave
  have hinner' := poolBlock_reaches hinner
  have hfrom : f.Reaches inner := ⟨hinner'.points, hinner'.within⟩
  exact hfrom.trans (reaches_leave _ _)

/-! ### A view of a temporary -/

/-- Whatever a temporary owns is free when the statement is over. -/
theorem mem_avail_endStatement {l : List SetObject} {b : ℕ}
    (hb : b ∈ owned (l.map SetObject.handle) ∨ b ∈ f.pool.bufferAvail) :
    b ∈ (f.endStatement l).pool.bufferAvail := by
  induction l generalizing f with
  | nil => exact hb.resolve_left List.not_mem_nil
  | cons s rest ih =>
      apply ih
      simp only [reach, VertexSetPool.destroy_eq, mem_release]
      rw [List.map_cons, mem_owned_cons] at hb
      tauto

variable {F F' : Frame M} {base : ℤ}

/-- The statement that declares a view of a temporary leaves it in a free buffer. -/
theorem poolStmt_free (hf : f.Sound g) (hF : f.Shows g base F) (hnot : ¬ Lasting path F stmt)
    (hexec : execStmt g path F stmt = some (flow, F')) :
    ∃ f', poolStmt g path f stmt = some (flow, f') ∧ ∃ p ∈ f'.points, ¬ p.Safe := by
  cases stmt with
  | declSet id value =>
      simp only [execStmt, Option.bind_eq_bind, Option.bind_eq_some_iff, Option.pure_def,
        Option.some.injEq, Prod.mk.injEq] at hexec
      obtain ⟨denoted, hdenoted, rfl, rfl⟩ := hexec
      rw [hF.env] at hdenoted
      have hviews : value.viewsTemporary (f.shows g) = true := by
        rw [← hF.env]
        exact Bool.eq_true_of_not_eq_false hnot
      obtain ⟨s, e, heval, hspec⟩ := evalPooled_spec value hf.ready hdenoted
      obtain ⟨b, hdata, hb⟩ := hspec.dangling hviews
      refine ⟨f.declare (.set id) s e, ?_, (f.declare (.set id) s e).toPoolPoint, ?_, fun hsafe => ?_⟩
      · simp only [poolStmt, heval, Option.bind_eq_bind, Option.bind_some, Option.pure_def]
      · exact mem_endStatement_points List.mem_cons_self _
      · refine hsafe (.set id, s) (by simp) b ?_ (mem_avail_endStatement (Or.inl hb))
        rw [hdata]
        rfl
  | _ => exact absurd rfl hnot

/-! ### Runs that stay clean -/

/-- A statement after which the run is clean declares no view of a temporary and fills what has room. -/
theorem intact_of_clean (hf : f.Sound g) (hF : f.Shows g base F) (hexec : execStmt g path F stmt = some (flow, F'))
    {flow' : Flow} (hpool : poolStmt g path f stmt = some (flow', f')) (hclean : f'.Clean capacity) :
    Intact capacity path F stmt := by
  have hlasting : Lasting path F stmt := by
    by_contra hnot
    obtain ⟨f₂, hpool₂, p, hp, hunsafe⟩ := poolStmt_free hf hF hnot hexec
    obtain ⟨-, rfl⟩ := Prod.mk.inj (Option.some.inj (hpool.symm.trans hpool₂))
    exact hunsafe (hclean.safe p hp)
  obtain ⟨f₂, hpool₂, hsteps⟩ := poolStmt_follows hf hF hlasting hexec
  obtain ⟨-, rfl⟩ := Prod.mk.inj (Option.some.inj (hpool.symm.trans hpool₂))
  exact ⟨hlasting, ((hsteps.within capacity).mp hclean.within).2⟩

theorem alwaysStmts_of_clean (hf : f.Sound g) (hF : f.Shows g base F)
    (hexec : execStmts g path stmts F = some (flow, F')) {flow' : Flow}
    (hrun : poolStmts g path stmts f = some (flow', f')) (hclean : f'.Clean capacity) :
    AlwaysStmts (Intact capacity) g path stmts F := by
  induction stmts generalizing f F with
  | nil => trivial
  | cons stmt rest ih =>
      rw [execStmts] at hexec
      obtain ⟨⟨flow₁, F₁⟩, hstmt, hexec⟩ := Option.bind_eq_some_iff.mp hexec
      rw [poolStmts] at hrun
      obtain ⟨⟨flow₁', f₁⟩, hpool, hrun⟩ := Option.bind_eq_some_iff.mp hrun
      have hreaches : f₁.Reaches f' := by
        cases flow₁' with
        | skip =>
            obtain ⟨-, rfl⟩ := Prod.mk.inj (Option.some.inj hrun)
            exact .refl _
        | next => exact poolStmts_reaches hrun
      have hintact : Intact capacity path F stmt := intact_of_clean hf hF hstmt hpool (hreaches.clean hclean)
      refine ⟨hintact, fun r hr hflow => ?_⟩
      obtain rfl := Option.some.inj (hstmt.symm.trans hr)
      obtain rfl : flow₁ = .next := hflow
      obtain ⟨f₂, hpool₂, hfollows⟩ := poolStmt_spec hf hF hintact hstmt
      obtain ⟨rfl, rfl⟩ := Prod.mk.inj (Option.some.inj (hpool.symm.trans hpool₂))
      exact ih hfollows.sound hfollows.shows hexec hrun

/-- A run that stays clean. -/
theorem always_of_clean (hf : f.Sound g) (hF : f.Shows g base F) (hexec : execBlock g block path F = some F')
    (hrun : poolBlock g block path f = some f') (hclean : f'.Clean capacity) :
    block.Always (Intact capacity) g path F := by
  induction block generalizing path f f' F F' with
  | last stmts =>
      obtain ⟨⟨flow, F₁⟩, hstmts, -⟩ := Option.map_eq_some_iff.mp hexec
      obtain ⟨⟨flow', f₁⟩, hpool, rfl⟩ := Option.map_eq_some_iff.mp hrun
      exact alwaysStmts_of_clean hf hF hstmts hpool hclean
  | loop stmts call dep iter body ih =>
      rw [execBlock] at hexec
      obtain ⟨⟨flow, F₁⟩, hstmts, hexec⟩ := Option.bind_eq_some_iff.mp hexec
      rw [poolBlock] at hrun
      obtain ⟨⟨flow', f₁⟩, hpool, hrun⟩ := Option.bind_eq_some_iff.mp hrun
      have hreaches : f₁.Reaches f' := by
        cases flow' with
        | skip =>
            obtain rfl := Option.some.inj hrun
            exact .refl _
        | next =>
            obtain ⟨s, -, hloop⟩ := Option.bind_eq_some_iff.mp hrun
            exact rounds_reach (fun _ _ _ => poolBlock_reaches) hloop
      have hfirst : AlwaysStmts (Intact capacity) g path stmts F :=
        alwaysStmts_of_clean hf hF hstmts hpool (hreaches.clean hclean)
      obtain ⟨f₂, hpool₂, hfollows⟩ := poolStmts_spec hf hF hfirst hstmts
      obtain ⟨rfl, rfl⟩ := Prod.mk.inj (Option.some.inj (hpool.symm.trans hpool₂))
      refine ⟨hfirst, fun r hr hflow s hs => ?_⟩
      obtain rfl := Option.some.inj (hstmts.symm.trans hr)
      obtain rfl : flow' = .next := hflow
      obtain ⟨s', hs', hexec⟩ := Option.bind_eq_some_iff.mp hexec
      obtain rfl : s = s' := Option.some.inj (hs.symm.trans hs')
      have hshown : f₁.shows g (.set iter) = some s := by rw [← hfollows.shows.env, hs']
      obtain ⟨x, hx, rfl⟩ := Option.map_eq_some_iff.mp hshown
      obtain ⟨x', hx', hloop⟩ := Option.bind_eq_some_iff.mp hrun
      obtain rfl : x = x' := Option.some.inj (hx.symm.trans hx')
      rw [hfollows.sound.sizes _ (mem_of_shows hx)] at hloop
      have hrounds : (List.range (f₁.pool.contents g x).size).foldlM (poolRound g body path dep) f₁ = some f' :=
        hloop
      have hexecRounds : (List.range (f₁.pool.contents g x).size).foldlM (execRound g body path dep) F₁
          = some F' := hexec
      intro i hi Fi (hreach : (List.range i).foldlM (execRound g body path dep) F₁ = some Fi)
      -- the rounds before this one go as they go over values
      induction i using Nat.strong_induction_on generalizing Fi with
      | _ i ihi =>
          obtain ⟨fi, fi', l, hbefore, hround, hafter⟩ := Loop.foldlM_range_split hi hrounds
          obtain ⟨Gi, Gi', -, hreach', hexecRound, -⟩ := Loop.foldlM_range_split hi hexecRounds
          obtain rfl := Option.some.inj (hreach.symm.trans hreach')
          obtain ⟨gi, hbefore', hfollowsi⟩ := Loop.foldlM_range_follows
            (fun F' f' => f₁.Follows g capacity base F' f')
            (fun k hk Fk _ _ hreachk hfk hexeck => poolRound_spec
              (fun hf hF hintact hrun => poolBlock_spec hf hF hintact hrun) hfk
              (ihi k hk (hk.trans hi) Fk hreachk) hexeck)
            (.refl hfollows.sound hfollows.shows) hreach
          obtain rfl := Option.some.inj (hbefore.symm.trans hbefore')
          obtain ⟨inner, hinner, hleave⟩ := Option.bind_eq_some_iff.mp hround
          obtain rfl := Option.some.inj hleave
          obtain ⟨Finner, hexecInner, -⟩ := Option.bind_eq_some_iff.mp hexecRound
          have hafter' : inner.Reaches f' :=
            (reaches_leave fi inner).trans (rounds_reach (fun _ _ _ => poolBlock_reaches) hafter)
          exact ih (hfollowsi.sound.declareIdx dep i) (hfollowsi.shows.declareIdx dep i) hexecInner hinner
            (hafter'.clean hclean)

/-- The iterations of a thread that stays clean. -/
theorem intact_of_clean_thread {prog : OmpProgram} {vs : List ℕ} {amount : ℕ → ℤ}
    (hexec : ∀ v ∈ vs, execVertex M g prog.body v = some (amount v)) (hf : f.Idle g capacity)
    (hrun : vs.foldlM (poolVertex g prog.body) f = some f') (hclean : f'.Clean capacity) :
    ∀ v ∈ vs, prog.body.Always (Intact capacity) g [v] (Frame.start M v) := by
  induction vs generalizing f with
  | nil => simp
  | cons v rest ih =>
      rw [List.foldlM_cons] at hrun
      obtain ⟨f₁, hvertex, hrest⟩ := Option.bind_eq_some_iff.mp hrun
      have hreaches : f₁.Reaches f' :=
        Loop.foldlM_keeps (fun _ _ _ hkept hnext => hkept.trans (poolVertex_reaches hnext)) (.refl _) hrest
      obtain ⟨inner, hinner, hleave⟩ := Option.bind_eq_some_iff.mp hvertex
      obtain ⟨F, hbody, -⟩ := Option.bind_eq_some_iff.mp (hexec v List.mem_cons_self)
      have hfirst : prog.body.Always (Intact capacity) g [v] (Frame.start M v) := by
        apply always_of_clean (hf.sound.enter v) (shows_enter hf.vars v) hbody hinner
        apply Reaches.clean _ hclean
        obtain rfl := Option.some.inj hleave
        exact (reaches_leave _ _).trans hreaches
      obtain ⟨f₂, hvertex₂, hidle, -⟩ := poolVertex_spec hf hfirst (hexec v List.mem_cons_self)
      obtain rfl := Option.some.inj (hvertex.symm.trans hvertex₂)
      intro w hw
      rcases List.mem_cons.mp hw with rfl | hw
      · exact hfirst
      · exact ih (fun v hv => hexec v (List.mem_cons_of_mem _ hv)) hidle hrest w hw

end

end GraphMini
