import GraphMini.Exec.PoolEval

/-!
# What a statement does to the pool

As long as no set is declared as a view of a temporary, a statement over objects does what it does over
values: afterwards every set in scope has its buffer to itself, and the sets that were in scope before
hold what they held, as do the copies that mini-graphs keep of them.
-/

namespace GraphMini

open Borrowing

variable {M : MgMachine} {g : Graph} {path : List ℕ}

/-- The statement declares a set as a view of a temporary. -/
def Stmt.declaresView (env : Env) : Stmt → Bool
  | .declSet _ value => value.viewsTemporary env
  | _ => false

/-- No set is declared as a view of a buffer that is free when its statement is over. -/
def Lasting : StmtPred M := fun _ f stmt => stmt.declaresView f.env = false

instance (path : List ℕ) (f : Frame M) (stmt : Stmt) : Decidable (Lasting path f stmt) :=
  inferInstanceAs (Decidable (stmt.declaresView f.env = false))

/-- No operator writes beyond the end of the buffer that it fills. -/
def WithinBuffers (g : Graph) : StmtPred M := fun _ f stmt =>
  ∀ part ∈ stmt.parts, part.fills f.env = true → ∀ s ∈ evalSet f.env part, s.size ≤ g.workSpace

instance (path : List ℕ) (f : Frame M) (stmt : Stmt) : Decidable (WithinBuffers g path f stmt) :=
  inferInstanceAs (Decidable (∀ part ∈ stmt.parts, part.fills f.env = true →
    ∀ s ∈ evalSet f.env part, s.size ≤ g.workSpace))

/-- Both, for buffers of any length. -/
def Intact (capacity : ℕ∞) : StmtPred M := fun path f stmt =>
  Lasting path f stmt ∧ ∀ part ∈ stmt.parts, part.HasRoom capacity f.env

theorem intact_top {f : Frame M} {stmt : Stmt} : Intact ⊤ path f stmt ↔ Lasting path f stmt :=
  and_iff_left fun _ _ _ _ _ => le_top

theorem intact_workSpace {f : Frame M} {stmt : Stmt} :
    Intact g.workSpace path f stmt ↔ Lasting path f stmt ∧ WithinBuffers g path f stmt := by
  simp only [Intact, WithinBuffers, SetExpr.HasRoom, Nat.cast_le]

namespace PoolFrame

/-- The invariant of a run: the pool backs the variables in scope, and it did so at every point before,
and from one point to the next nothing changed in the sets that stayed in scope. -/
structure Sound (g : Graph) (f : PoolFrame M) : Prop where
  backs : f.pool.Backs (f.vars.map Prod.snd)
  sizes : ∀ x ∈ f.vars, x.2.size = (f.pool.contents g x.2).size
  current : f.points.head? = some f.toPoolPoint
  safe : ∀ p ∈ f.points, p.Safe
  chain : f.points.IsChain fun newer older => older.Keeps g newer

/-- The variables of the first frame are still in scope and hold what they held. -/
structure Extends (g : Graph) (f f' : PoolFrame M) : Prop where
  scope : f.vars <:+ f'.vars
  contents : ∀ x ∈ f.vars, f'.pool.contents g x.2 = f.pool.contents g x.2

variable {f f' f₁ f₂ : PoolFrame M} {objects temporaries : List SetObject}

theorem Extends.refl (f : PoolFrame M) : f.Extends g f := ⟨List.suffix_rfl, fun _ _ => rfl⟩

theorem Extends.trans (h : f.Extends g f₁) (h₁ : f₁.Extends g f₂) : f.Extends g f₂ where
  scope := h.scope.trans h₁.scope
  contents x hx := (h₁.contents x (h.scope.subset hx)).trans (h.contents x hx)

theorem safe_of_backs {p : PoolPoint} (h : p.pool.Backs (p.vars.map Prod.snd)) : p.Safe := by
  intro x hx b hb
  refine h.safe (List.mem_map_of_mem hx) ?_
  cases hdata : x.2.data with
  | row v | entry ids => simp [hdata, DataPtr.toBuffer] at hb
  | buffer b' =>
      rw [hdata] at hb
      rw [Option.some.inj hb]

/-- The run comes to a point. -/
theorem Sound.reach (h : f.Sound g) (hpoints : f'.points = f.points)
    (hbacks : f'.pool.Backs (f'.vars.map Prod.snd))
    (hsizes : ∀ x ∈ f'.vars, x.2.size = (f'.pool.contents g x.2).size)
    (hkeeps : f.toPoolPoint.Keeps g f'.toPoolPoint) : f'.reach.Sound g where
  backs := hbacks
  sizes := hsizes
  current := rfl
  safe p hp := by
    rcases List.mem_cons.mp hp with rfl | hp
    · exact safe_of_backs hbacks
    · exact h.safe p (hpoints ▸ hp)
  chain := by
    rw [PoolFrame.reach, hpoints]
    cases hlist : f.points with
    | nil => simp [hlist] at *
    | cons p rest =>
        have hcurrent := h.current
        have hchain := h.chain
        rw [hlist] at hcurrent hchain
        obtain rfl : p = f.toPoolPoint := by simpa using hcurrent
        exact hchain.cons_cons hkeeps

/-! ### The ends of statements and scopes -/

@[simp] theorem endStatement_vars (f : PoolFrame M) (l : List SetObject) : (f.endStatement l).vars = f.vars := by
  induction l generalizing f with
  | nil => rfl
  | cons s rest ih => exact ih _

theorem endStatement_rest (f : PoolFrame M) (l : List SetObject) : (f.endStatement l).ids = f.ids ∧
    (f.endStatement l).state = f.state ∧ (f.endStatement l).kept = f.kept ∧
    (f.endStatement l).counter = f.counter := by
  induction l generalizing f with
  | nil => exact ⟨rfl, rfl, rfl, rfl⟩
  | cons s rest ih => exact ih _

@[simp] theorem within_endStatement (f : PoolFrame M) (l : List SetObject) (capacity : ℕ∞) :
    (f.endStatement l).pool.Within capacity ↔ f.pool.Within capacity := by
  induction l generalizing f with
  | nil => rfl
  | cons s rest ih => exact (ih _).trans (VertexSetPool.within_destroy _ _ _)

@[simp] theorem contents_endStatement (f : PoolFrame M) (l : List SetObject) (x : SetObject) :
    (f.endStatement l).pool.contents g x = f.pool.contents g x := by
  induction l generalizing f with
  | nil => rfl
  | cons s rest ih =>
      rw [endStatement, ih]
      exact VertexSetPool.contents_destroy _ _ _

/-- The end of a statement destroys its temporaries, into which no variable points. -/
theorem Sound.endStatement (young : List SetObject) (h : f.Sound g) (hvars : f.vars.map Prod.snd = young ++ objects)
    (hbacks : f.pool.Backs (young ++ (temporaries ++ objects)))
    (hyoung : ∀ x ∈ young, x.RestsOn objects) : (f.endStatement temporaries).Sound g := by
  induction temporaries generalizing f with
  | nil => exact h
  | cons s rest ih =>
      rw [PoolFrame.endStatement]
      have hdrop : (f.pool.destroy s).Backs (young ++ (rest ++ objects)) := by
        rw [List.cons_append] at hbacks
        exact VertexSetPool.Backs.drop young hbacks fun x hx => (hyoung x hx).append rest
      have hnext : ({ f with pool := f.pool.destroy s } : PoolFrame M).reach.Sound g := by
        refine h.reach ?_ ?_ ?_ ?_
        · rfl
        · simp only [hvars]
          exact VertexSetPool.Backs.forgetAll young hdrop hyoung
        · simpa using h.sizes
        · exact fun x _ _ => VertexSetPool.contents_destroy _ _ _
      exact ih hnext hvars hdrop

@[simp] theorem endScope_vars (f : PoolFrame M) (n : ℕ) : (f.endScope n).vars = f.vars.drop n := by
  induction n generalizing f with
  | zero => rfl
  | succ n ih =>
      rw [endScope]
      cases hvars : f.vars with
      | nil => simpa using hvars
      | cons x rest => simp only [ih, reach, List.drop_succ_cons]

@[simp] theorem endScope_counter (f : PoolFrame M) (n : ℕ) : (f.endScope n).counter = f.counter := by
  induction n generalizing f with
  | zero => rfl
  | succ n ih =>
      rw [endScope]
      cases hvars : f.vars with
      | nil => rfl
      | cons x rest => simp only [ih, reach]

@[simp] theorem within_endScope (f : PoolFrame M) (n : ℕ) (capacity : ℕ∞) :
    (f.endScope n).pool.Within capacity ↔ f.pool.Within capacity := by
  induction n generalizing f with
  | zero => rfl
  | succ n ih =>
      rw [endScope]
      cases hvars : f.vars with
      | nil => rfl
      | cons x rest => simp only [ih, reach, VertexSetPool.within_destroy]

@[simp] theorem contents_endScope (f : PoolFrame M) (n : ℕ) (s : SetObject) :
    (f.endScope n).pool.contents g s = f.pool.contents g s := by
  induction n generalizing f with
  | zero => rfl
  | succ n ih =>
      rw [endScope]
      cases hvars : f.vars with
      | nil => rfl
      | cons x rest => simp only [ih, reach, VertexSetPool.contents_destroy]

/-- The youngest variables go out of scope. -/
theorem Sound.endScope (h : f.Sound g) (n : ℕ) : (f.endScope n).Sound g := by
  induction n generalizing f with
  | zero => exact h
  | succ n ih =>
      rw [PoolFrame.endScope]
      cases hvars : f.vars with
      | nil => exact h
      | cons x rest =>
          have hbacks := h.backs
          have hsizes := h.sizes
          rw [hvars] at hbacks hsizes
          have hnext : ({ f with vars := rest, pool := f.pool.destroy x.2 } : PoolFrame M).reach.Sound g := by
            refine h.reach ?_ hbacks.pop ?_ ?_
            · rfl
            · simpa using fun v s hx => hsizes (v, s) (List.mem_cons_of_mem _ hx)
            · exact fun x _ _ => VertexSetPool.contents_destroy _ _ _
          exact ih hnext

/-- After a round of a loop the variables outside of it hold what they held. -/
theorem Sound.leave (h' : f'.Sound g) (hext : f.Extends g f') :
    (f.leave f').Sound g ∧ f.Extends g (f.leave f') ∧ (f.leave f').vars = f.vars := by
  have hvars : (f.leave f').vars = f.vars := by
    obtain ⟨new, hnew⟩ := hext.scope
    simp [PoolFrame.leave, ← hnew]
  refine ⟨?_, ⟨hvars ▸ List.suffix_rfl, fun x hx => ?_⟩, hvars⟩
  · have hend := h'.endScope (f'.vars.length - f.vars.length)
    exact ⟨hend.backs, hend.sizes, hend.current, hend.safe, hend.chain⟩
  · exact (contents_endScope _ _ _).trans (hext.contents x hx)

/-! ### What the variables show -/

/-- The same variables with the same contents show the same. -/
theorem shows_congr (hids : f'.ids = f.ids) (hvars : f'.vars = f.vars)
    (hcontents : ∀ x ∈ f.vars, f'.pool.contents g x.2 = f.pool.contents g x.2) :
    f'.shows g = f.shows g := by
  have hlookup : ∀ v, (f'.vars.lookup v).map (f'.pool.contents g)
      = (f.vars.lookup v).map (f.pool.contents g) := by
    intro v
    rw [hvars]
    cases hx : f.vars.lookup v with
    | none => rfl
    | some x => exact congrArg some (hcontents (v, x) (mem_of_shows hx))
  funext v
  cases v with
  | id dep | idx dep | mg id | mgIndices id setId => simp only [shows, hids]
  | adj dep | set id | mgAdj id => exact hlookup _

/-- A new variable on top of the same ones. -/
theorem shows_cons {v : Var} {s : SetObject} (hids : f'.ids = f.ids) (hvars : f'.vars = (v, s) :: f.vars)
    (hcontents : ∀ x ∈ f.vars, f'.pool.contents g x.2 = f.pool.contents g x.2) {value : v.Ty}
    (hvalue : f'.shows g v = some value) : f'.shows g = (f.shows g).set v value := by
  funext w
  by_cases hw : w = v
  · subst hw
    rw [hvalue, Env.set_self]
  · rw [Env.set_of_ne _ _ hw]
    have hrest : ({ f' with vars := f.vars } : PoolFrame M).shows g = f.shows g :=
      shows_congr hids rfl hcontents
    rw [← hrest]
    have hne : (w == v) = false := by simpa using hw
    cases w with
    | id dep | idx dep | mg id | mgIndices id setId => rfl
    | adj dep | set id | mgAdj id => simp only [shows, hvars, List.lookup_cons, hne]

/-- A new vertex or index, or a mini-graph or what has been looked up in it. -/
theorem shows_ids {v : Var} (hv : ∀ f : PoolFrame M, f.shows g v = f.ids v) {value : v.Ty}
    (hids : f'.ids = f.ids.set v value) (hpoint : f'.toPoolPoint = f.toPoolPoint) :
    f'.shows g = (f.shows g).set v value := by
  obtain ⟨point, ids, state, kept, counter, points⟩ := f'
  subst hpoint hids
  funext w
  by_cases hw : w = v
  · subst hw
    rw [hv, Env.set_self]
    exact Env.set_self _ _ _
  · rw [Env.set_of_ne _ _ hw]
    cases w with
    | id dep | idx dep | mg id | mgIndices id setId => exact Env.set_of_ne _ _ hw
    | adj dep | set id | mgAdj id => rfl

/-- Only the variables, the pool and the points matter. -/
theorem Sound.congr (h : f.Sound g) (hpoint : f'.toPoolPoint = f.toPoolPoint) (hpoints : f'.points = f.points) :
    f'.Sound g := by
  obtain ⟨point, ids, state, kept, counter, points⟩ := f'
  subst hpoint hpoints
  exact ⟨h.backs, h.sizes, h.current, h.safe, h.chain⟩

theorem evalMgIndex_shows (f : PoolFrame M) (mg : ℤ) (index : MgIndex) :
    evalMgIndex (f.shows g) mg index = evalMgIndex f.ids mg index := by
  cases index <;> rfl

/-! ### What the mini-graphs keep -/

/-- The mini-graphs keep copies of variables in scope, and these have not changed. -/
def Copies (g : Graph) (f : PoolFrame M) : Prop :=
  ∀ k ∈ f.kept, ∃ x ∈ f.vars, k.1 = x.2.copy ∧ f.pool.contents g x.2 = k.2

theorem Copies.keepsSets (h : f.Copies g) : f.KeepsSets g := by
  intro k hk
  obtain ⟨x, -, hcopy, hcontents⟩ := h k hk
  rw [hcopy, ← hcontents]
  rfl

theorem Copies.extends (h : f.Copies g) (hext : f.Extends g f') (hkept : f'.kept = f.kept) : f'.Copies g := by
  intro k hk
  obtain ⟨x, hx, hcopy, hcontents⟩ := h k (hkept ▸ hk)
  exact ⟨x, hext.scope.subset hx, hcopy, (hext.contents x hx).trans hcontents⟩

/-- The frame of a run over values at the same point, with the count of the iterations before. -/
structure Shows (g : Graph) (base : ℤ) (f : PoolFrame M) (F : Frame M) : Prop where
  env : F.env = f.shows g
  state : F.state = f.state
  counter : f.counter = base + F.counter
  copies : f.Copies g

theorem Shows.env_set {base : ℤ} {F : Frame M} (hF : f.Shows g base F) {v : Var}
    (hv : ∀ f : PoolFrame M, f.shows g v = f.ids v) {value : v.Ty} (hids : f'.ids = f.ids.set v value)
    (hpoint : f'.toPoolPoint = f.toPoolPoint) : F.env.set v value = f'.shows g := by
  rw [shows_ids hv hids hpoint, hF.env]

/-! ### Statements -/

theorem Sound.ready (h : f.Sound g) : ({ pool := f.pool } : PoolEval).Ready g f :=
  ⟨h.backs, fun _ _ => rfl, h.sizes⟩

section

variable (f : PoolFrame M) (v : Var) (s : SetObject) (e : PoolEval)

@[simp] theorem declare_vars : (f.declare v s e).vars = (v, s) :: f.vars := endStatement_vars _ _

@[simp] theorem declare_ids : (f.declare v s e).ids = f.ids := (endStatement_rest _ _).1

@[simp] theorem declare_state : (f.declare v s e).state = f.state := (endStatement_rest _ _).2.1

@[simp] theorem declare_kept : (f.declare v s e).kept = f.kept := (endStatement_rest _ _).2.2.1

@[simp] theorem declare_counter : (f.declare v s e).counter = f.counter := (endStatement_rest _ _).2.2.2

@[simp] theorem contents_declare (x : SetObject) :
    (f.declare v s e).pool.contents g x = e.pool.contents g x := contents_endStatement _ _ _

@[simp] theorem within_declare (capacity : ℕ∞) :
    (f.declare v s e).pool.Within capacity ↔ e.pool.Within capacity := within_endStatement _ _ _

end

/-- A set is declared that does not point into a temporary. -/
theorem Sound.declare (h : f.Sound g) {v : Var} {s : SetObject} {e : PoolEval}
    (hbacks : e.pool.Backs (s :: (e.temporaries ++ f.vars.map Prod.snd)))
    (hrests : s.RestsOn (f.vars.map Prod.snd)) (hsize : s.size = (e.pool.contents g s).size)
    (hkeeps : ∀ x ∈ f.vars, e.pool.contents g x.2 = f.pool.contents g x.2) {value : v.Ty}
    (hvalue : (f.declare v s e).shows g v = some value) :
    (f.declare v s e).Sound g ∧ f.Extends g (f.declare v s e) ∧
      (f.declare v s e).shows g = (f.shows g).set v value := by
  have hcontents : ∀ x ∈ f.vars, (f.declare v s e).pool.contents g x.2 = f.pool.contents g x.2 := by
    simpa using fun v s hx => hkeeps (v, s) hx
  refine ⟨?_, ⟨by simp, hcontents⟩, ?_⟩
  · have hyoung : ∀ x ∈ [s], x.RestsOn (f.vars.map Prod.snd) := by simpa using hrests
    have hnext : ({ f with vars := (v, s) :: f.vars, pool := e.pool } : PoolFrame M).reach.Sound g := by
      refine h.reach ?_ ?_ ?_ ?_
      · rfl
      · exact VertexSetPool.Backs.forgetAll [s] hbacks hyoung
      · intro x hx
        rcases List.mem_cons.mp hx with rfl | hx
        · exact hsize
        · exact (h.sizes x hx).trans (congrArg VertexSet.size (hkeeps x hx)).symm
      · exact fun x hx _ => hkeeps x hx
    exact hnext.endStatement [s] rfl hbacks hyoung
  · exact shows_cons (declare_ids _ _ _ _) (declare_vars _ _ _ _) hcontents hvalue

/-- A view that owns nothing and does not point into a buffer. -/
theorem Sound.declareOutside (h : f.Sound g) {v : Var} {s : SetObject} (hpooled : s.pooled = false)
    (hdata : ∀ b, s.data ≠ .buffer b) {denoted : VertexSet} (hcontents : f.pool.contents g s = denoted)
    (hsize : s.size = denoted.size) {value : v.Ty}
    (hvalue : (f.declare v s { pool := f.pool }).shows g v = some value) :
    (f.declare v s { pool := f.pool }).Sound g ∧ f.Extends g (f.declare v s { pool := f.pool }) ∧
      (f.declare v s { pool := f.pool }).shows g = (f.shows g).set v value := by
  have hrests : s.RestsOn (f.vars.map Prod.snd) := fun _ b hb => absurd hb (hdata b)
  exact h.declare (e := { pool := f.pool }) (h.backs.view hpooled hrests) hrests (hcontents ▸ hsize)
    (fun _ _ => rfl) hvalue

theorem count_rest (f : PoolFrame M) (n : ℤ) (e : PoolEval) : (f.count n e).ids = f.ids ∧
    (f.count n e).state = f.state ∧ (f.count n e).kept = f.kept ∧ (f.count n e).counter = f.counter + n :=
  endStatement_rest _ _

theorem Sound.count (h : f.Sound g) {e : PoolEval} (hready : e.Ready g f) (n : ℤ) :
    (f.count n e).Sound g ∧ f.Extends g (f.count n e) ∧ (f.count n e).shows g = f.shows g := by
  have hnext : ({ f with pool := e.pool, counter := f.counter + n } : PoolFrame M).reach.Sound g := by
    refine h.reach ?_ ?_ ?_ ?_
    · rfl
    · exact VertexSetPool.Backs.forgetAll [] hready.backs (by simp)
    · exact fun x hx => (h.sizes x hx).trans (congrArg VertexSet.size (hready.vars x hx)).symm
    · exact fun x hx _ => hready.vars x hx
  have hvars : (f.count n e).vars = f.vars := endStatement_vars _ _
  have hcontents : ∀ x ∈ f.vars, (f.count n e).pool.contents g x.2 = f.pool.contents g x.2 := fun x hx =>
    (contents_endStatement _ _ _).trans (hready.vars x hx)
  refine ⟨hnext.endStatement [] rfl hready.backs (by simp), ⟨hvars ▸ List.suffix_rfl, hcontents⟩, ?_⟩
  exact shows_congr (count_rest f n e).1 hvars hcontents

/-- What a count leaves: the frame of the run over values with the new counter. -/
theorem Shows.count {base : ℤ} {F : Frame M} (hF : f.Shows g base F) (h : f.Sound g) {e : PoolEval}
    (hready : e.Ready g f) (n : ℤ) : (f.count n e).Shows g base { F with counter := F.counter + n } := by
  obtain ⟨-, hext, hshows⟩ := h.count hready n
  obtain ⟨-, hstate, hkept, hcounter⟩ := count_rest f n e
  refine ⟨?_, hF.state.trans hstate.symm, ?_, hF.copies.extends hext hkept⟩
  · rw [hshows]
    exact hF.env
  · rw [hcounter, hF.counter, add_assoc]

end PoolFrame

open PoolFrame

section

variable {f : PoolFrame M} {F F' : Frame M} {flow : Flow} {stmt : Stmt} {stmts : List Stmt} {base : ℤ}
  {capacity : ℕ∞}

/-- The frame that a statement leaves at the point that a run over values comes to; it has filled `parts`. -/
structure PoolFrame.Steps (g : Graph) (base : ℤ) (f : PoolFrame M) (F F' : Frame M) (parts : List SetExpr)
    (f' : PoolFrame M) : Prop where
  sound : f'.Sound g
  keeps : f.Extends g f'
  shows : f'.Shows g base F'
  within : ∀ capacity, f'.pool.Within capacity ↔
    f.pool.Within capacity ∧ ∀ part ∈ parts, part.HasRoom capacity F.env

/-- The frame comes after another one in a run, at the point that a run over values comes to. -/
structure PoolFrame.Follows (g : Graph) (capacity : ℕ∞) (base : ℤ) (f : PoolFrame M) (F' : Frame M)
    (f' : PoolFrame M) : Prop where
  sound : f'.Sound g
  keeps : f.Extends g f'
  shows : f'.Shows g base F'
  within : f.pool.Within capacity → f'.pool.Within capacity

namespace PoolFrame

/-- Nothing is filled. -/
theorem Steps.of_within {f f' : PoolFrame M} (hsound : f'.Sound g) (hkeeps : f.Extends g f')
    (hshows : f'.Shows g base F') (hwithin : ∀ capacity, f'.pool.Within capacity ↔ f.pool.Within capacity) :
    f.Steps g base F F' [] f' := by
  refine ⟨hsound, hkeeps, hshows, fun capacity => ?_⟩
  rw [hwithin, and_iff_left fun _ hpart => absurd hpart List.not_mem_nil]

/-- Neither the pool nor the variables for sets change. -/
theorem Steps.of_same {f f' : PoolFrame M} (hf : f.Sound g) (hpoint : f'.toPoolPoint = f.toPoolPoint)
    (hpoints : f'.points = f.points) (hshows : f'.Shows g base F') : f.Steps g base F F' [] f' := by
  have hpool : f'.pool = f.pool := congrArg PoolPoint.pool hpoint
  have hvars : f'.vars = f.vars := congrArg PoolPoint.vars hpoint
  refine .of_within (hf.congr hpoint hpoints) ⟨hvars ▸ List.suffix_rfl, fun _ _ => ?_⟩ hshows fun _ => ?_
  · rw [hpool]
  · rw [hpool]

/-- A vertex is taken, or a lookup is declared. -/
theorem Steps.setIds {f : PoolFrame M} (hf : f.Sound g) (hF : f.Shows g base F) {v : Var}
    (hv : ∀ f : PoolFrame M, f.shows g v = f.ids v) (value : v.Ty) :
    f.Steps g base F (F.declare v value) [] { f with ids := f.ids.set v value } :=
  .of_same hf rfl rfl ⟨hF.env_set hv rfl rfl, hF.state, hF.counter, hF.copies⟩

theorem Shows.declare {f : PoolFrame M} (hF : f.Shows g base F) {v : Var} {s : SetObject} {e : PoolEval}
    {value : v.Ty} (hext : f.Extends g (f.declare v s e))
    (hshows : (f.declare v s e).shows g = (f.shows g).set v value) :
    (f.declare v s e).Shows g base (F.declare v value) := by
  refine ⟨?_, ?_, ?_, hF.copies.extends hext (declare_kept _ _ _ _)⟩
  · rw [hshows, ← hF.env]
    rfl
  · exact hF.state.trans (declare_state _ _ _ _).symm
  · exact (declare_counter _ _ _ _).trans hF.counter

/-- A view of a row or of an entry is declared. -/
theorem Steps.declareOutside {f : PoolFrame M} (hf : f.Sound g) (hF : f.Shows g base F) {v : Var} {s : SetObject}
    (hpooled : s.pooled = false) (hdata : ∀ b, s.data ≠ .buffer b) {denoted : VertexSet}
    (hcontents : f.pool.contents g s = denoted) (hsize : s.size = denoted.size) {value : v.Ty}
    (hvalue : (f.declare v s { pool := f.pool }).shows g v = some value) :
    f.Steps g base F (F.declare v value) [] (f.declare v s { pool := f.pool }) := by
  obtain ⟨hsound, hext, hshows⟩ := hf.declareOutside hpooled hdata hcontents hsize hvalue
  exact .of_within hsound hext (hF.declare hext hshows) (within_declare _ _ _ _)

/-- An amount is added that fills `parts`. -/
theorem Steps.count {f : PoolFrame M} (hf : f.Sound g) (hF : f.Shows g base F) {e : PoolEval}
    (hready : e.Ready g f) {parts : List SetExpr} (n : ℤ)
    (hwithin : ∀ capacity, e.pool.Within capacity ↔
      f.pool.Within capacity ∧ ∀ part ∈ parts, part.HasRoom capacity (f.shows g)) :
    f.Steps g base F { F with counter := F.counter + n } parts (f.count n e) := by
  obtain ⟨hsound, hext, -⟩ := hf.count hready n
  refine ⟨hsound, hext, hF.count hf hready n, fun capacity => ?_⟩
  rw [hF.env]
  exact (within_endStatement _ _ _).trans (hwithin capacity)

end PoolFrame

theorem poolStmt_declMgAdj {mg : ℤ} {index : MgIndex} (hf : f.Sound g) (hF : f.Shows g base F)
    (hrun : execStmt g path F (.declMgAdj mg index) = some (flow, F')) :
    ∃ f', poolStmt g path f (.declMgAdj mg index) = some (flow, f') ∧ f.Steps g base F F' [] f' := by
  simp only [execStmt, Option.bind_eq_bind, Option.bind_eq_some_iff, Option.pure_def, Option.some.injEq,
    Prod.mk.injEq] at hrun
  obtain ⟨_, hmg, idx, hidx, ⟨s, state⟩, hN, rfl, rfl⟩ := hrun
  rw [hF.env] at hmg
  rw [hF.env, evalMgIndex_shows] at hidx
  rw [hF.state] at hN
  have hkeeps : f.KeepsSets g := hF.copies.keepsSets
  have hmg' : f.ids (.mg mg) = some () := hmg
  have hcontents := VertexSetPool.contents_entryObject (g := g) f.pool s
  have hvalue : (({ f with state } : PoolFrame M).declare (.mgAdj mg) s.entryObject
      { pool := f.pool }).shows g (.mgAdj mg) = some s := by
    simp [shows, hcontents]
  have hread : ({ f with state } : PoolFrame M).Shows g base { F with state } :=
    ⟨hF.env, rfl, hF.counter, hF.copies⟩
  have hsame : ({ f with state } : PoolFrame M).Sound g := hf.congr rfl rfl
  have hsteps := Steps.declareOutside hsame hread rfl (by simp [VertexSet.entryObject]) hcontents rfl hvalue
  refine ⟨_, ?_, hsteps.sound, ⟨hsteps.keeps.scope, hsteps.keeps.contents⟩, hsteps.shows, hsteps.within⟩
  simp only [poolStmt, guard, if_pos hkeeps, hmg', hidx, hN, Option.bind_eq_bind, Option.bind_some,
    Option.pure_def]

/-- What the chain of a set fills has room, or the buffers are no longer within their length. -/
theorem poolStmt_declSet {id : ℤ} {value : SetExpr} (hf : f.Sound g) (hF : f.Shows g base F)
    (hlasting : value.viewsTemporary F.env = false)
    (hrun : execStmt g path F (.declSet id value) = some (flow, F')) :
    ∃ f', poolStmt g path f (.declSet id value) = some (flow, f') ∧ f.Steps g base F F' value.parts f' := by
  simp only [execStmt, Option.bind_eq_bind, Option.bind_eq_some_iff, Option.pure_def, Option.some.injEq,
    Prod.mk.injEq] at hrun
  obtain ⟨denoted, hdenoted, rfl, rfl⟩ := hrun
  rw [hF.env] at hdenoted hlasting
  obtain ⟨s, e, heval, hspec⟩ := evalPooled_spec value hf.ready hdenoted
  have hvalue : (f.declare (.set id) s e).shows g (.set id) = some denoted := by
    simp [shows, hspec.contents]
  obtain ⟨hsound, hext, hshows⟩ := hf.declare hspec.backs (hspec.lasting hlasting)
    (by rw [hspec.contents, hspec.size]) (fun x hx => hspec.keeps x.2 (List.mem_map_of_mem hx)) hvalue
  refine ⟨_, ?_, hsound, hext, hF.declare hext hshows, fun capacity => ?_⟩
  · simp only [poolStmt, heval, Option.bind_eq_bind, Option.bind_some, Option.pure_def]
  · rw [within_declare, hspec.within, hF.env]
    exact Iff.rfl

/-- The factors fill what their sets fill. -/
theorem poolStmt_countIep {val : ℤ} {factors : List CntExpr} (hf : f.Sound g) (hF : f.Shows g base F)
    (hrun : execStmt g path F (.countIep val factors) = some (flow, F')) :
    ∃ f', poolStmt g path f (.countIep val factors) = some (flow, f') ∧
      f.Steps g base F F' (factors.flatMap CntExpr.parts) f' := by
  simp only [execStmt, Option.bind_eq_bind, Option.bind_eq_some_iff, Option.pure_def, Option.some.injEq,
    Prod.mk.injEq] at hrun
  obtain ⟨ns, hns, rfl, rfl⟩ := hrun
  rw [hF.env] at hns
  obtain ⟨e, hcnts, hready, hwithin⟩ := cntsPooled_spec factors hf.ready hns
  refine ⟨_, ?_, Steps.count hf hF hready _ fun capacity => ?_⟩
  · simp only [poolStmt, hcnts, Option.bind_eq_bind, Option.bind_some, Option.pure_def]
  · rw [hwithin, List.forall_mem_flatMap]
    exact Iff.rfl

/-- The sizes that a multiplier is made from are those of sets in scope. -/
theorem poolStmt_setReuseMultiplier {mg : ℤ} {summands : List (List ℤ × ℕ)} (hf : f.Sound g)
    (hF : f.Shows g base F) (hrun : execStmt g path F (.setReuseMultiplier mg summands) = some (flow, F')) :
    poolStmt g path f (.setReuseMultiplier mg summands) = some (flow, f) ∧ f.Steps g base F F' [] f := by
  simp only [execStmt, Option.bind_eq_bind, Option.bind_eq_some_iff, Option.pure_def, Option.some.injEq,
    Prod.mk.injEq] at hrun
  obtain ⟨_, hmg, sizes, hsizes, rfl, rfl⟩ := hrun
  rw [hF.env] at hmg hsizes
  have hmg' : f.ids (.mg mg) = some () := hmg
  have hlookups : (summands.mapM fun (summand : List ℤ × ℕ) => summand.1.mapM fun id => f.shows g (.set id))
      = (summands.mapM fun (summand : List ℤ × ℕ) => summand.1.mapM fun id => f.vars.lookup (.set id)).map
        (List.map (List.map (f.pool.contents g))) := by
    rw [← Loop.mapM_map]
    refine congrArg (fun step => summands.mapM step) ?_
    funext summand
    exact Loop.mapM_map _ _
  rw [hlookups] at hsizes
  obtain ⟨sets, hsets, -⟩ := Option.map_eq_some_iff.mp hsizes
  refine ⟨?_, .of_same hf rfl rfl hF⟩
  simp only [poolStmt, hmg', hsets, Option.bind_eq_bind, Option.bind_some, Option.pure_def]

/-- The mini-graph keeps copies of two sets in scope. -/
theorem poolStmt_build {mg : ℤ} {parent : Option ℤ} {vset vint iter : ℤ} (hf : f.Sound g)
    (hF : f.Shows g base F) (hrun : execStmt g path F (.build mg parent vset vint iter) = some (flow, F')) :
    ∃ f', poolStmt g path f (.build mg parent vset vint iter) = some (flow, f') ∧ f.Steps g base F F' [] f' := by
  simp only [execStmt, Option.bind_eq_bind, Option.bind_eq_some_iff, Option.pure_def, Option.some.injEq,
    Prod.mk.injEq] at hrun
  obtain ⟨_, hmg, parents, hparents, vertex, hvertex, intersect, hintersect, iterated, hiter, state, hbuild,
    rfl, rfl⟩ := hrun
  rw [hF.env] at hmg hparents hvertex hintersect hiter
  rw [hF.state] at hbuild
  obtain ⟨x, hx, rfl⟩ := Option.map_eq_some_iff.mp hvertex
  obtain ⟨y, hy, rfl⟩ := Option.map_eq_some_iff.mp hintersect
  obtain ⟨z, hz, rfl⟩ := Option.map_eq_some_iff.mp hiter
  have hkeeps : f.KeepsSets g := hF.copies.keepsSets
  have hmg' : f.ids (.mg mg) = some () := hmg
  have hparents' : (parent.mapM fun p => f.ids (.mg p)) = some parents := hparents
  refine ⟨{ f with
      state
      kept := (x.copy, f.pool.contents g x) :: (y.copy, f.pool.contents g y) :: f.kept },
    ?_, .of_same hf rfl rfl ⟨hF.env, rfl, hF.counter, ?_⟩⟩
  · simp only [poolStmt, guard, if_pos hkeeps, hmg', hparents', hx, hy, hz, hbuild, Option.bind_eq_bind,
      Option.bind_some, Option.pure_def]
  · intro k hk
    rcases List.mem_cons.mp hk with rfl | hk
    · exact ⟨(.set vset, x), mem_of_shows hx, rfl, rfl⟩
    · rcases List.mem_cons.mp hk with rfl | hk
      · exact ⟨(.set vint, y), mem_of_shows hy, rfl, rfl⟩
      · exact hF.copies k hk

/-- A statement that goes through over values does the same over objects, if it declares no view of a
temporary. It keeps the buffers within their length if and only if what it fills has room. -/
theorem poolStmt_follows (hf : f.Sound g) (hF : f.Shows g base F) (hlasting : Lasting path F stmt)
    (hrun : execStmt g path F stmt = some (flow, F')) :
    ∃ f', poolStmt g path f stmt = some (flow, f') ∧ f.Steps g base F F' stmt.parts f' := by
  cases stmt with
  | declId dep iter =>
      simp only [execStmt, Option.bind_eq_bind, Option.bind_eq_some_iff, Option.pure_def,
        Option.some.injEq, Prod.mk.injEq] at hrun
      obtain ⟨s, hs, idx, hidx, id, hid, rfl, rfl⟩ := hrun
      rw [hF.env] at hs hidx
      obtain ⟨x, hx, rfl⟩ := Option.map_eq_some_iff.mp hs
      have hidx' : f.ids (.idx dep) = some idx := hidx
      refine ⟨_, ?_, .setIds hf hF (v := .id dep) (fun _ => rfl) id⟩
      simp only [poolStmt, hx, hidx', hid, Option.bind_eq_bind, Option.bind_some, Option.pure_def]
  | declAdj dep =>
      simp only [execStmt, Option.bind_eq_bind, Option.bind_eq_some_iff, Option.pure_def,
        Option.some.injEq, Prod.mk.injEq] at hrun
      obtain ⟨id, hid, rfl, rfl⟩ := hrun
      rw [hF.env] at hid
      have hid' : f.ids (.id dep) = some id := hid
      have hcontents := VertexSetPool.contents_rowObject (g := g) f.pool id
      have hvalue : (f.declare (.adj dep) (g.rowObject id) { pool := f.pool }).shows g (.adj dep)
          = some (g.N id) := by
        simp [shows, hcontents]
      refine ⟨_, ?_, .declareOutside hf hF rfl (by simp [Graph.rowObject]) hcontents rfl hvalue⟩
      simp only [poolStmt, hid', Option.bind_eq_bind, Option.bind_some, Option.pure_def]
  | declMgAdj mg index => exact poolStmt_declMgAdj hf hF hrun
  | declSet id value => exact poolStmt_declSet hf hF hlasting hrun
  | continueIfEmpty id =>
      simp only [execStmt, Option.bind_eq_bind, Option.bind_eq_some_iff, Option.pure_def,
        Option.some.injEq, Prod.mk.injEq] at hrun
      obtain ⟨s, hs, rfl, rfl⟩ := hrun
      rw [hF.env] at hs
      obtain ⟨x, hx, rfl⟩ := Option.map_eq_some_iff.mp hs
      refine ⟨f, ?_, .of_same hf rfl rfl hF⟩
      rw [← hf.sizes _ (mem_of_shows hx)]
      simp only [poolStmt, hx, Option.bind_eq_bind, Option.bind_some, Option.pure_def]
  | count amount =>
      simp only [execStmt, Option.bind_eq_bind, Option.bind_eq_some_iff, Option.pure_def,
        Option.some.injEq, Prod.mk.injEq] at hrun
      obtain ⟨n, hn, rfl, rfl⟩ := hrun
      rw [hF.env] at hn
      obtain ⟨e, hcnt, hready, hwithin⟩ := cntPooled_spec amount hf.ready hn
      refine ⟨f.count n e, ?_, .count hf hF hready n hwithin⟩
      simp only [poolStmt, hcnt, Option.bind_eq_bind, Option.bind_some, Option.pure_def]
  | countIep val factors => exact poolStmt_countIep hf hF hrun
  | declMg mg type bounded =>
      obtain ⟨rfl, rfl⟩ := Prod.mk.inj (Option.some.inj hrun)
      refine ⟨_, rfl, .of_same hf rfl rfl ⟨hF.env_set (fun _ => rfl) rfl rfl, ?_, hF.counter, hF.copies⟩⟩
      rw [hF.state]
  | setReuseMultiplier mg summands => exact ⟨f, poolStmt_setReuseMultiplier hf hF hrun⟩
  | build mg parent vset vint iter => exact poolStmt_build hf hF hrun
  | declIndices mg setId =>
      simp only [execStmt, Option.bind_eq_bind, Option.bind_eq_some_iff, Option.pure_def,
        Option.some.injEq, Prod.mk.injEq] at hrun
      obtain ⟨_, hmg, s, hs, indices, hindices, rfl, rfl⟩ := hrun
      rw [hF.env] at hmg hs
      rw [hF.state] at hindices
      obtain ⟨x, hx, rfl⟩ := Option.map_eq_some_iff.mp hs
      have hkeeps : f.KeepsSets g := hF.copies.keepsSets
      have hmg' : f.ids (.mg mg) = some () := hmg
      refine ⟨_, ?_, .setIds hf hF (v := .mgIndices mg setId) (fun _ => rfl) indices⟩
      simp only [poolStmt, guard, if_pos hkeeps, hmg', hx, hindices, Option.bind_eq_bind, Option.bind_some,
        Option.pure_def]

theorem poolStmt_spec (hf : f.Sound g) (hF : f.Shows g base F) (hintact : Intact capacity path F stmt)
    (hrun : execStmt g path F stmt = some (flow, F')) :
    ∃ f', poolStmt g path f stmt = some (flow, f') ∧ f.Follows g capacity base F' f' := by
  obtain ⟨f', hpool, hsteps⟩ := poolStmt_follows hf hF hintact.1 hrun
  exact ⟨f', hpool, hsteps.sound, hsteps.keeps, hsteps.shows, fun h => (hsteps.within capacity).mpr ⟨h, hintact.2⟩⟩

theorem PoolFrame.Follows.refl (hf : f.Sound g) (hF : f.Shows g base F) : f.Follows g capacity base F f :=
  ⟨hf, .refl f, hF, id⟩

theorem PoolFrame.Follows.trans {F₁ F₂ : Frame M} {f₁ f₂ : PoolFrame M} (h : f.Follows g capacity base F₁ f₁)
    (h' : f₁.Follows g capacity base F₂ f₂) : f.Follows g capacity base F₂ f₂ :=
  ⟨h'.sound, h.keeps.trans h'.keeps, h'.shows, fun hwithin => h'.within (h.within hwithin)⟩

theorem poolStmts_spec (hf : f.Sound g) (hF : f.Shows g base F)
    (hintact : AlwaysStmts (Intact capacity) g path stmts F) (hrun : execStmts g path stmts F = some (flow, F')) :
    ∃ f', poolStmts g path stmts f = some (flow, f') ∧ f.Follows g capacity base F' f' := by
  induction stmts generalizing f F with
  | nil =>
      obtain ⟨rfl, rfl⟩ := Prod.mk.inj (Option.some.inj hrun)
      exact ⟨f, rfl, .refl hf hF⟩
  | cons stmt rest ih =>
      obtain ⟨hfirst, hrest⟩ := hintact
      rw [execStmts] at hrun
      obtain ⟨⟨flow₁, F₁⟩, hstmt, hrun⟩ := Option.bind_eq_some_iff.mp hrun
      obtain ⟨f₁, hpool, hfollows⟩ := poolStmt_spec hf hF hfirst hstmt
      rw [poolStmts, hpool]
      cases flow₁ with
      | skip =>
          obtain ⟨rfl, rfl⟩ := Prod.mk.inj (Option.some.inj hrun)
          exact ⟨f₁, rfl, hfollows⟩
      | next =>
          obtain ⟨f', hpool', hfollows'⟩ := ih hfollows.sound hfollows.shows (hrest _ hstmt rfl) hrun
          exact ⟨f', hpool', hfollows.trans hfollows'⟩

/-! ### Loops -/

/-- One round of a loop. -/
def poolRound (g : Graph) (body : Block) (path : List ℕ) (dep : ℕ) (f : PoolFrame M) (i : ℕ) :
    Option (PoolFrame M) := do
  return f.leave (← poolBlock g body (path ++ [i]) (f.declareIdx dep i))

theorem PoolFrame.Sound.declareIdx (h : f.Sound g) (dep i : ℕ) : (f.declareIdx dep i).Sound g :=
  h.congr rfl rfl

theorem PoolFrame.Shows.declareIdx (h : f.Shows g base F) (dep i : ℕ) :
    (f.declareIdx dep i).Shows g base (F.declare (.idx dep) i) :=
  ⟨h.env_set (fun _ => rfl) rfl rfl, h.state, h.counter, h.copies⟩

/-- After a round the run over values and the run over objects have the variables outside of the loop. -/
theorem PoolFrame.Follows.leave {dep i : ℕ} {inner : PoolFrame M} {Finner : Frame M} (hF : f.Shows g base F)
    (h : (f.declareIdx dep i).Follows g capacity base Finner inner) :
    f.Follows g capacity base (F.leave Finner) (f.leave inner) := by
  have hinner : f.Extends g inner := ⟨h.keeps.scope, h.keeps.contents⟩
  obtain ⟨hsound, hext, hvars⟩ := h.sound.leave hinner
  have hids : (f.leave inner).ids = f.ids := rfl
  refine ⟨hsound, hext, ⟨?_, ?_, ?_, ?_⟩, fun hwithin => ?_⟩
  · rw [shows_congr hids hvars hext.contents]
    exact hF.env
  · have hdeclared : (fun mg => F.env.declared (.mg mg)) = fun mg => f.ids.declared (.mg mg) := by
      rw [hF.env]
      rfl
    rw [Frame.leave, h.shows.state, hdeclared]
    rfl
  · exact (endScope_counter _ _).trans h.shows.counter
  · exact hF.copies.extends hext rfl
  · exact (within_endScope _ _ _).mpr (h.within hwithin)

/-- A round follows the round over values if the body does. -/
theorem poolRound_spec {body : Block} {dep i : ℕ} {fi : PoolFrame M} {Fi Fi' : Frame M}
    (hbody : ∀ {path : List ℕ} {f : PoolFrame M} {F F' : Frame M}, f.Sound g → f.Shows g base F →
      body.Always (Intact capacity) g path F → execBlock g body path F = some F' →
      ∃ f', poolBlock g body path f = some f' ∧ f.Follows g capacity base F' f')
    (hfi : f.Follows g capacity base Fi fi)
    (hintact : body.Always (Intact capacity) g (path ++ [i]) (Fi.declare (.idx dep) i))
    (hexec : execRound g body path dep Fi i = some Fi') :
    ∃ fi', poolRound g body path dep fi i = some fi' ∧ f.Follows g capacity base Fi' fi' := by
  obtain ⟨Finner, hrun, hleave⟩ := Option.bind_eq_some_iff.mp hexec
  obtain rfl := Option.some.inj hleave
  obtain ⟨inner, hpool, hinner⟩ :=
    hbody (hfi.sound.declareIdx dep i) (hfi.shows.declareIdx dep i) hintact hrun
  refine ⟨fi.leave inner, ?_, hfi.trans (PoolFrame.Follows.leave hfi.shows hinner)⟩
  rw [poolRound, hpool]
  rfl

theorem poolBlock_spec {block : Block} (hf : f.Sound g) (hF : f.Shows g base F)
    (hintact : block.Always (Intact capacity) g path F) (hrun : execBlock g block path F = some F') :
    ∃ f', poolBlock g block path f = some f' ∧ f.Follows g capacity base F' f' := by
  induction block generalizing path f F F' with
  | last stmts =>
      rw [execBlock] at hrun
      obtain ⟨⟨flow, F₁⟩, hstmts, rfl⟩ := Option.map_eq_some_iff.mp hrun
      obtain ⟨f', hpool, hfollows⟩ := poolStmts_spec hf hF hintact hstmts
      refine ⟨f', ?_, hfollows⟩
      rw [poolBlock, hpool]
      rfl
  | loop stmts call dep iter body ih =>
      obtain ⟨hstmts, hrounds⟩ := hintact
      rw [execBlock] at hrun
      obtain ⟨⟨flow, F₁⟩, hexec, hrun⟩ := Option.bind_eq_some_iff.mp hrun
      obtain ⟨f₁, hpool, hfollows⟩ := poolStmts_spec hf hF hstmts hexec
      rw [poolBlock, hpool]
      cases flow with
      | skip =>
          obtain rfl := Option.some.inj hrun
          exact ⟨f₁, rfl, hfollows⟩
      | next =>
          obtain ⟨s, hs, hloop⟩ := Option.bind_eq_some_iff.mp hrun
          have hshown : f₁.shows g (.set iter) = some s := by rw [← hfollows.shows.env, hs]
          obtain ⟨x, hx, rfl⟩ := Option.map_eq_some_iff.mp hshown
          have hsize := hfollows.sound.sizes _ (mem_of_shows hx)
          have hround : ∀ i < (f₁.pool.contents g x).size, ∀ Fi Fi' fi,
              (List.range i).foldlM (execRound g body path dep) F₁ = some Fi →
              f₁.Follows g capacity base Fi fi → execRound g body path dep Fi i = some Fi' →
              ∃ fi', poolRound g body path dep fi i = some fi' ∧ f₁.Follows g capacity base Fi' fi' :=
            fun i hi Fi _ _ hreach hfi hexec' =>
              poolRound_spec (fun hf hF hintact hrun => ih hf hF hintact hrun) hfi
                (hrounds _ hexec rfl _ hs i hi Fi hreach) hexec'
          obtain ⟨f', hpool', hfollows'⟩ := Loop.foldlM_range_follows
            (fun F' f' => f₁.Follows g capacity base F' f') hround (.refl hfollows.sound hfollows.shows) hloop
          refine ⟨f', ?_, hfollows.trans hfollows'⟩
          change ((f₁.vars.lookup (.set iter)).bind fun s =>
            (List.range s.size).foldlM (poolRound g body path dep) f₁) = some f'
          rw [hx, Option.bind_some, hsize]
          exact hpool'

/-! ### Threads -/

theorem PoolFrame.Sound.enter (h : f.Sound g) (v : ℕ) : (f.enter v).Sound g := h.congr rfl rfl

theorem PoolFrame.shows_enter (hvars : f.vars = []) (v : ℕ) :
    (f.enter v).Shows g f.counter (Frame.start M v) := by
  refine ⟨?_, rfl, (add_zero _).symm, by simp [Copies, enter]⟩
  have hnone : ∀ w : Var, w ≠ .id 0 → Env.empty.set (.id 0) v w = none :=
    fun w hw => Env.set_of_ne _ _ hw
  funext w
  rw [Frame.start_env]
  cases w with
  | id dep | idx dep | mg id | mgIndices id setId => rfl
  | adj dep | set id | mgAdj id =>
      rw [hnone _ (by simp)]
      simp only [shows, enter, hvars, List.lookup_nil, Option.map_none]

theorem PoolFrame.sound_start : (PoolFrame.start M).Sound g := by
  constructor
  · exact ⟨Apart.nil List.nodup_nil, by simp [PoolFrame.start, owned]⟩
  · simp [PoolFrame.start]
  · rfl
  · simp [PoolFrame.start, PoolPoint.Safe]
  · simp [PoolFrame.start]

theorem PoolFrame.within_start : (PoolFrame.start M).pool.Within capacity := by
  simp [PoolFrame.start, VertexSetPool.Within]

/-- What holds between two iterations: no set is in scope. -/
structure PoolFrame.Idle (g : Graph) (capacity : ℕ∞) (f : PoolFrame M) : Prop where
  sound : f.Sound g
  vars : f.vars = []
  within : f.pool.Within capacity

theorem PoolFrame.idle_start : (PoolFrame.start M).Idle g capacity := ⟨sound_start, rfl, within_start⟩

/-- One iteration of the outermost loop. -/
theorem poolVertex_spec {body : Block} {v : ℕ} {n : ℤ} (hf : f.Idle g capacity)
    (hintact : body.Always (Intact capacity) g [v] (Frame.start M v)) (hrun : execVertex M g body v = some n) :
    ∃ f', poolVertex g body f v = some f' ∧ f'.Idle g capacity ∧ f'.counter = f.counter + n := by
  rw [execVertex] at hrun
  obtain ⟨F, hbody, hcounter⟩ := Option.bind_eq_some_iff.mp hrun
  obtain rfl : F.counter = n := Option.some.inj hcounter
  obtain ⟨inner, hpool, hfollows⟩ := poolBlock_spec (hf.sound.enter v) (shows_enter hf.vars v) hintact hbody
  have hinner : (f.enter v).Extends g inner := ⟨hfollows.keeps.scope, hfollows.keeps.contents⟩
  obtain ⟨hsound, -, hleave⟩ := hfollows.sound.leave hinner
  refine ⟨(f.enter v).leave inner, ?_, ⟨hsound, hleave.trans hf.vars, ?_⟩, ?_⟩
  · rw [poolVertex, hpool]
    rfl
  · exact (within_endScope _ _ _).mpr (hfollows.within hf.within)
  · exact (endScope_counter _ _).trans hfollows.shows.counter

/-- The iterations of a thread, up to a point between two of them. -/
theorem poolVertices_spec {body : Block} {vs : List ℕ} {amount : ℕ → ℤ} (hf : f.Idle g capacity)
    (hintact : ∀ v ∈ vs, body.Always (Intact capacity) g [v] (Frame.start M v))
    (hrun : ∀ v ∈ vs, execVertex M g body v = some (amount v)) :
    ∃ f', vs.foldlM (poolVertex g body) f = some f' ∧ f'.Idle g capacity
      ∧ f'.counter = f.counter + (vs.map amount).sum :=
  Loop.foldlM_some (fun _ v hv hf => poolVertex_spec hf (hintact v hv) (hrun v hv)) hf

/-- The iterations of a thread. -/
theorem poolThread_spec {prog : OmpProgram} {vs : List ℕ} {amount : ℕ → ℤ}
    (hintact : ∀ v ∈ vs, prog.body.Always (Intact capacity) g [v] (Frame.start M v))
    (hrun : ∀ v ∈ vs, execVertex M g prog.body v = some (amount v)) :
    ∃ f, poolThread M g prog vs = some f ∧ f.Idle g capacity ∧ f.counter = (vs.map amount).sum := by
  obtain ⟨f, hthread, hidle, hcounter⟩ := poolVertices_spec idle_start hintact hrun
  exact ⟨f, hthread, hidle, hcounter.trans (zero_add _)⟩

end

end GraphMini
