import GraphMini.Exec.PoolRun

/-!
# Evaluating a set with the pool

An expression of type `VertexSet` yields an object that holds what the expression denotes, and every
object that was there before holds what it held. The object has a buffer of its own if its outermost
operator fills one. If only an operator inside fills one, the object points into the buffer of a temporary.
No buffer is written beyond its end as long as no operator that fills one returns too large a set.
-/

namespace GraphMini

open Borrowing

namespace SetExpr

/-- The outermost operator fills a buffer. -/
def fills (env : Env) : SetExpr → Bool
  | .intersect _ _ _ => true
  | .subtract _ _ _ => true
  | .remove left id =>
      match evalSet env left, evalId env id with
      | some s, some x => s.removeFinds x
      | _, _ => false
  | _ => false

/-- The set is a view of a buffer that a temporary of its own expression owns. -/
def viewsTemporary (env : Env) : SetExpr → Bool
  | .bounded left _ => left.fills env || left.viewsTemporary env
  | .remove left id =>
      !(SetExpr.remove left id).fills env && (left.fills env || left.viewsTemporary env)
  | _ => false

/-- The expressions in an expression, itself included. -/
def parts : SetExpr → List SetExpr
  | .intersect left right upper => .intersect left right upper :: (left.parts ++ right.parts)
  | .subtract left right upper => .subtract left right upper :: (left.parts ++ right.parts)
  | .bounded left upper => .bounded left upper :: left.parts
  | .remove left id => .remove left id :: left.parts
  | value => [value]

/-- What an operator that fills a buffer returns has room in it. -/
def HasRoom (capacity : ℕ∞) (env : Env) (value : SetExpr) : Prop :=
  value.fills env = true → ∀ s ∈ evalSet env value, (s.size : ℕ∞) ≤ capacity

/-- All operators in the expression do so. -/
def Fits (capacity : ℕ∞) (env : Env) (value : SetExpr) : Prop := ∀ part ∈ value.parts, part.HasRoom capacity env

variable {capacity : ℕ∞} {env : Env} {value left right : SetExpr}

theorem hasRoom_iff {s : VertexSet} (hfills : value.fills env = true) (hvalue : evalSet env value = some s) :
    value.HasRoom capacity env ↔ (s.size : ℕ∞) ≤ capacity := by
  simp [HasRoom, hfills, hvalue]

theorem hasRoom_of_not_fills (hfills : value.fills env = false) : value.HasRoom capacity env := by
  simp [HasRoom, hfills]

theorem fits_intersect {upper : Option IdExpr} : (intersect left right upper).Fits capacity env ↔
    (left.Fits capacity env ∧ right.Fits capacity env) ∧ (intersect left right upper).HasRoom capacity env := by
  simp only [Fits, parts, List.forall_mem_cons, List.forall_mem_append, and_comm]

theorem fits_subtract {upper : Option IdExpr} : (subtract left right upper).Fits capacity env ↔
    (left.Fits capacity env ∧ right.Fits capacity env) ∧ (subtract left right upper).HasRoom capacity env := by
  simp only [Fits, parts, List.forall_mem_cons, List.forall_mem_append, and_comm]

theorem fits_bounded {upper : IdExpr} : (bounded left upper).Fits capacity env ↔ left.Fits capacity env := by
  simp only [Fits, parts, List.forall_mem_cons]
  exact and_iff_right (hasRoom_of_not_fills rfl)

theorem fits_remove {id : IdExpr} : (remove left id).Fits capacity env ↔
    left.Fits capacity env ∧ (remove left id).HasRoom capacity env := by
  simp only [Fits, parts, List.forall_mem_cons, and_comm]

end SetExpr

def CntExpr.parts : CntExpr → List SetExpr
  | .size s => s.parts
  | .intersectCnt left right _ => left.parts ++ right.parts
  | .subtractCnt left right _ => left.parts ++ right.parts
  | .boundedCnt left _ => left.parts
  | .removeCnt left _ => left.parts

def CntExpr.Fits (capacity : ℕ∞) (env : Env) (amount : CntExpr) : Prop :=
  ∀ part ∈ amount.parts, part.HasRoom capacity env

/-- The expressions of type `VertexSet` that a statement evaluates. -/
def Stmt.parts : Stmt → List SetExpr
  | .declSet _ value => value.parts
  | .count amount => amount.parts
  | .countIep _ factors => factors.flatMap CntExpr.parts
  | _ => []

/-- What the evaluation of an expression leaves, with the value that the expression denotes. -/
structure Evaluated {M : MgMachine} (g : Graph) (f : PoolFrame M) (value : SetExpr) (e e' : PoolEval) (s : SetObject)
    (denoted : VertexSet) : Prop where
  temporaries : e.temporaries ⊆ e'.temporaries
  backs : e'.pool.Backs (s :: (e'.temporaries ++ f.vars.map Prod.snd))
  contents : e'.pool.contents g s = denoted
  size : s.size = denoted.size
  keeps : ∀ x ∈ e.temporaries ++ f.vars.map Prod.snd, e'.pool.contents g x = e.pool.contents g x
  within : ∀ capacity, e'.pool.Within capacity ↔ e.pool.Within capacity ∧ value.Fits capacity (f.shows g)
  pooled : s.pooled = value.fills (f.shows g)
  buffer : s.pooled = true → ∃ b, s.data = .buffer b
  lasting : value.viewsTemporary (f.shows g) = false → s.RestsOn (f.vars.map Prod.snd)
  dangling : value.viewsTemporary (f.shows g) = true →
    ∃ b, s.data = .buffer b ∧ b ∈ owned (e'.temporaries.map SetObject.handle)

section

variable {M : MgMachine} {g : Graph} {f : PoolFrame M} {value left right : SetExpr} {e e₁ e₂ : PoolEval}
  {s l r : SetObject}
  {denoted : VertexSet}

/-- What an expression needs to be evaluated: the temporaries and the variables are backed, and the
variables hold what they held when the statement began. -/
structure PoolEval.Ready (g : Graph) (f : PoolFrame M) (e : PoolEval) : Prop where
  backs : e.pool.Backs (e.temporaries ++ f.vars.map Prod.snd)
  vars : ∀ x ∈ f.vars, e.pool.contents g x.2 = f.pool.contents g x.2
  sizes : ∀ x ∈ f.vars, x.2.size = (f.pool.contents g x.2).size

namespace Evaluated

/-- The operand of an operator is a temporary of it. -/
theorem ready_push (h : Evaluated g f value e e₁ s denoted) (hready : e.Ready g f) :
    (e₁.push s).Ready g f where
  backs := h.backs
  vars x hx := by
    have hmem : x.2 ∈ e.temporaries ++ f.vars.map Prod.snd :=
      List.mem_append_right _ (List.mem_map_of_mem hx)
    exact (h.keeps x.2 hmem).trans (hready.vars x hx)
  sizes := hready.sizes

theorem mem_push (h : Evaluated g f value e e₁ s denoted) {x : SetObject}
    (hx : x ∈ e.temporaries ++ f.vars.map Prod.snd) :
    x ∈ (e₁.push s).temporaries ++ f.vars.map Prod.snd := by
  rcases List.mem_append.mp hx with hx | hx
  · exact List.mem_append_left _ (List.mem_cons_of_mem _ (h.temporaries hx))
  · exact List.mem_append_right _ hx

end Evaluated

/-- An operator that fills a buffer. -/
theorem evaluated_fill (hready : e₂.Ready g f) (hfills : value.fills (f.shows g) = true)
    (hviews : value.viewsTemporary (f.shows g) = false)
    (hsub : e.temporaries ⊆ e₂.temporaries)
    (hkeeps : ∀ x ∈ e.temporaries ++ f.vars.map Prod.snd, e₂.pool.contents g x = e.pool.contents g x)
    {values : List ℕ} (hvalue : evalSet (f.shows g) value = some { data := values })
    (hwithin : ∀ capacity, e₂.pool.Within capacity ∧ value.HasRoom capacity (f.shows g) ↔
      e.pool.Within capacity ∧ value.Fits capacity (f.shows g)) :
    Evaluated g f value e { e₂ with pool := (e₂.pool.fill values).2 } (e₂.pool.fill values).1
      { data := values } where
  temporaries := hsub
  backs := (hready.backs.fill values).1
  contents := VertexSetPool.contents_fill _ _
  size := rfl
  keeps x hx := by
    have hmem : x ∈ e₂.temporaries ++ f.vars.map Prod.snd := by
      rcases List.mem_append.mp hx with hx | hx
      · exact List.mem_append_left _ (hsub hx)
      · exact List.mem_append_right _ hx
    rw [VertexSetPool.contents_fill_of_ne ((hready.backs.fill values).2 x hmem)]
    exact hkeeps x hx
  within capacity := by
    rw [VertexSetPool.within_fill, ← hwithin, SetExpr.hasRoom_iff hfills hvalue]
    rfl
  pooled := hfills.symm
  buffer _ := ⟨_, rfl⟩
  lasting _ hpooled := by simp [VertexSetPool.fill] at hpooled
  dangling h := by simp [hviews] at h

/-- An operator that returns a view of its operand. -/
theorem evaluated_view {denotedLeft : VertexSet} (hleft : Evaluated g f left e e₁ l denotedLeft)
    (hpooled : s.pooled = false) (hdata : s.data = l.data) (hfills : value.fills (f.shows g) = false)
    (hviews : value.viewsTemporary (f.shows g)
      = (left.fills (f.shows g) || left.viewsTemporary (f.shows g)))
    (hcontents : e₁.pool.contents g s = denoted) (hsize : s.size = denoted.size)
    (hfits : ∀ capacity, value.Fits capacity (f.shows g) ↔ left.Fits capacity (f.shows g)) :
    Evaluated g f value e (e₁.push l) s denoted where
  temporaries := List.subset_cons_of_subset _ hleft.temporaries
  backs := by
    apply hleft.backs.view hpooled
    intro _ b hb
    refine hleft.backs.apart.stacked.mem_owned (List.mem_map_of_mem List.mem_cons_self) ?_
    rw [SetObject.buffer_handle, ← hdata, hb]
  contents := hcontents
  size := hsize
  keeps := hleft.keeps
  within capacity := by
    rw [hfits]
    exact hleft.within capacity
  pooled := hpooled.trans hfills.symm
  buffer h := by simp [hpooled] at h
  lasting hlasting _ b hb := by
    rw [hviews, Bool.or_eq_false_iff] at hlasting
    exact hleft.lasting hlasting.2 (hleft.pooled.trans hlasting.1) b (hdata ▸ hb)
  dangling hdangling := by
    rw [hviews, Bool.or_eq_true] at hdangling
    simp only [PoolEval.push, List.map_cons, mem_owned_cons, hdata]
    rcases hdangling with hown | hdangling
    · have hl : l.pooled = true := hleft.pooled.trans hown
      obtain ⟨b, hb⟩ := hleft.buffer hl
      exact ⟨b, hb, Or.inl (SetObject.handle_eq_owns.mpr ⟨hl, hb⟩)⟩
    · obtain ⟨b, hb, hmem⟩ := hleft.dangling hdangling
      exact ⟨b, hb, Or.inr hmem⟩

theorem mem_of_shows {v : Var} {x : SetObject} (h : f.vars.lookup v = some x) : (v, x) ∈ f.vars := by
  obtain ⟨before, after, hvars, -⟩ := List.lookup_eq_some_iff.mp h
  simp [hvars]

/-- Reading a variable. -/
theorem evaluated_var (value : SetExpr) (hready : e.Ready g f) {v : Var}
    (hvar : (f.vars.lookup v).map (f.pool.contents g) = some denoted)
    (hparts : value.parts = [value]) (hfills : value.fills (f.shows g) = false)
    (hviews : value.viewsTemporary (f.shows g) = false) :
    ∃ s, readVar f v = some s ∧ Evaluated g f value e e s denoted := by
  obtain ⟨x, hx, rfl⟩ := Option.map_eq_some_iff.mp hvar
  have hmem : (v, x) ∈ f.vars := mem_of_shows hx
  have hrests : x.copy.RestsOn (f.vars.map Prod.snd) := by
    intro _ b hb
    have hstack := hready.backs.apart.stacked
    rw [List.map_append] at hstack
    refine hstack.of_append.mem_owned (List.mem_map_of_mem ?_) ((x.buffer_handle b).mpr hb)
    exact List.mem_map_of_mem hmem
  refine ⟨x.copy, by rw [readVar, hx]; rfl, ?_⟩
  constructor
  · exact List.Subset.refl _
  · exact hready.backs.view rfl (hrests.append _)
  · exact hready.vars _ hmem
  · exact hready.sizes _ hmem
  · exact fun y _ => rfl
  · intro capacity
    have hfits : value.Fits capacity (f.shows g) := by
      simpa [SetExpr.Fits, hparts] using SetExpr.hasRoom_of_not_fills hfills
    exact (and_iff_left hfits).symm
  · exact hfills.symm
  · simp [SetObject.copy]
  · exact fun _ => hrests
  · simp [hviews]

/-- Two operands, the left one first. -/
theorem evaluated_pair {dl dr : VertexSet} (hready : e.Ready g f) (hleft : Evaluated g f left e e₁ l dl)
    (hright : Evaluated g f right (e₁.push l) e₂ r dr) :
    (e₂.push r).Ready g f ∧ e₂.pool.contents g l = dl ∧ e.temporaries ⊆ (e₂.push r).temporaries ∧
      (∀ x ∈ e.temporaries ++ f.vars.map Prod.snd, e₂.pool.contents g x = e.pool.contents g x) ∧
      ∀ capacity, e₂.pool.Within capacity ↔ e.pool.Within capacity ∧
        (left.Fits capacity (f.shows g) ∧ right.Fits capacity (f.shows g)) := by
  refine ⟨hright.ready_push (hleft.ready_push hready), ?_, ?_, fun x hx => ?_, fun capacity => ?_⟩
  · rw [hright.keeps l (List.mem_append_left _ List.mem_cons_self)]
    exact hleft.contents
  · apply List.subset_cons_of_subset
    exact fun x hx => hright.temporaries (List.mem_cons_of_mem _ (hleft.temporaries hx))
  · rw [hright.keeps x (hleft.mem_push hx)]
    exact hleft.keeps x hx
  · rw [hright.within, PoolEval.push, hleft.within, and_assoc]

/-- An expression that denotes a set evaluates to an object that holds it. -/
theorem evalPooled_spec (value : SetExpr) (hready : e.Ready g f)
    (hvalue : evalSet (f.shows g) value = some denoted) :
    ∃ s e', evalPooled g f value e = some (s, e') ∧ Evaluated g f value e e' s denoted := by
  induction value generalizing e denoted with
  | set id =>
      obtain ⟨s, hs, heval⟩ := evaluated_var (.set id) hready hvalue rfl rfl rfl
      exact ⟨s, e, by rw [evalPooled, hs]; rfl, heval⟩
  | adj dep =>
      obtain ⟨s, hs, heval⟩ := evaluated_var (.adj dep) hready hvalue rfl rfl rfl
      exact ⟨s, e, by rw [evalPooled, hs]; rfl, heval⟩
  | mgAdj mg =>
      obtain ⟨s, hs, heval⟩ := evaluated_var (.mgAdj mg) hready hvalue rfl rfl rfl
      exact ⟨s, e, by rw [evalPooled, hs]; rfl, heval⟩
  | intersect left right upper ihl ihr =>
      simp only [evalSet, Option.bind_eq_bind, Option.bind_eq_some_iff, Option.pure_def,
        Option.some.injEq] at hvalue
      obtain ⟨dl, hdl, dr, hdr, u, hu, rfl⟩ := hvalue
      obtain ⟨l, e₁, hl, hleft⟩ := ihl hready hdl
      obtain ⟨r, e₂, hr, hright⟩ := ihr (hleft.ready_push hready) hdr
      obtain ⟨hready₂, hcl, hsub, hkeeps, hwithin⟩ := evaluated_pair hready hleft hright
      have hvalue : evalSet (f.shows g) (.intersect left right upper) = some { data := (dl.intersect dr u).data } := by
        simp only [evalSet, hdl, hdr, hu, Option.bind_eq_bind, Option.bind_some, Option.pure_def]
        rfl
      have hroom : ∀ capacity, (e₂.push r).pool.Within capacity
          ∧ (SetExpr.intersect left right upper).HasRoom capacity (f.shows g) ↔
          e.pool.Within capacity ∧ (SetExpr.intersect left right upper).Fits capacity (f.shows g) := by
        intro capacity
        rw [SetExpr.fits_intersect, ← and_assoc, ← hwithin]
        rfl
      refine ⟨_, _, ?_, evaluated_fill hready₂ rfl rfl hsub hkeeps hvalue hroom⟩
      simp only [evalPooled, hl, hr, hu, Option.bind_eq_bind, Option.bind_some, Option.pure_def,
        VertexSetPool.intersect, hcl, hright.contents]
      rfl
  | subtract left right upper ihl ihr =>
      simp only [evalSet, Option.bind_eq_bind, Option.bind_eq_some_iff, Option.pure_def,
        Option.some.injEq] at hvalue
      obtain ⟨dl, hdl, dr, hdr, u, hu, rfl⟩ := hvalue
      obtain ⟨l, e₁, hl, hleft⟩ := ihl hready hdl
      obtain ⟨r, e₂, hr, hright⟩ := ihr (hleft.ready_push hready) hdr
      obtain ⟨hready₂, hcl, hsub, hkeeps, hwithin⟩ := evaluated_pair hready hleft hright
      have hvalue : evalSet (f.shows g) (.subtract left right upper) = some { data := (dl.subtract dr u).data } := by
        simp only [evalSet, hdl, hdr, hu, Option.bind_eq_bind, Option.bind_some, Option.pure_def]
        rfl
      have hroom : ∀ capacity, (e₂.push r).pool.Within capacity
          ∧ (SetExpr.subtract left right upper).HasRoom capacity (f.shows g) ↔
          e.pool.Within capacity ∧ (SetExpr.subtract left right upper).Fits capacity (f.shows g) := by
        intro capacity
        rw [SetExpr.fits_subtract, ← and_assoc, ← hwithin]
        rfl
      refine ⟨_, _, ?_, evaluated_fill hready₂ rfl rfl hsub hkeeps hvalue hroom⟩
      simp only [evalPooled, hl, hr, hu, Option.bind_eq_bind, Option.bind_some, Option.pure_def,
        VertexSetPool.subtract, hcl, hright.contents]
      rfl
  | bounded left upper ih =>
      simp only [evalSet, Option.bind_eq_bind, Option.bind_eq_some_iff, Option.pure_def,
        Option.some.injEq] at hvalue
      obtain ⟨dl, hdl, u, hu, rfl⟩ := hvalue
      obtain ⟨l, e₁, hl, hleft⟩ := ih hready hdl
      refine ⟨(e₁.pool.bounded g l u).1, e₁.push l, ?_, ?_⟩
      · simp [evalPooled, hl, hu, VertexSetPool.bounded, PoolEval.push]
      · have hsize : l.size = (e₁.pool.contents g l).size := by rw [hleft.size, hleft.contents]
        obtain ⟨hcut, hcutSize⟩ := VertexSetPool.contents_bounded hsize u
        rw [hleft.contents] at hcut hcutSize
        exact evaluated_view hleft rfl rfl rfl rfl hcut hcutSize fun _ => SetExpr.fits_bounded
  | remove left id ih =>
      simp only [evalSet, Option.bind_eq_bind, Option.bind_eq_some_iff, Option.pure_def,
        Option.some.injEq] at hvalue
      obtain ⟨dl, hdl, x, hx, rfl⟩ := hvalue
      obtain ⟨l, e₁, hl, hleft⟩ := ih hready hdl
      have hfills : (SetExpr.remove left id).fills (f.shows g) = dl.removeFinds x := by
        simp only [SetExpr.fills, hdl, hx]
      cases hfinds : dl.removeFinds x with
      | true =>
          rw [hfinds] at hfills
          have hready₁ := hleft.ready_push hready
          have hviews : (SetExpr.remove left id).viewsTemporary (f.shows g) = false := by
            rw [SetExpr.viewsTemporary, hfills]
            rfl
          have hremove : dl.remove x = { data := (dl.remove x).data } := by
            rw [VertexSet.remove, if_pos hfinds]
          rw [hremove]
          have hvalue : evalSet (f.shows g) (.remove left id) = some { data := (dl.remove x).data } := by
            simp only [evalSet, hdl, hx, Option.bind_eq_bind, Option.bind_some, Option.pure_def, ← hremove]
          have hroom : ∀ capacity, (e₁.push l).pool.Within capacity
              ∧ (SetExpr.remove left id).HasRoom capacity (f.shows g) ↔
              e.pool.Within capacity ∧ (SetExpr.remove left id).Fits capacity (f.shows g) := by
            intro capacity
            rw [SetExpr.fits_remove, ← and_assoc, ← hleft.within]
            rfl
          refine ⟨_, _, ?_, evaluated_fill hready₁ hfills hviews
            (List.subset_cons_of_subset _ hleft.temporaries) hleft.keeps hvalue hroom⟩
          simp only [evalPooled, hl, hx, Option.bind_eq_bind, Option.bind_some, Option.pure_def,
            VertexSetPool.remove, hleft.contents, hfinds, if_true]
          rfl
      | false =>
          rw [hfinds] at hfills
          refine ⟨{ l with vid := invalidId, pooled := false }, e₁.push l, ?_, ?_⟩
          · simp only [evalPooled, hl, hx, Option.bind_eq_bind, Option.bind_some, Option.pure_def,
              VertexSetPool.remove, hleft.contents, hfinds, Bool.false_eq_true, if_false]
            rfl
          · refine evaluated_view hleft rfl rfl hfills ?_ ?_ ?_ fun _ => ?_
            · rw [SetExpr.viewsTemporary, hfills]
              rfl
            · rw [VertexSet.remove, if_neg (by simp [hfinds]), ← hleft.contents]
              rfl
            · rw [VertexSet.remove, if_neg (by simp [hfinds])]
              exact hleft.size
            · rw [SetExpr.fits_remove]
              exact and_iff_left (SetExpr.hasRoom_of_not_fills hfills)

/-- A count is the one of the sets that its operands denote. -/
theorem cntPooled_spec (amount : CntExpr) {n : ℕ} (hready : e.Ready g f)
    (hcnt : evalCnt (f.shows g) amount = some n) :
    ∃ e', cntPooled g f amount e = some (n, e') ∧ e'.Ready g f ∧
      ∀ capacity, e'.pool.Within capacity ↔ e.pool.Within capacity ∧ amount.Fits capacity (f.shows g) := by
  cases amount with
  | size value =>
      simp only [evalCnt, Option.bind_eq_bind, Option.bind_eq_some_iff, Option.pure_def,
        Option.some.injEq] at hcnt
      obtain ⟨d, hd, rfl⟩ := hcnt
      obtain ⟨s, e₁, hs, heval⟩ := evalPooled_spec value hready hd
      refine ⟨e₁.push s, ?_, heval.ready_push hready, heval.within⟩
      simp only [cntPooled, hs, Option.bind_eq_bind, Option.bind_some, Option.pure_def, heval.size]
  | intersectCnt left right upper | subtractCnt left right upper =>
      simp only [evalCnt, Option.bind_eq_bind, Option.bind_eq_some_iff, Option.pure_def,
        Option.some.injEq] at hcnt
      obtain ⟨dl, hdl, dr, hdr, u, hu, rfl⟩ := hcnt
      obtain ⟨l, e₁, hl, hleft⟩ := evalPooled_spec left hready hdl
      obtain ⟨r, e₂, hr, hright⟩ := evalPooled_spec right (hleft.ready_push hready) hdr
      obtain ⟨hready₂, hcl, -, -, hwithin⟩ := evaluated_pair hready hleft hright
      refine ⟨e₂.push r, ?_, hready₂, fun capacity => ?_⟩
      · simp only [cntPooled, hl, hr, hu, Option.bind_eq_bind, Option.bind_some, Option.pure_def, hcl,
          hright.contents]
      · rw [CntExpr.Fits, CntExpr.parts, List.forall_mem_append]
        exact hwithin capacity
  | boundedCnt left upper | removeCnt left upper =>
      simp only [evalCnt, Option.bind_eq_bind, Option.bind_eq_some_iff, Option.pure_def,
        Option.some.injEq] at hcnt
      obtain ⟨d, hd, x, hx, rfl⟩ := hcnt
      obtain ⟨l, e₁, hl, hleft⟩ := evalPooled_spec left hready hd
      refine ⟨e₁.push l, ?_, hleft.ready_push hready, hleft.within⟩
      simp only [cntPooled, hl, hx, Option.bind_eq_bind, Option.bind_some, Option.pure_def,
        hleft.contents]

/-- The factors of a product. -/
theorem cntsPooled_spec (factors : List CntExpr) {ns : List ℕ} (hready : e.Ready g f)
    (hcnts : factors.mapM (evalCnt (f.shows g)) = some ns) :
    ∃ e', cntsPooled g f factors e = some (ns, e') ∧ e'.Ready g f ∧
      ∀ capacity, e'.pool.Within capacity ↔
        e.pool.Within capacity ∧ ∀ factor ∈ factors, factor.Fits capacity (f.shows g) := by
  induction factors generalizing e ns with
  | nil =>
      obtain rfl : [] = ns := Option.some.inj hcnts
      exact ⟨e, rfl, hready, fun capacity => by simp⟩
  | cons factor rest ih =>
      simp only [List.mapM_cons, Option.bind_eq_bind, Option.bind_eq_some_iff, Option.pure_def,
        Option.some.injEq] at hcnts
      obtain ⟨n, hn, ns, hns, rfl⟩ := hcnts
      obtain ⟨e₁, hcnt, hready₁, hwithin₁⟩ := cntPooled_spec factor hready hn
      obtain ⟨e₂, hcnts, hready₂, hwithin₂⟩ := ih hready₁ hns
      refine ⟨e₂, ?_, hready₂, fun capacity => ?_⟩
      · simp only [cntsPooled, hcnt, hcnts, Option.bind_eq_bind, Option.bind_some, Option.pure_def]
      · rw [hwithin₂, hwithin₁, List.forall_mem_cons, and_assoc]

end

end GraphMini
