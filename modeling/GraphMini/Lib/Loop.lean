import Mathlib.Tactic

/-!
# Loops that accumulate

A loop is a monadic fold whose body may fail. The rule below is the one for a loop that keeps an
invariant and adds a known amount to an accumulator in every round: no round fails, and at the end
the amounts have been added up.
-/

namespace Loop

variable {σ α : Type*}

/-- A loop keeps what every round keeps, and adds what every round adds. -/
theorem foldlM_some {step : σ → α → Option σ} {Inv : σ → Prop} {total : σ → ℤ} {amount : α → ℤ}
    {l : List α}
    (hstep : ∀ s, ∀ a ∈ l, Inv s →
      ∃ s', step s a = some s' ∧ Inv s' ∧ total s' = total s + amount a)
    {s : σ} (hs : Inv s) :
    ∃ s', l.foldlM step s = some s' ∧ Inv s' ∧ total s' = total s + (l.map amount).sum := by
  induction l generalizing s with
  | nil => exact ⟨s, rfl, hs, by simp⟩
  | cons a l ih =>
      obtain ⟨s₁, hrun₁, hinv₁, htotal₁⟩ := hstep s a List.mem_cons_self hs
      obtain ⟨s₂, hrun₂, hinv₂, htotal₂⟩ :=
        ih (fun s a ha => hstep s a (List.mem_cons_of_mem _ ha)) hinv₁
      refine ⟨s₂, ?_, hinv₂, ?_⟩
      · rw [List.foldlM_cons, hrun₁]
        exact hrun₂
      · rw [htotal₂, htotal₁, List.map_cons, List.sum_cons, add_assoc]

/-- A loop fails if one of its rounds does. -/
theorem foldlM_eq_none {step : σ → α → Option σ} (Inv : σ → Prop) {l : List α} {a : α} (ha : a ∈ l)
    (hkeep : ∀ s b s', Inv s → step s b = some s' → Inv s') (hnone : ∀ s, Inv s → step s a = none)
    {s : σ} (hs : Inv s) : l.foldlM step s = none := by
  induction l generalizing s with
  | nil => simp at ha
  | cons b l ih =>
      rw [List.foldlM_cons]
      cases hb : step s b with
      | none => rfl
      | some s' =>
          rcases List.mem_cons.mp ha with rfl | ha
          · rw [hnone s hs] at hb
            simp at hb
          · exact ih ha (hkeep s b s' hs hb)

/-- What every round keeps holds at the end of a loop that goes through. -/
theorem foldlM_keeps {step : σ → α → Option σ} {P : σ → Prop}
    (hkeep : ∀ s a s', P s → step s a = some s' → P s') {l : List α} {s s' : σ} (hs : P s)
    (hrun : l.foldlM step s = some s') : P s' := by
  induction l generalizing s with
  | nil =>
      obtain rfl : s = s' := by simpa using hrun
      exact hs
  | cons a l ih =>
      rw [List.foldlM_cons] at hrun
      obtain ⟨s₁, hfirst, hrest⟩ := Option.bind_eq_some_iff.mp hrun
      exact ih (hkeep s a s₁ hs hfirst) hrest

/-- A counting loop: the invariant speaks about the number that comes next. -/
theorem foldlM_range' (Inv : ℕ → σ → Prop) {step : σ → ℕ → Option σ} {start count : ℕ}
    (hstep : ∀ s k, start ≤ k → k < start + count → Inv k s →
      ∃ s', step s k = some s' ∧ Inv (k + 1) s')
    {s : σ} (hs : Inv start s) :
    ∃ s', (List.range' start count).foldlM step s = some s' ∧ Inv (start + count) s' := by
  induction count generalizing start s with
  | zero => exact ⟨s, rfl, hs⟩
  | succ count ih =>
      obtain ⟨s₁, hrun₁, hinv₁⟩ := hstep s start le_rfl (by omega) hs
      obtain ⟨s₂, hrun₂, hinv₂⟩ :=
        ih (fun s k hlow hhigh => hstep s k (by omega) (by omega)) hinv₁
      refine ⟨s₂, ?_, by rwa [show start + (count + 1) = start + 1 + count by omega]⟩
      rw [List.range'_succ, List.foldlM_cons, hrun₁]
      exact hrun₂

theorem foldlM_range (Inv : ℕ → σ → Prop) {step : σ → ℕ → Option σ} {count : ℕ}
    (hstep : ∀ s, ∀ k < count, Inv k s → ∃ s', step s k = some s' ∧ Inv (k + 1) s')
    {s : σ} (hs : Inv 0 s) :
    ∃ s', (List.range count).foldlM step s = some s' ∧ Inv count s' := by
  rw [List.range_eq_range']
  simpa using foldlM_range' Inv (fun s k _ hk => hstep s k (by simpa using hk)) hs

/-- A loop that is over has passed through each of its rounds. -/
theorem foldlM_range_split {step : σ → ℕ → Option σ} {count k : ℕ} (hk : k < count) {s s' : σ}
    (hrun : (List.range count).foldlM step s = some s') :
    ∃ s₁ s₂, ∃ l : List ℕ, (List.range k).foldlM step s = some s₁ ∧ step s₁ k = some s₂ ∧
      l.foldlM step s₂ = some s' := by
  obtain ⟨rest, rfl⟩ : ∃ rest, count = k + 1 + rest := ⟨count - (k + 1), by omega⟩
  rw [List.range_add, List.range_succ, List.append_assoc, List.foldlM_append] at hrun
  obtain ⟨s₁, hbefore, hrun⟩ := Option.bind_eq_some_iff.mp hrun
  rw [List.singleton_append, List.foldlM_cons] at hrun
  obtain ⟨s₂, hround, hafter⟩ := Option.bind_eq_some_iff.mp hrun
  exact ⟨s₁, s₂, _, hbefore, hround, hafter⟩

/-- A loop that follows another one round by round. -/
theorem foldlM_range_follows {τ : Type*} (R : σ → τ → Prop) {step : σ → ℕ → Option σ} {step' : τ → ℕ → Option τ}
    {count : ℕ} {s₀ : σ} {t₀ : τ}
    (hstep : ∀ k < count, ∀ s s' t, (List.range k).foldlM step s₀ = some s → R s t →
      step s k = some s' → ∃ t', step' t k = some t' ∧ R s' t')
    (hstart : R s₀ t₀) {s : σ} (hrun : (List.range count).foldlM step s₀ = some s) :
    ∃ t, (List.range count).foldlM step' t₀ = some t ∧ R s t := by
  induction count generalizing s with
  | zero =>
      obtain rfl : s₀ = s := by simpa using hrun
      exact ⟨t₀, rfl, hstart⟩
  | succ k ih =>
      rw [List.range_succ, List.foldlM_append] at hrun
      obtain ⟨s₁, hrun₁, hlast⟩ := Option.bind_eq_some_iff.mp hrun
      obtain ⟨t₁, hrun₁', hR⟩ := ih (fun j hj => hstep j (hj.trans (Nat.lt_succ_self k))) hrun₁
      have hround : step s₁ k = some s := by simpa using hlast
      obtain ⟨t, hround', hR'⟩ := hstep k (Nat.lt_succ_self k) s₁ s t₁ hrun₁ hR hround
      refine ⟨t, ?_, hR'⟩
      rw [List.range_succ, List.foldlM_append, hrun₁']
      simpa using hround'

/-- The numbers that the loop leaves out keep the invariant as they are. -/
theorem foldlM_range_filter (Inv : ℕ → σ → Prop) {step : σ → ℕ → Option σ} {p : ℕ → Bool}
    {count : ℕ}
    (hstep : ∀ s, ∀ k < count, p k = true → Inv k s → ∃ s', step s k = some s' ∧ Inv (k + 1) s')
    (hskip : ∀ s, ∀ k < count, p k = false → Inv k s → Inv (k + 1) s)
    {s : σ} (hs : Inv 0 s) :
    ∃ s', ((List.range count).filter p).foldlM step s = some s' ∧ Inv count s' := by
  induction count with
  | zero => exact ⟨s, rfl, hs⟩
  | succ count ih =>
      obtain ⟨s₁, hrun₁, hinv₁⟩ := ih (fun s k hk => hstep s k (by omega))
        (fun s k hk => hskip s k (by omega))
      rw [List.range_succ, List.filter_append, List.foldlM_append, hrun₁]
      cases hp : p count with
      | true =>
          obtain ⟨s₂, hrun₂, hinv₂⟩ := hstep s₁ count (by omega) hp hinv₁
          exact ⟨s₂, by simp [hp, hrun₂], hinv₂⟩
      | false => exact ⟨s₁, by simp [hp], hskip s₁ count (by omega) hp hinv₁⟩

/-- A map whose calls all succeed returns their results. -/
theorem mapM_some {β : Type*} {f : α → Option β} {h : α → β} {l : List α}
    (hf : ∀ a ∈ l, f a = some (h a)) : l.mapM f = some (l.map h) := by
  induction l with
  | nil => rfl
  | cons a l ih =>
      rw [List.mapM_cons, hf a List.mem_cons_self,
        ih (fun b hb => hf b (List.mem_cons_of_mem _ hb))]
      rfl

/-- A filter whose calls all succeed keeps what they accept. -/
theorem filterM_some {α : Type} {f : α → Option Bool} {p : α → Bool} {l : List α} (hf : ∀ a ∈ l, f a = some (p a)) :
    l.filterM f = some (l.filter p) := by
  have haux : ∀ acc : List α, l.filterAuxM f acc = some ((l.filter p).reverse ++ acc) := by
    induction l with
    | nil => exact fun acc => rfl
    | cons a l ih =>
        intro acc
        rw [List.filterAuxM, hf a List.mem_cons_self, Option.bind_eq_bind, Option.bind_some,
          ih fun b hb => hf b (List.mem_cons_of_mem _ hb)]
        cases hp : p a <;> simp [hp]
  rw [List.filterM, haux]
  simp

/-- A function after every step of the monad is one after all of them. -/
theorem mapM_map {β γ : Type*} (f : α → Option β) (h : β → γ) {l : List α} :
    (l.mapM fun a => (f a).map h) = (l.mapM f).map (List.map h) := by
  induction l with
  | nil => rfl
  | cons a rest ih =>
      rw [List.mapM_cons, List.mapM_cons, ih]
      cases f a with
      | none => rfl
      | some b =>
          cases rest.mapM f with
          | none => rfl
          | some bs => rfl

theorem exists_mapM {β : Type*} {f : α → Option β} {l : List α} (hf : ∀ a ∈ l, ∃ b, f a = some b) :
    ∃ l', l.mapM f = some l' := by
  induction l with
  | nil => exact ⟨[], rfl⟩
  | cons a l ih =>
      obtain ⟨b, hb⟩ := hf a List.mem_cons_self
      obtain ⟨l', hl'⟩ := ih fun c hc => hf c (List.mem_cons_of_mem _ hc)
      exact ⟨b :: l', by rw [List.mapM_cons, hb, hl']; rfl⟩

theorem forall₂_of_mapM {β : Type*} {f : α → Option β} {l : List α} {l' : List β}
    (h : l.mapM f = some l') : List.Forall₂ (fun a b => f a = some b) l l' := by
  induction l generalizing l' with
  | nil =>
      obtain rfl : [] = l' := by simpa using h
      exact .nil
  | cons a l ih =>
      rw [List.mapM_cons] at h
      simp only [Option.bind_eq_bind, Option.bind_eq_some_iff] at h
      obtain ⟨b, hb, rest, hrest, hl'⟩ := h
      obtain rfl : b :: rest = l' := by simpa using hl'
      exact .cons hb (ih hrest)

/-- A map whose calls all succeed returns their results, also where a call may end in an error. -/
theorem mapM_ok {ε β : Type*} {f : α → Except ε β} {h : α → β} {l : List α}
    (hf : ∀ a ∈ l, f a = .ok (h a)) : l.mapM f = .ok (l.map h) := by
  induction l with
  | nil => rfl
  | cons a l ih =>
      rw [List.mapM_cons, hf a List.mem_cons_self,
        ih (fun b hb => hf b (List.mem_cons_of_mem _ hb))]
      rfl

theorem forall₂_of_mapM_ok {ε β : Type*} {f : α → Except ε β} {l : List α} {l' : List β}
    (h : l.mapM f = .ok l') : List.Forall₂ (fun a b => f a = .ok b) l l' := by
  induction l generalizing l' with
  | nil =>
      obtain rfl : [] = l' := by simpa [pure, Except.pure] using h
      exact .nil
  | cons a l ih =>
      rw [List.mapM_cons] at h
      cases hfirst : f a with
      | error e => simp [hfirst, bind, Except.bind] at h
      | ok b =>
          cases hrest : l.mapM f with
          | error e => simp [hfirst, hrest, bind, Except.bind] at h
          | ok bs =>
              obtain rfl : b :: bs = l' := by
                simpa [hfirst, hrest, bind, Except.bind, pure, Except.pure] using h
              exact .cons hfirst (ih hrest)

theorem forM_ok {ε : Type*} {f : α → Except ε PUnit} {l : List α}
    (hf : ∀ a ∈ l, f a = .ok ⟨⟩) : l.forM f = .ok ⟨⟩ := by
  induction l with
  | nil => rfl
  | cons a l ih =>
      have hrest := ih fun b hb => hf b (List.mem_cons_of_mem _ hb)
      simp only [List.forM, hf a List.mem_cons_self, bind, Except.bind, hrest]

/-- Amounts handed to several workers add up to the amounts. -/
theorem sum_by_worker {ι : Type*} [Fintype ι] [DecidableEq ι] (l : List (ι × ℤ)) :
    ∑ i, ((l.filter fun c => decide (c.1 = i)).map Prod.snd).sum = (l.map Prod.snd).sum := by
  induction l with
  | nil => simp
  | cons c l ih =>
      have hsplit : ∀ i, (((c :: l).filter fun c => decide (c.1 = i)).map Prod.snd).sum
          = (if c.1 = i then c.2 else 0)
            + ((l.filter fun c => decide (c.1 = i)).map Prod.snd).sum := by
        intro i
        by_cases hi : c.1 = i <;> simp [hi]
      simp only [hsplit, Finset.sum_add_distrib, ih]
      simp

/-- Adding up over the members of an increasing list is adding up over the positions. -/
theorem sum_range_getElem (l : List α) (f : α → ℤ) (amount : ℕ → ℤ)
    (h : ∀ i, (hi : i < l.length) → amount i = f l[i]) :
    ((List.range l.length).map amount).sum = (l.map f).sum := by
  congr 1
  refine List.ext_getElem (by simp) fun i hi _ => ?_
  simp only [List.length_map, List.length_range] at hi
  simp [h i hi]

/-! ### Results that are there -/

theorem exists_of_bind_eq_ok {ε β γ : Type*} {x : Except ε β} {f : β → Except ε γ} {c : γ}
    (h : x.bind f = .ok c) : ∃ b, x = .ok b ∧ f b = .ok c := by
  cases x with
  | error e => simp [Except.bind] at h
  | ok b => exact ⟨b, rfl, h⟩

/-- A test that a result passes, if there is one. -/
theorem exists_ok_of_any {ε β : Type*} {result : Except ε β} {test : β → Bool}
    (h : result.toOption.any test = true) : ∃ b, result = .ok b ∧ test b = true := by
  cases result with
  | error e => simp [Except.toOption] at h
  | ok b => exact ⟨b, rfl, h⟩

theorem exists_ok_some_of_any {ε β : Type*} {result : Except ε (Option β)} {test : β → Bool}
    (h : result.toOption.join.any test = true) : ∃ b, result = .ok (some b) ∧ test b = true := by
  cases result with
  | error e => simp [Except.toOption] at h
  | ok o =>
      cases o with
      | none => simp [Except.toOption] at h
      | some b => exact ⟨b, rfl, h⟩

end Loop
