import GraphMini.GraphPi.Prefixes
import GraphMini.GraphPi.Restricts

/-!
# The schedule of the matcher

What `Graph::pattern_matching` reads of a `Schedule`: the prefixes of its loops and, for every loop, the
chain of the vertices that restrict it. `add_restrict` leaves out the pairs that follow from two others, and
so changes the pairs but not what they ask for.
-/

namespace GraphMini

namespace GraphPi

/-- The arrays `restrict_last`, `restrict_next` and `restrict_index` are a list for every vertex. -/
structure Schedule extends GraphMini.Schedule where
  size : ℕ
  prefixes : PrefixTable
  loopSetPrefixId : List (Option ℕ)
  restrictLast : ℕ → List ℕ := fun _ => []
  totalRestrictNum : ℕ := 0

/-- The pair at `i` follows from two others. -/
def implied (pairs : List (ℕ × ℕ)) (i : ℕ) : Bool :=
  let pair := fun k => pairs.getD k (0, 0)
  (List.range pairs.length).any fun j =>
    i != j && (pair j).1 == (pair i).1 && (List.range pairs.length).any fun k =>
      i != k && j != k && (pair k).2 == (pair i).2 && (pair j).2 == (pair k).1

/-- The loop of `add_restrict` that erases. A pair is erased or passed in each round. -/
def eraseImplied : ℕ → ℕ → List (ℕ × ℕ) → List (ℕ × ℕ)
  | 0, _, pairs => pairs
  | fuel + 1, i, pairs =>
      if i < pairs.length then
        if implied pairs i then eraseImplied fuel i (pairs.eraseIdx i) else eraseImplied fuel (i + 1) pairs
      else pairs

namespace Schedule

/-- `Schedule(const int *, int)`. -/
def ofMat (adjMat : List Char) (size : ℕ) : Schedule :=
  let (prefixes, loopSetPrefixId) := buildLoopInvariant adjMat size
  { adjMat, restrictPair := [], inExclusionOptimizeRedundancy := 1, size, prefixes, loopSetPrefixId }

def addRestrict (sc : Schedule) (restricts : List (ℕ × ℕ)) : Schedule :=
  let restrictPair := eraseImplied restricts.length 0 restricts
  { sc with
    restrictPair
    restrictLast := restrictPair.foldl (fun last p => Function.update last p.2 (p.1 :: last p.2)) fun _ => []
    totalRestrictNum := restrictPair.length }

def getMultiplicity (sc : Schedule) : ℕ := (getIsomorphismVec sc.adjMat sc.size).length

end Schedule

section

variable {α : Type} [Preorder α] {size fuel i : ℕ} {pairs : List (ℕ × ℕ)} {f : Fin size → α}

theorem eraseImplied_sublist : (eraseImplied fuel i pairs).Sublist pairs := by
  induction fuel generalizing i pairs with
  | zero => exact List.Sublist.refl _
  | succ fuel ih =>
      rw [eraseImplied]
      split_ifs
      · exact ih.trans (List.eraseIdx_sublist pairs i)
      · exact ih
      · exact List.Sublist.refl _

/-- A pair that follows from two others asks for nothing more. -/
theorem obeysAll_eraseIdx (hbelow : Below size pairs) (himplied : implied pairs i = true) :
    ObeysAll (pairs.eraseIdx i) f ↔ ObeysAll pairs f := by
  constructor
  · intro h a b hab
    rcases mem_eraseIdx_or hab i with hin | hat
    · exact h a b hin
    · simp only [implied, List.any_eq_true, List.mem_range, Bool.and_eq_true, bne_iff_ne, ne_eq,
        beq_iff_eq] at himplied
      obtain ⟨j, hj, ⟨hij, hfirst⟩, k, hk, ⟨⟨hik, hjk⟩, hsecond⟩, hmiddle⟩ := himplied
      have hget : pairs.getD i (0, 0) = (a.val, b.val) := by
        rw [List.getD_eq_getElem?_getD, hat, Option.getD_some]
      have hstays : ∀ k < pairs.length, i ≠ k → pairs.getD k (0, 0) ∈ pairs.eraseIdx i := by
        intro k hk hne
        rw [List.getD_eq_getElem _ _ hk, List.mem_eraseIdx_iff_getElem]
        exact ⟨k, hk, fun heq => hne heq.symm, rfl⟩
      obtain ⟨c, hc⟩ : ∃ c, pairs.getD j (0, 0) = (a.val, c) := ⟨_, Prod.ext (by rw [hfirst, hget]) rfl⟩
      have hck : pairs.getD k (0, 0) = (c, b.val) := by
        apply Prod.ext
        · rw [← hmiddle, hc]
        · rw [hsecond, hget]
      have hj' := hstays j hj hij
      have hk' := hstays k hk hik
      rw [hc] at hj'
      rw [hck] at hk'
      have hlt : c < size := by
        obtain ⟨hcb, hb⟩ := hbelow (c, b.val) ((List.eraseIdx_sublist pairs i).subset hk')
        exact hcb.trans hb
      exact (h ⟨c, hlt⟩ b hk').trans (h a ⟨c, hlt⟩ hj')
  · intro h
    exact h.mono fun pair hpair => (List.eraseIdx_sublist pairs i).subset hpair

theorem Below.sublist {pairs' : List (ℕ × ℕ)} (h : Below size pairs) (hsub : pairs'.Sublist pairs) :
    Below size pairs' := fun pair hpair => h pair (hsub.subset hpair)

/-- Without the pairs that follow from others the same is asked for. -/
theorem obeysAll_eraseImplied (hbelow : Below size pairs) :
    ObeysAll (eraseImplied fuel i pairs) f ↔ ObeysAll pairs f := by
  induction fuel generalizing i pairs with
  | zero => exact Iff.rfl
  | succ fuel ih =>
      rw [eraseImplied]
      split_ifs with _ himplied
      · rw [ih (hbelow.sublist (List.eraseIdx_sublist pairs i)), obeysAll_eraseIdx hbelow himplied]
      · exact ih hbelow
      · exact Iff.rfl

end

section

variable {sc : Schedule} {restricts : List (ℕ × ℕ)} {size : ℕ}

@[simp] theorem size_addRestrict : (sc.addRestrict restricts).size = sc.size := rfl

@[simp] theorem adjMat_addRestrict : (sc.addRestrict restricts).adjMat = sc.adjMat := rfl

@[simp] theorem prefixes_addRestrict : (sc.addRestrict restricts).prefixes = sc.prefixes := rfl

@[simp] theorem loopSetPrefixId_addRestrict :
    (sc.addRestrict restricts).loopSetPrefixId = sc.loopSetPrefixId := rfl

/-- The chain of a vertex holds the vertices that restrict it. -/
theorem mem_foldl_restrictLast {pairs : List (ℕ × ℕ)} {last : ℕ → List ℕ} {a b : ℕ} :
    a ∈ pairs.foldl (fun (last : ℕ → List ℕ) p => Function.update last p.2 (p.1 :: last p.2)) last b ↔
      a ∈ last b ∨ (a, b) ∈ pairs := by
  induction pairs generalizing last with
  | nil => simp
  | cons p pairs ih =>
      rw [List.foldl_cons, ih, List.mem_cons]
      rcases eq_or_ne b p.2 with rfl | hne
      · rw [Function.update_self, List.mem_cons]
        have hpair : (a, p.2) = p ↔ a = p.1 := by
          rw [Prod.ext_iff]
          simp
        rw [hpair]
        tauto
      · rw [Function.update_of_ne hne]
        have hpair : (a, b) ≠ p := fun heq => hne (congrArg Prod.snd heq)
        simp [hpair]

theorem mem_restrictLast {a b : ℕ} :
    a ∈ (sc.addRestrict restricts).restrictLast b ↔ (a, b) ∈ (sc.addRestrict restricts).restrictPair := by
  simp [Schedule.addRestrict, mem_foldl_restrictLast]

theorem below_addRestrict (h : Below size restricts) : Below size (sc.addRestrict restricts).restrictPair :=
  h.sublist eraseImplied_sublist

/-- `add_restrict` does not change what the restrictions ask for. -/
theorem obeysAll_addRestrict (sc : Schedule) {α : Type} [Preorder α] {f : Fin size → α} (h : Below size restricts) :
    ObeysAll (sc.addRestrict restricts).restrictPair f ↔ ObeysAll restricts f :=
  obeysAll_eraseImplied h

end

end GraphPi

end GraphMini
