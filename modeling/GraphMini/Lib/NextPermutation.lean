import Mathlib.Data.List.Chain
import Mathlib.Tactic

/-!
# The next permutation

`std::next_permutation`, and the loop that starts with a sorted range and goes on to the next permutation
until there is none. The loop visits the permutations in lexicographic order, each of them once.
-/

namespace NextPermutation

variable {α : Type*} [LinearOrder α]

/-- The first element above `a` is exchanged for it. -/
def swapNext (a : α) : List α → Option (α × List α)
  | [] => none
  | b :: rest =>
      if a < b then some (b, a :: rest) else (swapNext a rest).map fun next => (next.1, b :: next.2)

/-- `std::next_permutation`. The element that changes is the last one before a larger one; what follows it
descends, so the last larger one is the first from behind. -/
def nextPermutation : List α → Option (List α)
  | [] => none
  | a :: rest =>
      match nextPermutation rest with
      | some next => some (a :: next)
      | none => (swapNext a rest.reverse).map fun next => next.1 :: next.2

/-- `do { .. } while (std::next_permutation(..))` -/
def visited : ℕ → List α → List (List α)
  | 0, _ => []
  | fuel + 1, order =>
      order :: match nextPermutation order with
        | some next => visited fuel next
        | none => []

/-- The orders of `n` elements of a list, by the place of their first element. -/
def orders : ℕ → List α → List (List α)
  | 0, _ => [[]]
  | n + 1, l => l.flatMap fun a => (orders n (l.erase a)).map (a :: ·)

section

variable {a b : α} {l l' : List α} {n fuel : ℕ}

theorem swapNext_eq_none (h : ∀ b ∈ l, b ≤ a) : swapNext a l = none := by
  induction l with
  | nil => rfl
  | cons b l ih =>
      rw [swapNext, if_neg (h b List.mem_cons_self).not_gt, ih fun c hc => h c (List.mem_cons_of_mem b hc)]
      rfl

theorem swapNext_append (h : ∀ c ∈ l, c ≤ a) (hab : a < b) :
    swapNext a (l ++ b :: l') = some (b, l ++ a :: l') := by
  induction l with
  | nil => rw [List.nil_append, swapNext, if_pos hab, List.nil_append]
  | cons c l ih =>
      rw [List.cons_append, swapNext, if_neg (h c List.mem_cons_self).not_gt,
        ih fun d hd => h d (List.mem_cons_of_mem c hd)]
      rfl

/-- What descends is the last permutation. -/
theorem nextPermutation_eq_none (h : l.Pairwise (· > ·)) : nextPermutation l = none := by
  induction l with
  | nil => rfl
  | cons a l ih =>
      obtain ⟨hfirst, hrest⟩ := List.pairwise_cons.mp h
      rw [nextPermutation, ih hrest]
      simp only
      rw [swapNext_eq_none fun b hb => (hfirst b (List.mem_reverse.mp hb)).le]
      rfl

theorem nextPermutation_cons (h : nextPermutation l = some l') : nextPermutation (a :: l) = some (a :: l') := by
  rw [nextPermutation, h]

/-- A loop that comes through a list visits it. -/
theorem visited_eq {first : List α} {rest : List (List α)} (hfuel : rest.length < fuel)
    (hchain : (first :: rest).IsChain fun order next => nextPermutation order = some next)
    (hlast : ∀ last ∈ (first :: rest).getLast?, nextPermutation last = none) :
    visited fuel first = first :: rest := by
  induction rest generalizing fuel first with
  | nil =>
      obtain ⟨fuel, rfl⟩ : ∃ left, fuel = left + 1 := ⟨fuel - 1, by omega⟩
      rw [visited, hlast first rfl]
  | cons next rest ih =>
      rw [List.length_cons] at hfuel
      obtain ⟨fuel, rfl⟩ : ∃ left, fuel = left + 1 := ⟨fuel - 1, by omega⟩
      obtain ⟨hnext, hchain⟩ := List.isChain_cons_cons.mp hchain
      rw [visited, hnext]
      simp only
      rw [ih (by omega) hchain hlast]

end

/-! ### The orders of a sorted list -/

section

variable {l : List α} {n : ℕ}

theorem length_orders (hlength : l.length = n) : (orders n l).length = n.factorial := by
  induction n generalizing l with
  | zero => rfl
  | succ n ih =>
      rw [orders, List.length_flatMap]
      have hall : (l.map fun a => ((orders n (l.erase a)).map (a :: ·)).length) = l.map fun _ => n.factorial := by
        apply List.map_congr_left
        intro a ha
        rw [List.length_map, ih]
        rw [List.length_erase_of_mem ha, hlength, Nat.add_sub_cancel]
      rw [hall, List.map_const', List.sum_replicate, hlength, Nat.factorial_succ, smul_eq_mul]

theorem sorted_erase {a : α} (hsorted : l.Pairwise (· < ·)) (hlength : l.length = n + 1) (ha : a ∈ l) :
    (l.erase a).Pairwise (· < ·) ∧ (l.erase a).length = n := by
  refine ⟨hsorted.sublist List.erase_sublist, ?_⟩
  rw [List.length_erase_of_mem ha, hlength, Nat.add_sub_cancel]

theorem head?_orders (hsorted : l.Pairwise (· < ·)) (hlength : l.length = n) :
    (orders n l).head? = some l := by
  induction n generalizing l with
  | zero =>
      rw [List.length_eq_zero_iff] at hlength
      rw [hlength]
      rfl
  | succ n ih =>
      cases l with
      | nil => simp at hlength
      | cons a rest =>
          obtain ⟨hrest, hshorter⟩ := sorted_erase hsorted hlength List.mem_cons_self
          have hhead := ih hrest hshorter
          rw [List.erase_cons_head] at hhead
          rw [orders, List.flatMap_cons, List.head?_append, List.erase_cons_head, List.head?_map, hhead]
          rfl

theorem getLast?_orders (hsorted : l.Pairwise (· < ·)) (hlength : l.length = n) :
    (orders n l).getLast? = some l.reverse := by
  induction n generalizing l with
  | zero =>
      rw [List.length_eq_zero_iff] at hlength
      rw [hlength]
      rfl
  | succ n ih =>
      obtain rfl | ⟨rest, b, rfl⟩ := List.eq_nil_or_concat' l
      · simp at hlength
      · have hnodup : (rest ++ [b]).Nodup := hsorted.imp fun h => h.ne
        have hb : b ∉ rest := fun hin => (List.nodup_append.mp hnodup).2.2 b hin b (by simp) rfl
        have herase : (rest ++ [b]).erase b = rest := by
          rw [List.erase_append_right _ hb, List.erase_cons_head, List.append_nil]
        obtain ⟨hrest, hshorter⟩ := sorted_erase (a := b) hsorted hlength (by simp)
        have hlast := ih hrest hshorter
        rw [herase] at hlast
        rw [orders, List.flatMap_append, List.flatMap_cons, List.flatMap_nil, List.append_nil,
          List.getLast?_append, herase, List.getLast?_map, hlast]
        simp

/-- After the last order that begins with an element comes the first one that begins with the next element. -/
theorem nextPermutation_block {a b : α} {before after : List α}
    (hsorted : (before ++ a :: b :: after).Pairwise (· < ·)) :
    nextPermutation (a :: ((before ++ a :: b :: after).erase a).reverse)
      = some (b :: (before ++ a :: b :: after).erase b) := by
  have hbefore : ∀ c ∈ before, c < a ∧ c < b := by
    intro c hc
    have hlt := (List.pairwise_append.mp hsorted).2.2 c hc
    exact ⟨hlt a (by simp), hlt b (by simp)⟩
  have hab : a < b := by
    have hrest := (List.pairwise_append.mp hsorted).2.1
    exact (List.pairwise_cons.mp hrest).1 b (by simp)
  have ha : a ∉ before := fun hin => (hbefore a hin).1.ne rfl
  have hb : b ∉ before := fun hin => (hbefore b hin).2.ne rfl
  have hdescends : ((before ++ b :: after).reverse).Pairwise (· > ·) := by
    rw [List.pairwise_reverse]
    exact List.Pairwise.sublist ((List.Sublist.refl before).append (List.sublist_cons_self a _)) hsorted
  rw [List.erase_append_right _ ha, List.erase_cons_head, List.erase_append_right _ hb,
    List.erase_cons_tail (by simpa using hab.ne), List.erase_cons_head, nextPermutation,
    nextPermutation_eq_none hdescends]
  simp only
  rw [List.reverse_reverse, swapNext_append (fun c hc => (hbefore c hc).1.le) hab]
  rfl

/-- Each order of a sorted list is followed by its next permutation. -/
theorem isChain_orders (hsorted : l.Pairwise (· < ·)) (hlength : l.length = n) :
    (orders n l).IsChain fun order next => nextPermutation order = some next := by
  induction n generalizing l with
  | zero => exact List.isChain_singleton _
  | succ n ih =>
      have hne : [] ∉ l.map fun a => (orders n (l.erase a)).map (a :: ·) := by
        intro hnil
        obtain ⟨a, ha, heq⟩ := List.mem_map.mp hnil
        obtain ⟨hrest, hshorter⟩ := sorted_erase hsorted hlength ha
        have hhead := head?_orders hrest hshorter
        rw [List.map_eq_nil_iff.mp heq] at hhead
        simp at hhead
      rw [orders, List.flatMap_def, List.isChain_flatten hne]
      constructor
      · intro block hmem
        obtain ⟨a, ha, rfl⟩ := List.mem_map.mp hmem
        obtain ⟨hrest, hshorter⟩ := sorted_erase hsorted hlength ha
        rw [List.isChain_map]
        exact (ih hrest hshorter).imp fun _ _ hnext => nextPermutation_cons hnext
      · rw [List.isChain_map, List.isChain_iff_forall_rel_of_append_cons_cons]
        rintro a b before after rfl last hlast first hfirst
        obtain ⟨hrest, hshorter⟩ := sorted_erase (a := a) hsorted hlength (by simp)
        obtain ⟨hrest', hshorter'⟩ := sorted_erase (a := b) hsorted hlength (by simp)
        rw [List.getLast?_map, getLast?_orders hrest hshorter] at hlast
        rw [List.head?_map, head?_orders hrest' hshorter'] at hfirst
        obtain rfl := Option.some.inj hlast
        obtain rfl := Option.some.inj hfirst
        exact nextPermutation_block hsorted

/-- The loop that starts with a sorted list visits its orders. -/
theorem visited_sorted (hsorted : l.Pairwise (· < ·)) : visited l.length.factorial l = orders l.length l := by
  have hchain := isChain_orders hsorted rfl
  have hhead := head?_orders hsorted rfl
  have hlast := getLast?_orders hsorted rfl
  have hcount := length_orders (n := l.length) (l := l) rfl
  generalize orders l.length l = visits at *
  cases visits with
  | nil => simp at hhead
  | cons first rest =>
      obtain rfl : first = l := by simpa using hhead
      apply visited_eq
      · rw [List.length_cons] at hcount
        omega
      · exact hchain
      · intro last hmem
        rw [hlast] at hmem
        obtain rfl := Option.some.inj hmem
        apply nextPermutation_eq_none
        rw [List.pairwise_reverse]
        exact hsorted

end

end NextPermutation
