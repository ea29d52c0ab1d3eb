import Mathlib.Data.Finset.Card
import Mathlib.Data.Finset.Prod
import Secd.Proofs.Store.Unfolding
import Secd.Store.Equality

/-!
# Comparing values

`Store.equal` compares two values with a list of comparisons that are left to do and a set of pairs
of cells that it has met. This file proves that it decides whether the two have the same unfolding,
in every closed store, whatever cycles its cells form.

The comparison is first stated without a bound on its steps, as a relation `Compares` between what
is left to do and the answer. An answer `false` comes with a path that tells two values apart. An
answer `true` comes with a set of pairs of cells that is a bisimulation up to identical cells: it
holds for all paths by induction on the path. Finally, a pair of cells is met for the first time at
most once, and each first meeting leaves two comparisons to do, so the bound that `Store.equal`
gives itself is never reached in a closed store.
-/

namespace Secd

namespace Store

variable {s : Store}

/-! ### The comparison without a bound -/

/-- The comparison of the pairs of values in `work` ends with `answer`, given the pairs of cells
that it has met before. -/
inductive Compares (s : Store) : (work : List (Value × Value)) → (seen : AddressPairs) →
    (answer : Bool) → Prop where
  | done {seen : AddressPairs} : Compares s [] seen true
  | atoms {a b : Atom} {work : List (Value × Value)} {seen : AddressPairs} {answer : Bool}
      (hsame : a.same b = true) (hrest : Compares s work seen answer) :
      Compares s ((.atom a, .atom b) :: work) seen answer
  | differ {a b : Atom} {work : List (Value × Value)} {seen : AddressPairs}
      (hsame : a.same b = false) : Compares s ((.atom a, .atom b) :: work) seen false
  | met {x y : Nat} {work : List (Value × Value)} {seen : AddressPairs} {answer : Bool}
      (hmet : x = y ∨ (x, y) ∈ seen) (hrest : Compares s work seen answer) :
      Compares s ((.pair x, .pair y) :: work) seen answer
  | parts {x y : Nat} {work : List (Value × Value)} {seen : AddressPairs} {answer : Bool}
      (hnew : ¬ (x = y ∨ (x, y) ∈ seen))
      (hrest : Compares s
        (((s.cell x).head, (s.cell y).head) :: ((s.cell x).tail, (s.cell y).tail) :: work)
        (seen.insert (x, y)) answer) :
      Compares s ((.pair x, .pair y) :: work) seen answer
  | atomPair {a : Atom} {y : Nat} {work : List (Value × Value)} {seen : AddressPairs} :
      Compares s ((.atom a, .pair y) :: work) seen false
  | pairAtom {x : Nat} {b : Atom} {work : List (Value × Value)} {seen : AddressPairs} :
      Compares s ((.pair x, .atom b) :: work) seen false

/-- One more pair of cells has been met. -/
theorem mem_insert_iff {seen : AddressPairs} {p q : Nat × Nat} :
    q ∈ seen.insert p ↔ p = q ∨ q ∈ seen := by
  rw [Std.TreeSet.mem_insert, Std.LawfulEqCmp.compare_eq_iff_eq]

/-- The comparison has one answer. -/
theorem Compares.answer_unique {work : List (Value × Value)} {seen : AddressPairs}
    {answer answer' : Bool} (h : s.Compares work seen answer) (k : s.Compares work seen answer') :
    answer = answer' := by
  induction h with
  | done => cases k; rfl
  | atoms hsame _ ih =>
    cases k with
    | atoms _ hrest => exact ih hrest
    | differ hdiffer => rw [hsame] at hdiffer; cases hdiffer
  | differ hdiffer =>
    cases k with
    | atoms hsame _ => rw [hsame] at hdiffer; cases hdiffer
    | differ _ => rfl
  | met hmet _ ih =>
    cases k with
    | met _ hrest => exact ih hrest
    | parts hnew _ => exact absurd hmet hnew
  | parts hnew _ ih =>
    cases k with
    | met hmet _ => exact absurd hmet hnew
    | parts _ hrest => exact ih hrest
  | atomPair => cases k; rfl
  | pairAtom => cases k; rfl

/-! ### The answer `false` -/

/-- If the answer is `false`, two of the values to be compared have different unfoldings. -/
theorem Compares.exists_not_sameUnfolding {work : List (Value × Value)} {seen : AddressPairs}
    {answer : Bool} (h : s.Compares work seen answer) (hanswer : answer = false) :
    ∃ p ∈ work, ¬ s.SameUnfolding p.1 p.2 := by
  induction h with
  | done => cases hanswer
  | atoms _ _ ih =>
    obtain ⟨p, hp, hdiffer⟩ := ih hanswer
    exact ⟨p, List.mem_cons_of_mem _ hp, hdiffer⟩
  | differ hsame =>
    refine ⟨_, List.mem_cons_self, ?_⟩
    rw [sameUnfolding_atom, hsame]
    exact Bool.false_ne_true
  | met _ _ ih =>
    obtain ⟨p, hp, hdiffer⟩ := ih hanswer
    exact ⟨p, List.mem_cons_of_mem _ hp, hdiffer⟩
  | @parts x y work _ _ _ _ ih =>
    obtain ⟨p, hp, hdiffer⟩ := ih hanswer
    rcases List.mem_cons.1 hp with rfl | hp
    · exact ⟨_, List.mem_cons_self, fun h => hdiffer (sameUnfolding_pair.1 h).1⟩
    rcases List.mem_cons.1 hp with rfl | hp
    · exact ⟨_, List.mem_cons_self, fun h => hdiffer (sameUnfolding_pair.1 h).2⟩
    · exact ⟨p, List.mem_cons_of_mem _ hp, hdiffer⟩
  | atomPair => exact ⟨_, List.mem_cons_self, not_sameUnfolding_atom_pair _ _⟩
  | pairAtom => exact ⟨_, List.mem_cons_self, not_sameUnfolding_pair_atom _ _⟩

/-! ### The answer `true` -/

/-- The two values are equal atoms, or pairs in the same cell or in cells that `met` relates. -/
def Matched (met : AddressPairs) : Value → Value → Prop
  | .atom a, .atom b => a.same b = true
  | .pair x, .pair y => x = y ∨ (x, y) ∈ met
  | _, _ => False

/-- The related cells have matching heads and matching tails. -/
def Bisimilar (s : Store) (met : AddressPairs) (x y : Nat) : Prop :=
  Matched met (s.cell x).head (s.cell y).head ∧ Matched met (s.cell x).tail (s.cell y).tail

/-- If related cells have matching parts, matched values have the same unfolding. -/
theorem sameUnfolding_of_matched {met : AddressPairs}
    (hmet : ∀ x y, (x, y) ∈ met → s.Bisimilar met x y) {a b : Value} (h : Matched met a b) :
    s.SameUnfolding a b := by
  intro path
  induction path generalizing a b with
  | nil =>
    match a, b, h with
    | .atom _, .atom _, h => exact h
    | .pair _, .pair _, _ => exact trivial
  | cons part path ih =>
    match a, b, h with
    | .atom _, .atom _, _ => cases part <;> exact trivial
    | .pair x, .pair y, h =>
      rcases h with rfl | hxy
      · exact Value.Alike.refl _
      obtain ⟨hhead, htail⟩ := hmet x y hxy
      cases part with
      | head => exact ih hhead
      | tail => exact ih htail

/-- If the answer is `true`, the pairs of cells met in the end match all values to be compared, and
those that are new have matching parts. -/
theorem Compares.exists_matched {work : List (Value × Value)} {seen : AddressPairs}
    {answer : Bool} (h : s.Compares work seen answer) (hanswer : answer = true) :
    ∃ met : AddressPairs, (∀ p ∈ seen, p ∈ met) ∧ (∀ p ∈ work, Matched met p.1 p.2) ∧
      ∀ x y, (x, y) ∈ met → (x, y) ∈ seen ∨ s.Bisimilar met x y := by
  induction h with
  | @done seen => exact ⟨seen, fun _ hp => hp, by simp, fun _ _ hxy => .inl hxy⟩
  | atoms hsame _ ih =>
    obtain ⟨met, hsub, hwork, hmet⟩ := ih hanswer
    exact ⟨met, hsub, List.forall_mem_cons.2 ⟨hsame, hwork⟩, hmet⟩
  | differ => cases hanswer
  | met hseen _ ih =>
    obtain ⟨met, hsub, hwork, hmet⟩ := ih hanswer
    exact ⟨met, hsub, List.forall_mem_cons.2 ⟨hseen.imp_right (hsub _), hwork⟩, hmet⟩
  | @parts x y _ seen _ _ _ ih =>
    obtain ⟨met, hsub, hwork, hmet⟩ := ih hanswer
    have hxy : (x, y) ∈ met := hsub _ (mem_insert_iff.2 (.inl rfl))
    have hold : ∀ p ∈ seen, p ∈ met := by
      intro p hp
      exact hsub p (mem_insert_iff.2 (.inr hp))
    obtain ⟨hhead, hwork⟩ := List.forall_mem_cons.1 hwork
    obtain ⟨htail, hwork⟩ := List.forall_mem_cons.1 hwork
    refine ⟨met, hold, List.forall_mem_cons.2 ⟨.inr hxy, hwork⟩, ?_⟩
    intro u v huv
    rcases hmet u v huv with hseen | hbisimilar
    · rcases mem_insert_iff.1 hseen with heq | hseen
      · cases heq
        exact .inr ⟨hhead, htail⟩
      · exact .inl hseen
    · exact .inr hbisimilar
  | atomPair => cases hanswer
  | pairAtom => cases hanswer

/-- The answer to the comparison of two values tells whether they have the same unfolding. -/
theorem Compares.answer_iff_sameUnfolding {a b : Value} {answer : Bool}
    (h : s.Compares [(a, b)] ∅ answer) : answer = true ↔ s.SameUnfolding a b := by
  constructor
  · intro hanswer
    obtain ⟨met, -, hwork, hmet⟩ := h.exists_matched hanswer
    have hbisimilar : ∀ x y, (x, y) ∈ met → s.Bisimilar met x y := by
      intro x y hxy
      exact (hmet x y hxy).resolve_left Std.TreeSet.not_mem_emptyc
    exact sameUnfolding_of_matched hbisimilar (hwork (a, b) List.mem_cons_self)
  · intro hsame
    by_contra hanswer
    obtain ⟨p, hp, hdiffer⟩ := h.exists_not_sameUnfolding (Bool.eq_false_iff.2 hanswer)
    obtain rfl := List.mem_singleton.1 hp
    exact hdiffer hsame

/-! ### The bound -/

/-- The pairs of cells of the store that have not been met. -/
def unmet (s : Store) (seen : AddressPairs) : Finset (Nat × Nat) :=
  (Finset.range s.size ×ˢ Finset.range s.size).filter (· ∉ seen)

/-- A pair of cells that is met for the first time is one less that has not been met. -/
theorem card_unmet_insert_lt {seen : AddressPairs} {x y : Nat} (hx : x < s.size) (hy : y < s.size)
    (hnew : (x, y) ∉ seen) : (s.unmet (seen.insert (x, y))).card < (s.unmet seen).card := by
  have hsub : s.unmet (seen.insert (x, y)) ⊆ s.unmet seen := by
    intro p hp
    rw [unmet, Finset.mem_filter] at hp ⊢
    exact ⟨hp.1, fun hold => hp.2 (mem_insert_iff.2 (.inr hold))⟩
  have hbefore : (x, y) ∈ s.unmet seen := by
    rw [unmet, Finset.mem_filter, Finset.mem_product, Finset.mem_range, Finset.mem_range]
    exact ⟨⟨hx, hy⟩, hnew⟩
  have hafter : (x, y) ∉ s.unmet (seen.insert (x, y)) := by
    rw [unmet, Finset.mem_filter]
    rintro ⟨-, hunmet⟩
    exact hunmet (mem_insert_iff.2 (.inl rfl))
  exact Finset.card_lt_card ((Finset.ssubset_iff_of_subset hsub).2 ⟨(x, y), hbefore, hafter⟩)

/-- In a closed store the comparison ends within as many steps as there are comparisons left to do
and twice as many pairs of cells not yet met. -/
theorem Closed.compares_equalFrom (hs : s.Closed) {fuel : Nat} {work : List (Value × Value)}
    {seen : AddressPairs} (hwork : ∀ p ∈ work, s.Contains p.1 ∧ s.Contains p.2)
    (hfuel : work.length + 2 * (s.unmet seen).card ≤ fuel) :
    s.Compares work seen (s.equalFrom fuel work seen) := by
  induction fuel generalizing work seen with
  | zero =>
    obtain rfl : work = [] := List.length_eq_zero_iff.1 (by omega)
    exact .done
  | succ fuel ih =>
    match work with
    | [] => exact .done
    | (.atom a, .atom b) :: work =>
      rw [List.length_cons] at hfuel
      rw [equalFrom]
      cases hsame : a.same b with
      | true => exact .atoms hsame (ih (List.forall_mem_cons.1 hwork).2 (by omega))
      | false => exact .differ hsame
    | (.pair x, .pair y) :: work =>
      rw [List.length_cons] at hfuel
      obtain ⟨⟨hx, hy⟩, hwork⟩ := List.forall_mem_cons.1 hwork
      rw [equalFrom]
      split
      case isTrue hmet => exact .met hmet (ih hwork (by omega))
      case isFalse hnew =>
        have hless : (s.unmet (seen.insert (x, y))).card < (s.unmet seen).card :=
          card_unmet_insert_lt hx hy fun hseen => hnew (.inr hseen)
        obtain ⟨hheadx, htailx⟩ := hs.contains_parts hx
        obtain ⟨hheady, htaily⟩ := hs.contains_parts hy
        refine .parts hnew (ih ?_ ?_)
        · exact List.forall_mem_cons.2 ⟨⟨hheadx, hheady⟩,
            List.forall_mem_cons.2 ⟨⟨htailx, htaily⟩, hwork⟩⟩
        · rw [List.length_cons, List.length_cons]
          omega
    | (.atom _, .pair _) :: _ => exact .atomPair
    | (.pair _, .atom _) :: _ => exact .pairAtom

/-- In a closed store the comparison of two values ends, with the answer of `Store.equal`. -/
theorem Closed.compares_equal (hs : s.Closed) {a b : Value} (ha : s.Contains a)
    (hb : s.Contains b) : s.Compares [(a, b)] ∅ (s.equal a b) := by
  refine hs.compares_equalFrom (List.forall_mem_singleton.2 ⟨ha, hb⟩) ?_
  have hcard : (s.unmet ∅).card ≤ s.size * s.size := by
    refine (Finset.card_filter_le _ _).trans ?_
    rw [Finset.card_product, Finset.card_range]
  rw [List.length_singleton]
  omega

/-- In a closed store `Store.equal` tells whether two values have the same unfolding. -/
theorem Closed.equal_eq_true_iff (hs : s.Closed) {a b : Value} (ha : s.Contains a)
    (hb : s.Contains b) : s.equal a b = true ↔ s.SameUnfolding a b :=
  (hs.compares_equal ha hb).answer_iff_sameUnfolding

/-! ### The theorem -/

/-- In every closed store, and for all values of it, the comparison ends with one answer, which is
`true` if and only if no path of heads and tails tells the two values apart. So equality of values
is an equivalence, on cyclic values too. -/
theorem equal_decides_sameUnfolding (s : Store) (hs : s.Closed) :
    (∀ a b, s.Contains a → s.Contains b →
      (∀ answer, s.Compares [(a, b)] ∅ answer ↔ answer = s.equal a b) ∧
        (s.equal a b = true ↔ s.SameUnfolding a b)) ∧
    (∀ a, s.Contains a → s.equal a a = true) ∧
    (∀ a b, s.Contains a → s.Contains b → s.equal a b = s.equal b a) ∧
    (∀ a b c, s.Contains a → s.Contains b → s.Contains c →
      s.equal a b = true → s.equal b c = true → s.equal a c = true) := by
  refine ⟨?_, ?_, ?_, ?_⟩
  · intro a b ha hb
    refine ⟨fun answer => ?_, hs.equal_eq_true_iff ha hb⟩
    have hends : s.Compares [(a, b)] ∅ (s.equal a b) := hs.compares_equal ha hb
    constructor
    · intro h
      exact h.answer_unique hends
    · rintro rfl
      exact hends
  · intro a ha
    exact (hs.equal_eq_true_iff ha ha).2 (.refl a)
  · intro a b ha hb
    rw [Bool.eq_iff_iff, hs.equal_eq_true_iff ha hb, hs.equal_eq_true_iff hb ha]
    exact ⟨.symm, .symm⟩
  · intro a b c ha hb hc hab hbc
    rw [hs.equal_eq_true_iff ha hb] at hab
    rw [hs.equal_eq_true_iff hb hc] at hbc
    exact (hs.equal_eq_true_iff ha hc).2 (hab.trans hbc)

/-- Two letrec closures that were built one after the other, each with a frame of its own: the cells
of each form a cycle through the environment, the frame and the closure. -/
def twoLetrecs : Store where
  cells := #[⟨.symbol "RTN", .nil⟩,
    ⟨.pair 2, .nil⟩, ⟨.pair 3, .nil⟩, ⟨.pair 0, .pair 1⟩,
    ⟨.pair 5, .nil⟩, ⟨.pair 6, .nil⟩, ⟨.pair 0, .pair 4⟩]

/-- The two closures are different cells with the same unfolding. -/
theorem equal_decides_sameUnfolding_twoLetrecs :
    twoLetrecs.Closed ∧ twoLetrecs.Contains (.pair 3) ∧ twoLetrecs.Contains (.pair 6) ∧
      twoLetrecs.equal (.pair 3) (.pair 6) = true ∧
      twoLetrecs.SameUnfolding (.pair 3) (.pair 6) := by
  have hs : twoLetrecs.Closed := by decide
  have hfirst : twoLetrecs.Contains (.pair 3) := by decide
  have hsecond : twoLetrecs.Contains (.pair 6) := by decide
  have hequal : twoLetrecs.equal (.pair 3) (.pair 6) = true := by decide +kernel
  exact ⟨hs, hfirst, hsecond, hequal,
    ((equal_decides_sameUnfolding twoLetrecs hs).1 _ _ hfirst hsecond).2.1 hequal⟩

end Store

end Secd
