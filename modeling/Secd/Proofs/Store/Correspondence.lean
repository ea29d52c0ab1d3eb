import Secd.Proofs.Store.Equality
import Secd.Proofs.Store.Tree

/-!
# Values of different stores

Values of two stores can be compared like those of one store: they correspond to each other if no
path of heads and tails tells them apart. Trees that are the same, whatever cells they are made of,
correspond in all stores that hold them, and what corresponds to a held tree is such a tree. So
whatever is equal to a tree has the same structure, and no cycles.
-/

namespace Secd

namespace Store

open Value

variable {s s' : Store}

/-- No path tells the value of `s` and the value of `s'` apart. -/
def Corresponds (s s' : Store) (a b : Value) : Prop :=
  ∀ path, Alike (s.follow path a) (s'.follow path b)

/-- Values that correspond within one store are those with the same unfolding. -/
theorem corresponds_self_iff {a b : Value} : s.Corresponds s a b ↔ s.SameUnfolding a b := Iff.rfl

/-- Atoms correspond if and only if they are equal. -/
theorem corresponds_atom {a b : Atom} :
    s.Corresponds s' (.atom a) (.atom b) ↔ a.same b = true := by
  constructor
  · intro h
    exact h []
  · intro h path
    cases path with
    | nil => exact h
    | cons part path => cases part <;> exact trivial

/-- Pairs correspond if and only if their heads do and their tails do. -/
theorem corresponds_pair {x y : Nat} :
    s.Corresponds s' (.pair x) (.pair y) ↔
      s.Corresponds s' (s.cell x).head (s'.cell y).head ∧
        s.Corresponds s' (s.cell x).tail (s'.cell y).tail := by
  constructor
  · intro h
    exact ⟨fun path => h (.head :: path), fun path => h (.tail :: path)⟩
  · rintro ⟨hhead, htail⟩ path
    match path with
    | [] => exact trivial
    | .head :: path => exact hhead path
    | .tail :: path => exact htail path

/-- The values of held trees that are the same correspond. -/
theorem Holds.corresponds {e e' : Sexp} (he : s.Holds e) (he' : s'.Holds e')
    (h : e.same e' = true) : s.Corresponds s' e.value e'.value := by
  induction e generalizing e' with
  | atom a =>
    cases e' with
    | atom b => exact corresponds_atom.2 h
    | pair _ _ _ => cases h
  | pair c head tail ihHead ihTail =>
    cases e' with
    | atom _ => cases h
    | pair c' head' tail' =>
      obtain ⟨-, hcell, hhead, htail⟩ := he
      obtain ⟨-, hcell', hhead', htail'⟩ := he'
      obtain ⟨hheads, htails⟩ := Bool.and_eq_true_iff.1 h
      refine corresponds_pair.2 ?_
      rw [hcell, hcell']
      exact ⟨ihHead hhead hhead' hheads, ihTail htail htail' htails⟩

/-- A value that corresponds to a held tree is the value of a held tree that is the same. -/
theorem Corresponds.exists_same (hs' : s'.Closed) {e : Sexp} (he : s.Holds e) {v : Value}
    (hv : s'.Contains v) (h : s.Corresponds s' e.value v) :
    ∃ e', s'.Holds e' ∧ e'.value = v ∧ e.same e' = true := by
  induction e generalizing v with
  | atom a =>
    cases v with
    | atom b => exact ⟨.atom b, trivial, rfl, corresponds_atom.1 h⟩
    | pair d => exact (h []).elim
  | pair c head tail ihHead ihTail =>
    cases v with
    | atom b => exact (h []).elim
    | pair d =>
      obtain ⟨-, hcell, hhead, htail⟩ := he
      obtain ⟨hcontainsHead, hcontainsTail⟩ := hs' d hv
      obtain ⟨hheads, htails⟩ := corresponds_pair.1 h
      rw [hcell] at hheads htails
      obtain ⟨head', hhead', hheadValue, hheadSame⟩ := ihHead hhead hcontainsHead hheads
      obtain ⟨tail', htail', htailValue, htailSame⟩ := ihTail htail hcontainsTail htails
      have hcell' : s'.cell d = ⟨head'.value, tail'.value⟩ := by rw [hheadValue, htailValue]
      exact ⟨.pair d head' tail', ⟨hv, hcell', hhead', htail'⟩, rfl,
        Bool.and_eq_true_iff.2 ⟨hheadSame, htailSame⟩⟩

/-- In a closed store the values of held trees that are the same are equal. -/
theorem Closed.equal_of_same (hs : s.Closed) {e e' : Sexp} (he : s.Holds e) (he' : s.Holds e')
    (h : e.same e' = true) : s.equal e.value e'.value = true :=
  (hs.equal_eq_true_iff he.contains he'.contains).2 (corresponds_self_iff.1 (he.corresponds he' h))

/-- In a closed store, what is equal to a held tree is the value of a held tree that is the same. -/
theorem Closed.exists_same_of_equal (hs : s.Closed) {e : Sexp} (he : s.Holds e) {v : Value}
    (hv : s.Contains v) (h : s.equal e.value v = true) :
    ∃ e', s.Holds e' ∧ e'.value = v ∧ e.same e' = true :=
  (corresponds_self_iff.2 ((hs.equal_eq_true_iff he.contains hv).1 h)).exists_same hs he hv

/-- In a closed store held trees with equal values are the same. -/
theorem Closed.same_of_equal (hs : s.Closed) {e e' : Sexp} (he : s.Holds e) (he' : s.Holds e')
    (h : s.equal e.value e'.value = true) : e.same e' = true := by
  obtain ⟨e'', hheld, hvalue, hsame⟩ := hs.exists_same_of_equal he he'.contains h
  rwa [← hheld.eq_of_value_eq he' hvalue]

end Store

end Secd
