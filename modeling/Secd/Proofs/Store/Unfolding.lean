import Secd.Proofs.Store.Closed

/-!
# Unfoldings of values

A value unfolds to a tree of pairs over atoms, which is infinite if the cells are linked in a cycle.
The tree is known by what stands at the end of each finite path of heads and tails. Two values have
the same unfolding if no path tells them apart: at its end there is nothing on both sides, or a pair
on both sides, or an atom on each side and these are equal.
-/

namespace Secd

/-- A part of a pair. -/
inductive Selector where
  | head | tail
deriving DecidableEq, Repr

namespace Store

/-- The part of a pair that is selected. -/
def select (s : Store) : Selector → Value → Option Value
  | .head, .pair c => some (s.cell c).head
  | .tail, .pair c => some (s.cell c).tail
  | _, .atom _ => none

/-- What stands at the end of a path, if all that it passes through are pairs. -/
def follow (s : Store) : List Selector → Value → Option Value
  | [], v => some v
  | part :: path, v => (s.select part v).bind (s.follow path)

end Store

namespace Value

/-- The ends of a path in two unfoldings cannot be told apart without going on. -/
def Alike : Option Value → Option Value → Prop
  | none, none => True
  | some (.pair _), some (.pair _) => True
  | some (.atom a), some (.atom b) => a.same b = true
  | _, _ => False

/-- Every end is like itself. -/
theorem Alike.refl (v : Option Value) : Alike v v := by
  match v with
  | none => exact trivial
  | some (.pair _) => exact trivial
  | some (.atom a) => exact a.same_refl

/-- The order of two ends does not matter. -/
theorem Alike.symm {v w : Option Value} (h : Alike v w) : Alike w v := by
  match v, w, h with
  | none, none, _ => exact trivial
  | some (.pair _), some (.pair _), _ => exact trivial
  | some (.atom a), some (.atom b), h => exact (b.same_comm a).trans h

/-- Ends that are like the same end are alike. -/
theorem Alike.trans {u v w : Option Value} (h : Alike u v) (k : Alike v w) : Alike u w := by
  match u, v, w, h, k with
  | none, none, none, _, _ => exact trivial
  | some (.pair _), some (.pair _), some (.pair _), _, _ => exact trivial
  | some (.atom _), some (.atom _), some (.atom _), h, k => exact Atom.same_trans h k

end Value

namespace Store

open Value

variable {s : Store}

/-- No path tells the two values apart. -/
def SameUnfolding (s : Store) (a b : Value) : Prop :=
  ∀ path, Alike (s.follow path a) (s.follow path b)

/-- Every value has its own unfolding. -/
theorem SameUnfolding.refl (a : Value) : s.SameUnfolding a a :=
  fun _ => Alike.refl _

/-- The order of two values does not matter for their unfoldings. -/
theorem SameUnfolding.symm {a b : Value} (h : s.SameUnfolding a b) : s.SameUnfolding b a :=
  fun path => (h path).symm

/-- Values with the unfolding of the same value have the same unfolding. -/
theorem SameUnfolding.trans {a b c : Value} (h : s.SameUnfolding a b)
    (k : s.SameUnfolding b c) : s.SameUnfolding a c :=
  fun path => (h path).trans (k path)

/-- Atoms have the same unfolding if and only if they are equal. -/
theorem sameUnfolding_atom {a b : Atom} :
    s.SameUnfolding (.atom a) (.atom b) ↔ a.same b = true := by
  constructor
  · intro h
    exact h []
  · intro h path
    cases path with
    | nil => exact h
    | cons part path => cases part <;> exact trivial

/-- Pairs have the same unfolding if and only if their heads have, and their tails. -/
theorem sameUnfolding_pair {x y : Nat} :
    s.SameUnfolding (.pair x) (.pair y) ↔
      s.SameUnfolding (s.cell x).head (s.cell y).head ∧
        s.SameUnfolding (s.cell x).tail (s.cell y).tail := by
  constructor
  · intro h
    exact ⟨fun path => h (.head :: path), fun path => h (.tail :: path)⟩
  · rintro ⟨hhead, htail⟩ path
    match path with
    | [] => exact trivial
    | .head :: path => exact hhead path
    | .tail :: path => exact htail path

/-- An atom and a pair never have the same unfolding. -/
theorem not_sameUnfolding_atom_pair (a : Atom) (x : Nat) :
    ¬ s.SameUnfolding (.atom a) (.pair x) :=
  fun h => h []

/-- A pair and an atom never have the same unfolding. -/
theorem not_sameUnfolding_pair_atom (x : Nat) (a : Atom) :
    ¬ s.SameUnfolding (.pair x) (.atom a) :=
  fun h => h []

end Store

end Secd
