import Secd.Sexp

/-!
# Trees by their atoms and cells

What is required of a tree is often required of each of its atoms, that they can be saved or that
they can be read, or of each of its cells, that they are new. Such properties pass on to the parts
of the tree. And whether two trees are the same, whatever cells they are made of, is a matter of
their shape and of their atoms.
-/

namespace Secd

namespace Sexp

/-! ### Properties of all atoms -/

/-- All atoms of the tree have the property. -/
def AllAtoms (P : Atom → Prop) : Sexp → Prop
  | .atom a => P a
  | .pair _ head tail => head.AllAtoms P ∧ tail.AllAtoms P

instance decidableAllAtoms (P : Atom → Prop) [DecidablePred P] :
    (e : Sexp) → Decidable (e.AllAtoms P)
  | .atom a => inferInstanceAs (Decidable (P a))
  | .pair _ head tail =>
    have := decidableAllAtoms P head
    have := decidableAllAtoms P tail
    inferInstanceAs (Decidable (head.AllAtoms P ∧ tail.AllAtoms P))

variable {P Q : Atom → Prop}

/-- All atoms have a property that follows from one that all atoms have. -/
theorem AllAtoms.imp {e : Sexp} (he : e.AllAtoms P) (h : ∀ a, P a → Q a) : e.AllAtoms Q := by
  induction e with
  | atom a => exact h a he
  | pair _ head tail ihHead ihTail => exact ⟨ihHead he.1, ihTail he.2⟩

/-- All atoms have both properties if they have each. -/
theorem AllAtoms.and {e : Sexp} (he : e.AllAtoms P) (he' : e.AllAtoms Q) :
    e.AllAtoms fun a => P a ∧ Q a := by
  induction e with
  | atom a => exact ⟨he, he'⟩
  | pair _ head tail ihHead ihTail => exact ⟨ihHead he.1 he'.1, ihTail he.2 he'.2⟩

/-- All cells of the tree have the property. -/
def AllCells (P : Nat → Prop) : Sexp → Prop
  | .atom _ => True
  | .pair c head tail => P c ∧ head.AllCells P ∧ tail.AllCells P

/-- All cells have a property that follows from one that all cells have. -/
theorem AllCells.imp {P Q : Nat → Prop} {e : Sexp} (he : e.AllCells P) (h : ∀ c, P c → Q c) :
    e.AllCells Q := by
  induction e with
  | atom a => exact trivial
  | pair c head tail ihHead ihTail => exact ⟨h c he.1, ihHead he.2.1, ihTail he.2.2⟩

/-- The first cell of a tree has a property that all cells have. -/
theorem AllCells.of_cell? {P : Nat → Prop} {e : Sexp} (he : e.AllCells P) {c : Nat}
    (hc : e.cell? = some c) : P c := by
  cases e with
  | atom _ => cases hc
  | pair _ _ _ =>
    obtain rfl := Option.some.inj hc
    exact he.1

/-- The property of a pair passes on to its head and its tail. -/
def Hereditary (P : Sexp → Prop) : Prop :=
  ∀ c head tail, P (.pair c head tail) → P head ∧ P tail

/-- A property of all atoms is that of all atoms of the parts. -/
theorem hereditary_allAtoms (P : Atom → Prop) : Hereditary (AllAtoms P) := fun _ _ _ h => h

/-- A property of all cells is that of all cells of the parts. -/
theorem hereditary_allCells (P : Nat → Prop) : Hereditary (AllCells P) := fun _ _ _ h => h.2

/-! ### Trees that are the same -/

/-- The order of two trees does not matter for whether they are the same. -/
theorem same_comm (e e' : Sexp) : e.same e' = e'.same e := by
  induction e generalizing e' with
  | atom a =>
    cases e' with
    | atom b => exact a.same_comm b
    | pair _ _ _ => rfl
  | pair _ head tail ihHead ihTail =>
    cases e' with
    | atom _ => rfl
    | pair _ head' tail' => rw [same, same, ihHead head', ihTail tail']

/-- A tree that is the same as a pair is a pair of parts that are the same. -/
theorem exists_pair_of_same {c : Nat} {head tail e : Sexp}
    (h : (Sexp.pair c head tail).same e = true) :
    ∃ c' head' tail', e = .pair c' head' tail' ∧ head.same head' = true ∧
      tail.same tail' = true := by
  cases e with
  | atom _ => cases h
  | pair c' head' tail' =>
    obtain ⟨hhead, htail⟩ := Bool.and_eq_true_iff.1 h
    exact ⟨c', head', tail', rfl, hhead, htail⟩

/-- A tree that is the same as an atom is an equal atom. -/
theorem exists_atom_of_same {a : Atom} {e : Sexp} (h : (Sexp.atom a).same e = true) :
    ∃ b, e = .atom b ∧ a.same b = true := by
  cases e with
  | atom b => exact ⟨b, rfl, h⟩
  | pair _ _ _ => cases h

/-- Trees that are the same as the same tree are the same. -/
theorem same_trans {e e' e'' : Sexp} (h : e.same e' = true) (k : e'.same e'' = true) :
    e.same e'' = true := by
  induction e generalizing e' e'' with
  | atom a =>
    obtain ⟨b, rfl, hab⟩ := exists_atom_of_same h
    obtain ⟨c, rfl, hbc⟩ := exists_atom_of_same k
    exact Atom.same_trans hab hbc
  | pair _ head tail ihHead ihTail =>
    obtain ⟨_, head', tail', rfl, hhead, htail⟩ := exists_pair_of_same h
    obtain ⟨_, head'', tail'', rfl, hhead', htail'⟩ := exists_pair_of_same k
    rw [same, ihHead hhead hhead', ihTail htail htail', Bool.and_true]

/-- What two trees that are the same are compared with is the same as both or as neither. -/
theorem same_congr {e e' : Sexp} (h : e.same e' = true) (x : Sexp) : e.same x = e'.same x := by
  rw [Bool.eq_iff_iff]
  constructor
  · intro hx
    exact same_trans ((same_comm e' e).trans h) hx
  · intro hx
    exact same_trans h hx

/-- A property of atoms that does not tell equal atoms apart does not tell trees apart that are the
same. -/
theorem AllAtoms.of_same (hP : ∀ a b : Atom, a.same b = true → P a → P b) {e e' : Sexp}
    (he : e.AllAtoms P) (h : e.same e' = true) : e'.AllAtoms P := by
  induction e generalizing e' with
  | atom a =>
    obtain ⟨b, rfl, hab⟩ := exists_atom_of_same h
    exact hP a b hab he
  | pair _ head tail ihHead ihTail =>
    obtain ⟨_, head', tail', rfl, hhead, htail⟩ := exists_pair_of_same h
    exact ⟨ihHead he.1 hhead, ihTail he.2 htail⟩

end Sexp

/-! ### Atoms without host functions -/

namespace Atom

/-- The atom is no callable. -/
def Plain : Atom → Prop
  | .callable _ => False
  | _ => True

instance decidablePlain : DecidablePred Plain
  | .nil => .isTrue trivial
  | .symbol _ => .isTrue trivial
  | .int _ => .isTrue trivial
  | .callable _ => .isFalse id

/-- An atom that is equal to one that is no callable is the very same. -/
theorem Plain.eq_of_same {a b : Atom} (ha : a.Plain) (h : a.same b = true) : a = b := by
  cases a <;> cases b <;> simp_all [same, Plain]

end Atom

namespace Sexp

/-- A tree that is the same as a symbol is the symbol. -/
theorem eq_symbol_of_same {e : Sexp} {name : String} (h : e.same (.symbol name) = true) :
    e = .symbol name := by
  rw [same_comm] at h
  cases e with
  | atom a => rw [← Atom.Plain.eq_of_same (a := .symbol name) trivial h]
  | pair c head tail => cases h

end Sexp

end Secd
