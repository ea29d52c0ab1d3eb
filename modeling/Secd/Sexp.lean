import Secd.Store

/-!
# S-expressions

An S-expression is the finite unfolding of a value: a tree of pairs over atoms in which every pair
still carries the address of its cell. Programs, their compiled code and quoted data are
S-expressions, because all of them are read or built as trees and never change afterwards. What
walks over such a tree needs no store, and `value` gives back the value that the tree unfolds.
-/

namespace Secd

/-- A tree of pairs, each with the address of its cell. -/
inductive Sexp where
  | atom (a : Atom)
  | pair (cell : Nat) (head tail : Sexp)
deriving Repr, Inhabited

namespace Sexp

/-- The empty list. -/
@[match_pattern] abbrev nil : Sexp := .atom .nil

/-- A symbol, with any name. -/
@[match_pattern] abbrev symbol (name : String) : Sexp := .atom (.symbol name)

/-- An integer. -/
@[match_pattern] abbrev int (n : Int64) : Sexp := .atom (.int n)

/-- The value of which the tree is the unfolding. -/
def value : Sexp → Value
  | .atom a => .atom a
  | .pair cell _ _ => .pair cell

/-- The address of the cell of a pair. -/
def cell? : Sexp → Option Nat
  | .atom _ => none
  | .pair cell _ _ => some cell

/-- The kind of the value. -/
def kind (e : Sexp) : Kind := e.value.kind

/-- Whether two trees have the same structure and equal atoms, in whatever cells. -/
def same : Sexp → Sexp → Bool
  | .atom a, .atom b => a.same b
  | .pair _ a b, .pair _ c d => a.same c && b.same d
  | _, _ => false

/-- Every tree has its own structure. -/
theorem same_refl (e : Sexp) : e.same e = true := by
  induction e with
  | atom a => exact a.same_refl
  | pair _ head tail ihHead ihTail => simp [same, ihHead, ihTail]

/-! ## Printing -/

mutual

/-- Appends the printed form of an S-expression to `out`. -/
def write : Sexp → (out : String) → String
  | .atom a, out => out ++ a.text
  | .pair _ head tail, out => tail.writeTail (head.write (out ++ "("))

/-- Appends what follows the head of a list: the other items, or the tail after a dot, and the
closing parenthesis. -/
def writeTail : Sexp → (out : String) → String
  | .nil, out => out ++ ")"
  | .atom a, out => out ++ " . " ++ a.text ++ ")"
  | .pair _ head tail, out => tail.writeTail (head.write (out ++ " "))

end

/-- The printed form of an S-expression. -/
def render (e : Sexp) : String := e.write ""

/-! ## Lists -/

/-- The items of a list, each with the address of the cell that holds it, and the atom in which the
list ends. -/
def items : Sexp → List (Nat × Sexp) × Atom
  | .atom a => ([], a)
  | .pair cell head tail =>
    match tail.items with
    | (rest, ending) => ((cell, head) :: rest, ending)

/-- The items of a list that ends in the empty list. -/
def items? (e : Sexp) : Option (List (Nat × Sexp)) :=
  match e.items with
  | (items, .nil) => some items
  | _ => none

/-- The number of items of a list that ends in the empty list. -/
def length? (e : Sexp) : Option Nat := e.items?.map List.length

/-- The second item of a list. -/
def second? : Sexp → Option Sexp
  | .pair _ _ (.pair _ item _) => some item
  | _ => none

end Sexp

namespace Store

/-- The unfolding of a value, if it has no path of more than `fuel` pairs. -/
def toSexpFrom? (s : Store) : (fuel : Nat) → Value → Option Sexp
  | _, .atom a => some (.atom a)
  | 0, .pair _ => none
  | fuel + 1, .pair c => do
    let head ← s.toSexpFrom? fuel (s.cell c).head
    let tail ← s.toSexpFrom? fuel (s.cell c).tail
    some (.pair c head tail)

/-- The unfolding of a value, if it is finite. In a finite unfolding no path meets a cell twice. -/
def toSexp? (s : Store) (v : Value) : Option Sexp :=
  s.toSexpFrom? s.size v

/-- A new pair of two trees. -/
def consTree (s : Store) (head tail : Sexp) : Sexp × Store :=
  match s with
  | ⟨cells, callables⟩ =>
    (.pair cells.size head tail, ⟨cells.push ⟨head.value, tail.value⟩, callables⟩)

end Store

end Secd
