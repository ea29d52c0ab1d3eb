import Secd.Store
import Std.Data.TreeSet

/-!
# Structural equality

Two values are equal if no sequence of heads and tails tells them apart: along it both are pairs,
or both are equal atoms. Values may be cyclic, so the comparison keeps the pairs of cells that it
has met and takes them as equal when it meets them again. Since there are no more than the square
of the store's size of such pairs, and each one leaves two comparisons to do, the comparison ends.
-/

namespace Secd.Store

/-- Pairs of addresses. -/
abbrev AddressPairs := Std.TreeSet (Nat × Nat) lexOrd.compare

/-- Compares the pairs of values that are left to do, given the pairs of cells already met. -/
def equalFrom (s : Store) :
    (fuel : Nat) → (work : List (Value × Value)) → (seen : AddressPairs) → Bool
  | _, [], _ => true
  | 0, _ :: _, _ => true
  | fuel + 1, (.atom a, .atom b) :: work, seen =>
    if a.same b then s.equalFrom fuel work seen else false
  | fuel + 1, (.pair x, .pair y) :: work, seen =>
    if x = y ∨ (x, y) ∈ seen then
      s.equalFrom fuel work seen
    else
      s.equalFrom fuel
        (((s.cell x).head, (s.cell y).head) :: ((s.cell x).tail, (s.cell y).tail) :: work)
        (seen.insert (x, y))
  | _ + 1, (.atom _, .pair _) :: _, _ => false
  | _ + 1, (.pair _, .atom _) :: _, _ => false

/-- Whether two values have the same structure. -/
def equal (s : Store) (a b : Value) : Bool :=
  s.equalFrom (2 * (s.size * s.size) + 1) [(a, b)] ∅

end Secd.Store
