/-!
# Ranges of characters

Properties of characters are given by tables: lists of ranges, each with its first and its last code
point, in ascending order.
-/

namespace Secd.Text

/-- A table of ranges of code points. -/
abbrev Ranges := List (Nat × Nat)

/-- Whether the character is in one of the ranges. -/
def Ranges.has (ranges : Ranges) (c : Char) : Bool :=
  ranges.any fun (first, last) => first ≤ c.toNat && c.toNat ≤ last

end Secd.Text
