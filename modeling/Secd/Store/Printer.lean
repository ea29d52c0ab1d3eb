import Secd.Store
import Std.Data.TreeSet

/-!
# Printing values

The printed form of a value is that of an S-expression. A cell that is met again while it is being
printed closes a cycle, and the marker `#cycle` stands for it; a cell that is shared without being
part of a cycle is printed at each of its occurrences. The cells being printed are those of the
path from the root, lists included from their first cell on, so the path never grows beyond the
size of the store.
-/

namespace Secd.Store

mutual

/-- Appends the printed form of a value to `out`; `path` holds the cells being printed. -/
def write (s : Store) : (fuel : Nat) → (path : Std.TreeSet Nat) → Value → (out : String) → String
  | _, _, .atom a, out => out ++ a.text
  | 0, _, .pair _, out => out
  | fuel + 1, path, .pair c, out =>
    if c ∈ path then
      out ++ "#cycle"
    else
      let path := path.insert c
      s.writeTail fuel path (s.cell c).tail (s.write fuel path (s.cell c).head (out ++ "("))

/-- Appends what follows the head of a list: the other items, or the tail after a dot, and the
closing parenthesis. -/
def writeTail (s : Store) :
    (fuel : Nat) → (path : Std.TreeSet Nat) → Value → (out : String) → String
  | _, _, .nil, out => out ++ ")"
  | _, _, .atom a, out => out ++ " . " ++ a.text ++ ")"
  | 0, _, .pair _, out => out
  | fuel + 1, path, .pair c, out =>
    if c ∈ path then
      out ++ " . #cycle)"
    else
      let path := path.insert c
      s.writeTail fuel path (s.cell c).tail (s.write fuel path (s.cell c).head (out ++ " "))

end

/-- The printed form of a value. -/
def render (s : Store) (v : Value) : String :=
  s.write (s.size + 1) ∅ v ""

/-- The printed form of a list of values. -/
def renderList (s : Store) : List Value → String
  | [] => "NIL"
  | v :: vs => "(" ++ String.intercalate " " ((v :: vs).map s.render) ++ ")"

end Secd.Store

namespace Secd

/-- The first `max` characters of a text, followed by dots if anything was cut off. -/
def truncate (text : String) (max : Nat) : String :=
  if text.length ≤ max then text else String.ofList (text.toList.take max) ++ "..."

end Secd
