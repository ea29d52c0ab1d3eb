import Secd.Span

/-!
# Data in the source text

A datum is one S-expression as it is written, with the span of each of its parts. The notation
`'d` and the two notations for lists are kept apart here; `Secd.Datum.Reading` turns a datum into
the S-expression that it denotes.
-/

namespace Secd

/-- A datum of the source text. -/
inductive Datum where
  | int (n : Int64) (span : Span)
  | symbol (name : String) (span : Span)
  | quoted (datum : Datum) (span : Span)
  /-- A list in parentheses. -/
  | list (items : List Datum) (span : Span)
  /-- A list whose last cell has the datum after the dot as its tail. -/
  | dotted (items : List Datum) (tail : Datum) (span : Span)
deriving Repr, Inhabited

namespace Datum

/-- The bytes from the first token of the datum to its last one. -/
def span : Datum → Span
  | .int _ span => span
  | .symbol _ span => span
  | .quoted _ span => span
  | .list _ span => span
  | .dotted _ _ span => span

end Datum

end Secd
