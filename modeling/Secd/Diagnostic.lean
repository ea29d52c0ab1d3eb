import Secd.Span

/-!
# Diagnostics

A diagnostic is a message about a part of a source text.
-/

namespace Secd

/-- A message and the bytes of the source text that it is about. -/
structure Diagnostic where
  message : String
  span : Span
deriving DecidableEq, Repr, Inhabited

namespace Diagnostic

/-- Where the part begins that the message is about. -/
def position (d : Diagnostic) (source : String) : Position :=
  Position.ofOffset source d.span.start

end Diagnostic

end Secd
