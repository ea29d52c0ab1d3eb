/-!
# Laying out text

Columns and indentation of the listings and traces.
-/

namespace Secd.Text

/-- `text` with blanks in front up to the given width. -/
def padLeft (width : Nat) (text : String) : String :=
  String.ofList (List.replicate (width - text.length) ' ') ++ text

/-- The blanks in front of a line at a depth of nesting, two for each level. -/
def indent (depth : Nat) : String :=
  String.ofList (List.replicate (2 * depth) ' ')

end Secd.Text
