/-!
# Transcripts

A transcript collects text that a program writes, until it is taken out.
-/

namespace Secd

/-- Text that has been written and not yet been taken out. -/
structure Transcript where
  text : String := ""
deriving Repr, Inhabited

namespace Transcript

/-- A transcript without text. -/
def empty : Transcript := {}

/-- Adds text at the end. -/
def write (t : Transcript) (text : String) : Transcript := ⟨t.text ++ text⟩

/-- Adds a line at the end. -/
def writeLine (t : Transcript) (line : String) : Transcript := (t.write line).write "\n"

/-- A line goes after the text so far and is ended. -/
theorem text_writeLine (t : Transcript) (line : String) :
    (t.writeLine line).text = t.text ++ line ++ "\n" := rfl

/-- Takes out the text. -/
def drain (t : Transcript) : String × Transcript := (t.text, empty)

end Transcript

end Secd
