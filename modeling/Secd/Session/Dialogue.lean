import Secd.Session.Command
import Secd.Session.History
import Secd.Text.Cluster

/-!
# Dialogues

A dialogue is a session with a user who types one line after the other. Lines are collected until
the parentheses in them balance, and are then evaluated together; between such inputs, a line that
begins with a colon is a command. The history keeps the commands and the inputs.
-/

namespace Secd

namespace Dialogue

/-- The number of parentheses opened in a text less the number of those closed, without those in
comments. `comment` says whether the text begins within a comment. -/
def balanceFrom (comment : Bool) : List Char → Int
  | [] => 0
  | '\n' :: rest => balanceFrom false rest
  | c :: rest =>
    if comment then balanceFrom true rest
    else if c = ';' then balanceFrom true rest
    else if c = '(' then balanceFrom false rest + 1
    else if c = ')' then balanceFrom false rest - 1
    else balanceFrom false rest

/-- Whether a text has parentheses that are still to be closed. -/
def needsMoreLines (text : String) : Bool :=
  0 < balanceFrom false text.toList

end Dialogue

/-- A session, the lines that are still to be completed, and what has been typed before. -/
structure Dialogue where
  session : Session
  buffer : String
  history : History

/-- What a line of a dialogue leads to. -/
inductive Turn where
  /-- The dialogue goes on; text is written to the output and to the errors. -/
  | goOn (output errors : String)
  /-- The dialogue ends. -/
  | quit (output : String)
  /-- The dialogue breaks off, because a report cannot be drawn. -/
  | crash (output : String)
deriving Repr

namespace Dialogue

/-- A dialogue about to begin, with the history of those before it. -/
def start (history : History) : Dialogue := ⟨.start, "", history⟩

/-- The greeting of a dialogue. -/
def greeting : String := "secd REPL. Type :help for commands, :quit to exit.\n"

/-- Obeys a command. -/
def command (d : Dialogue) (line : String) : Turn × Dialogue :=
  match d.session.command line with
  | (.ok result, session) =>
    let turn := if result.quit then Turn.quit result.output else Turn.goOn result.output ""
    (turn, { d with session := session })
  | (.error e, session) => (.goOn "" (e.message ++ "\n"), { d with session := session })

/-- Evaluates a complete input; `none` if that does not end within `fuel` steps for each datum. -/
def eval (d : Dialogue) (fuel : Nat) (input : String) : Option (Turn × Dialogue) :=
  match d.session.evalLine fuel input with
  | none => none
  | some (result, session) =>
    match session.takeTrace with
    | (trace, session) =>
      let d := { d with session := session, buffer := "" }
      match result with
      | .ok (some v) => some (.goOn (trace ++ session.store.render v ++ "\n") "", d)
      | .ok none => some (.goOn trace "", d)
      | .error e =>
        match e.text? input with
        | some text => some (.goOn trace (text ++ "\n"), d)
        | none => some (.crash trace, d)

/-- The line that was meant: each backspace takes back the cluster of characters before it. -/
def edited (line : String) : String :=
  String.ofList ((Text.clusters line.toList).foldl
    (fun typed cluster => if cluster = ['\x08'] then typed.tail else cluster :: typed)
    []).reverse.flatten

/-- Keeps a command or an input in the history. -/
def keep (d : Dialogue) (input : String) : Dialogue :=
  { d with history := d.history.add input }

/-- Takes the next line, without its end. An input is kept without the blanks at its end. -/
def feed (d : Dialogue) (fuel : Nat) (line : String) : Option (Turn × Dialogue) :=
  let line := edited line
  if d.buffer.isEmpty ∧ (Text.trimStart line.toList).head? = some ':' then
    some ((d.keep line).command line)
  else
    let buffer := d.buffer ++ line ++ "\n"
    if needsMoreLines buffer then
      some (.goOn "" "", { d with buffer := buffer })
    else
      (d.keep (String.ofList (Text.trimEnd buffer.toList))).eval fuel buffer

end Dialogue

end Secd
