import Secd.CommandLine.Execution
import Secd.Session.Dialogue

/-!
# The program

The outer layer: it takes the arguments, reaches files and streams, and leaves every decision to the
library.
-/

namespace Secd

/-- More steps than a run can take in the lifetime of the program. -/
def patience : Nat := 0x4000000000000000

/-- The reason for which a file could not be reached. -/
def reason : IO.Error → String
  | .noFileOrDirectory .. => "No such file or directory (os error 2)"
  | .permissionDenied .. => "Permission denied (os error 13)"
  | .inappropriateType .. => "Is a directory (os error 21)"
  | e => toString e

/-- Reads a file. -/
def readFile (path : String) : IO (Except String (List UInt8)) := do
  try
    return .ok (← IO.FS.readBinFile path).data.toList
  catch e =>
    return .error (reason e)

/-- Writes a file. -/
def writeFile (path : String) (bytes : List UInt8) : IO (Except String Unit) := do
  try
    IO.FS.writeBinFile path ⟨bytes.toArray⟩
    return .ok ()
  catch e =>
    return .error (reason e)

/-- Tells how the program ends. -/
def leave (exit : Exit) : IO UInt32 := do
  IO.print exit.output
  IO.eprint exit.errors
  return UInt32.ofNat exit.code

/-- The line without the characters that end it. -/
def withoutEnd (line : String) : String :=
  match line.toList.reverse with
  | '\n' :: '\r' :: rest => String.ofList rest.reverse
  | '\n' :: rest => String.ofList rest.reverse
  | _ => line

/-- Converses until the input or the dialogue ends; the answer is the code of the program and the
dialogue at its end. -/
partial def converse (input : IO.FS.Stream) (d : Dialogue) : IO (UInt32 × Dialogue) := do
  let line ← input.getLine
  if line.isEmpty then
    return (0, d)
  match d.feed patience (withoutEnd line) with
  | none => return (1, d)
  | some (.goOn output errors, d) =>
    IO.print output
    IO.eprint errors
    converse input d
  | some (.quit output, d) =>
    IO.print output
    return (0, d)
  | some (.crash output, d) =>
    IO.print output
    return (101, d)

/-- The history file, in a directory that is made if there is none. -/
def historyFile? : IO (Option String) := do
  match History.directory? (← IO.getEnv "XDG_DATA_HOME") (← IO.getEnv "HOME") with
  | none => return none
  | some directory =>
    try
      IO.FS.createDirAll directory
      return some (History.fileIn directory)
    catch _ =>
      return none

/-- Reads the history, holds a dialogue, and writes the history if the dialogue has ended well. -/
def hold : IO UInt32 := do
  IO.print Dialogue.greeting
  let file? ← historyFile?
  let history ← match file? with
    | none => pure History.empty
    | some file =>
      match ← readFile file with
      | .ok bytes => pure (History.ofFile bytes)
      | .error _ => pure History.empty
  let (code, d) ← converse (← IO.getStdin) (.start history)
  if let some file := file? then
    if code = 0 ∧ d.history.changed then
      discard (writeFile file d.history.toFile)
  return code

/-- Does what the arguments ask for. Arguments that are not understood give the code 2. -/
def program (args : List String) : IO UInt32 := do
  match CommandLine.parse? args with
  | none =>
    IO.eprintln "usage: secd run|compile|exec|disasm|repl"
    return 2
  | some command =>
    match command.job? patience with
    | some job =>
      match ← job.perform readFile writeFile with
      | some exit => leave exit
      | none => return 1
    | none => hold

end Secd

/-- The program `secd`. -/
def main (args : List String) : IO UInt32 := Secd.program args
