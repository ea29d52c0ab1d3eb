import Secd.Module.Listing
import Secd.Session
import Secd.Text.Number

/-!
# Commands of a session

A line that begins with a colon is a command: it shows or changes the settings of a session, or
ends it.
-/

namespace Secd

/-- Why a command was not obeyed. -/
inductive CommandError where
  | unknownCommand (name : String)
  | unknownPrimitive (name : String)
  | stepLimit (fault : Text.NumberFault)
deriving Repr

/-- The message for each error. -/
def CommandError.message : CommandError → String
  | .unknownCommand name => "Unknown command: " ++ name
  | .unknownPrimitive name => "No primitive named " ++ name
  | .stepLimit fault => "Usage: :steps <n>: " ++ fault.message

/-- What a command has written, and whether it ends the session. -/
structure CommandResult where
  output : String
  quit : Bool
deriving Repr

namespace Session

/-- The explanation of the commands. -/
def help : String :=
  "secd REPL Commands:\n" ++
  "  :quit, :q          Exit the REPL\n" ++
  "  :help, :h          Show this help\n" ++
  "  :clear, :c         Reset the session\n" ++
  "  :trace, :t         Toggle the per-step register trace\n" ++
  "  :disasm, :d        Disassemble the last compiled expression\n" ++
  "  :prelude, :p [f]   List host primitives (or just f)\n" ++
  "  :steps <n>         Set the step limit (0 removes it)\n" ++
  "\n" ++
  "Tips:\n" ++
  "  - Input continues on the next line until parentheses balance\n" ++
  "  - 'x reads as (QUOTE x)\n"

/-- The session goes on after the command. -/
def answer (session : Session) (output : String) : Except CommandError CommandResult × Session :=
  (.ok ⟨output, false⟩, session)

/-- Sets the limit of steps, or removes it, and says so. -/
def setStepLimit (session : Session) (limit : Option Nat) :
    Except CommandError CommandResult × Session :=
  let output := match limit with
    | some n => "step limit " ++ toString n ++ "\n"
    | none => "no step limit\n"
  { session with limits := { session.limits with maxSteps := limit } }.answer output

/-- Obeys a command, given as its words. Words after those that a command looks at are ignored. -/
def obey (session : Session) : List String → Except CommandError CommandResult × Session
  | [] => session.answer ""
  | name :: args =>
    match name with
    | ":quit" | ":q" => (.ok ⟨"Goodbye!\n", true⟩, session)
    | ":help" | ":h" => session.answer help
    | ":clear" | ":c" => start.answer "Session cleared.\n"
    | ":trace" | ":t" =>
      let tracing := !session.tracing
      { session with tracing := tracing }.answer (if tracing then "trace on\n" else "trace off\n")
    | ":disasm" | ":d" =>
      match session.lastModule with
      | some m => session.answer (Listing.ofModule m)
      | none => session.answer "Nothing compiled yet.\n"
    | ":prelude" | ":p" =>
      match args with
      | [] => session.answer (String.join (Primitive.all.map fun p => p.describe ++ "\n"))
      | wanted :: _ =>
        match Primitive.ofName? wanted with
        | some p => session.answer (p.describe ++ "\n")
        | none => (.error (.unknownPrimitive wanted), session)
    | ":steps" =>
      match args with
      | [] => session.setStepLimit none
      | digits :: _ =>
        match Text.number Text.maxWord digits with
        | .ok 0 => session.setStepLimit none
        | .ok n => session.setStepLimit (some n)
        | .error fault => (.error (.stepLimit fault), session)
    | _ => (.error (.unknownCommand name), session)

/-- Obeys the command in a line. -/
def command (session : Session) (line : String) : Except CommandError CommandResult × Session :=
  session.obey (Text.words line)

end Session

end Secd
