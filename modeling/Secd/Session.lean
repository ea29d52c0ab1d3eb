import Secd.Machine.Run
import Secd.Reader
import Secd.Report

/-!
# Interactive sessions

A session evaluates lines of program text. Every datum of a line is compiled on its own, with the
primitives of the host in scope, and run at once; the value of the last one is the value of the
line, and the first that fails ends the line. Nothing is carried over from one line to the next but
the settings and the last module, which can be listed.
-/

namespace Secd

/-- The state of a session. -/
structure Session where
  prelude : Prelude
  limits : Limits
  tracing : Bool
  lastModule : Option Module
  /-- What traces have written since they were last shown. -/
  transcript : Transcript
  store : Store

/-- Why a line has no value. -/
inductive EvalError where
  | syntaxError (diagnostics : List Diagnostic)
  | compileErrors (diagnostics : List Diagnostic)
  | fault (fault : Fault)
deriving Repr

namespace EvalError

/-- The name under which reports show a line of a session. -/
def path : String := "<repl>"

/-- The text that is shown for an error in a line. There is none if a report cannot be drawn. -/
def text? (line : String) : EvalError → Option String
  | .syntaxError ds => Diagnostic.reports? ds path line "Parsing failed" 3
  | .compileErrors ds => Diagnostic.reports? ds path line "Compilation failed" 4
  | .fault f => some ("Runtime Error: " ++ f.message ++ "\n" ++ f.kind.describe)

end EvalError

namespace Session

/-- A new session, with nothing but the primitives. -/
def start : Session :=
  match Prelude.standard .empty with
  | (prelude, s) => ⟨prelude, {}, false, none, .empty, s⟩

/-- Runs a machine, with a trace if the session asks for one. -/
def runMachine (session : Session) (fuel : Nat) (m : Machine) :
    Option (Outcome × Machine × Transcript) :=
  if session.tracing then
    m.runTraced fuel session.transcript
  else
    (m.run fuel).map fun (outcome, m) => (outcome, m, session.transcript)

/-- Compiles and runs one datum; `none` if the run has not ended after `fuel` steps. -/
def evalReading (session : Session) (fuel : Nat) (r : Reading) :
    Option (Except EvalError Value × Session) :=
  match Module.compile r.expression r.map .expression (some session.prelude) session.store with
  | (.error errors, s) =>
    let diagnostics := errors.map (CompileError.diagnostic r.map.root)
    some (.error (.compileErrors diagnostics), { session with store := s })
  | (.ok m, s) =>
    match session.prelude.env s with
    | (env, s) =>
      let machine := (Machine.idle s session.limits).load m.code.value .nil env
      match session.runMachine fuel machine with
      | none => none
      | some (outcome, machine, transcript) =>
        let session := { session with
          lastModule := some m
          transcript := transcript
          store := machine.store }
        match outcome with
        | .halted v => some (.ok v, session)
        | .faulted f => some (.error (.fault f), session)

/-- Evaluates one datum after the other, up to the first that fails. The result is the value of the
last one, or `last` if there is none. -/
def evalReadings (session : Session) (fuel : Nat) (last : Option Value) :
    List Reading → Option (Except EvalError (Option Value) × Session)
  | [] => some (.ok last, session)
  | r :: rest =>
    match session.evalReading fuel r with
    | none => none
    | some (.error e, session) => some (.error e, session)
    | some (.ok v, session) => session.evalReadings fuel (some v) rest

/-- Evaluates a line; a line of blanks has no value. -/
def evalLine (session : Session) (fuel : Nat) (line : String) :
    Option (Except EvalError (Option Value) × Session) :=
  if Text.allBlank line then
    some (.ok none, session)
  else
    match Reader.readAll line session.store with
    | (.error ds, s) => some (.error (.syntaxError ds), { session with store := s })
    | (.ok readings, s) => { session with store := s }.evalReadings fuel none readings

/-- Takes out what traces have written. -/
def takeTrace (session : Session) : String × Session :=
  match session.transcript.drain with
  | (text, transcript) => (text, { session with transcript := transcript })

end Session

end Secd
