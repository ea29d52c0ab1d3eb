import Secd.CommandLine
import Secd.CommandLine.Job
import Secd.Machine.Run
import Secd.Module.Format
import Secd.Module.Listing
import Secd.Reader
import Secd.Report
import Secd.Text.Utf8

/-!
# Executing subcommands

Each subcommand but the dialogue is a job that ends with an exit: the code of the program, and what
it has written. A failure is told on the error output, and the code is then 1; it is 101 if no
text tells the failure.
-/

namespace Secd

/-- How the program ends. -/
structure Exit where
  code : Nat
  output : String
  errors : String
deriving DecidableEq, Repr

/-- Why a subcommand has failed. -/
inductive Failure where
  | read (path reason : String)
  | save (path : String) (error : ModuleError)
  | load (path : String) (error : ModuleError)
  /-- The source file is no program. -/
  | source (path text : String) (diagnostics : List Diagnostic)
  /-- The list of arguments is no program text. -/
  | args (text : String) (diagnostics : List Diagnostic)
  | fault (fault : Fault)
deriving Repr

/-- The text that tells a failure. There is none if a report cannot be drawn, and none for an error
about which nothing is told. -/
def Failure.text? : Failure → Option String
  | .read path reason => some ("failed to read " ++ path ++ ": " ++ reason)
  | .save path error => error.message?.map (("failed to save " ++ path ++ ": ") ++ ·)
  | .load path error => error.message?.map (("failed to load " ++ path ++ ": ") ++ ·)
  | .source path text ds => Diagnostic.reports? ds path text "Compilation failed" 4
  | .args text ds => Diagnostic.reports? ds "<args>" text "Invalid argument list" 3
  | .fault f => some ("Runtime Error: " ++ f.message)

namespace Exit

/-- The exit after `output` has been written and nothing has failed. -/
def success (output : String) : Exit := ⟨0, output, ""⟩

/-- The exit after `output` has been written and something has failed. -/
def failure (output : String) (f : Failure) : Exit :=
  match f.text? with
  | some text => ⟨1, output, text ++ "\n"⟩
  | none => ⟨101, output, ""⟩

end Exit

namespace CommandLine

/-! ## Paths -/

/-- The last part of a path, without slashes and single dots at its end. -/
def fileName? (path : String) : Option String :=
  match ((path.splitOn "/").reverse).dropWhile fun part => part = "" ∨ part = "." with
  | [] => none
  | last :: _ => if last = ".." then none else some last

/-- The name of a file before its last dot and what comes after it; a dot at the beginning does not
count. -/
def splitExtension (name : String) : String × Option String :=
  let reversed := name.toList.reverse
  let extension := reversed.takeWhile (· != '.')
  match reversed.drop extension.length with
  | [] => (name, none)
  | ['.'] => (name, none)
  | _ :: stem => (String.ofList stem.reverse, some (String.ofList extension.reverse))

/-- The extension of module files. -/
def moduleExtension : String := "secdb"

/-- Whether a path has the extension of module files. -/
def isModulePath (path : String) : Bool :=
  match fileName? path with
  | some name => (splitExtension name).2 == some moduleExtension
  | none => false

/-- The path of a file with the extension of module files in place of its own. -/
def modulePath (path : String) : String :=
  match (path.splitOn "/").reverse with
  | [] => path
  | name :: folders =>
    let name := (splitExtension name).1 ++ "." ++ moduleExtension
    String.intercalate "/" (name :: folders).reverse

/-! ## Subcommands -/

/-- The limits that the options set. -/
def limits (o : MachineOptions) : Limits :=
  let default : Limits := {}
  ⟨o.maxSteps, o.maxDump.getD default.maxDump⟩

/-- The module of a source text. -/
def compileText (o : SourceOptions) (text : String) : Except Failure (Module × Store) :=
  let shape := if o.applied then Shape.applied else Shape.expression
  match Reader.readOne text .empty with
  | (.error ds, _) => .error (.source o.file text ds)
  | (.ok r, s) =>
    let (standard, s) := Prelude.standard s
    let prelude := if o.prelude then some standard else none
    match Module.compile r.expression r.map shape prelude s with
    | (.ok m, s) => .ok (m, s)
    | (.error errors, _) =>
      .error (.source o.file text (errors.map (CompileError.diagnostic r.map.root)))

/-- The module of a source file with the given bytes. -/
def compileBytes (o : SourceOptions) (bytes : Except String (List UInt8)) :
    Except Failure (Module × Store) :=
  match bytes with
  | .error reason => .error (.read o.file reason)
  | .ok bytes =>
    match Utf8.decode bytes with
    | .error _ => .error (.read o.file "stream did not contain valid UTF-8")
    | .ok text => compileText o text

/-- The module in a module file with the given bytes. -/
def loadBytes (path : String) (bytes : Except String (List UInt8)) :
    Except Failure (Module × Store) :=
  match bytes with
  | .error reason => .error (.load path (.io reason))
  | .ok bytes => (Module.decode bytes .empty).mapError (Failure.load path)

/-- Runs a module, and shows its result; `none` if that does not end within `fuel` steps. -/
def execute (fuel : Nat) (o : MachineOptions) (m : Module) (s : Store) : Option Exit :=
  match Reader.readOne o.args s with
  | (.error ds, _) => some (.failure "" (.args o.args ds))
  | (.ok r, s) =>
    let machine := Machine.ofModule m r.expression.value (limits o) s
    let ended :=
      if o.trace then
        machine.runTraced fuel .empty
      else
        (machine.run fuel).map fun (outcome, machine) => (outcome, machine, .empty)
    ended.map fun (outcome, machine, transcript) =>
      match outcome with
      | .halted v => .success (transcript.text ++ machine.store.render v ++ "\n")
      | .faulted f => .failure transcript.text (.fault f)

/-- Goes on with a module, unless there is none. -/
def withModule (found : Except Failure (Module × Store))
    (next : Module → Store → Job (Option Exit)) : Job (Option Exit) :=
  match found with
  | .ok (m, s) => next m s
  | .error f => .done (some (.failure "" f))

/-- Writes a module file. -/
def save (path : String) (m : Module) : Job (Option Exit) :=
  match m.encode with
  | .error e => .done (some (.failure "" (.save path e)))
  | .ok bytes => .write path bytes fun written =>
    match written with
    | .ok () => .done (some (.success ("wrote " ++ path ++ "\n")))
    | .error reason => .done (some (.failure "" (.save path (.io reason))))

/-- Lists a module. -/
def list (m : Module) : Job (Option Exit) :=
  .done (some (.success (Listing.ofModule m)))

/-- The job of a subcommand; the dialogue has none. It ends without an exit if a program does not
end within `fuel` steps. -/
def job? (fuel : Nat) : CommandLine → Option (Job (Option Exit))
  | .run source machine => some <| .read source.file fun bytes =>
    withModule (compileBytes source bytes) fun m s => .done (execute fuel machine m s)
  | .compile source out => some <| .read source.file fun bytes =>
    withModule (compileBytes source bytes) fun m _ =>
      save (out.getD (modulePath source.file)) m
  | .exec file machine => some <| .read file fun bytes =>
    withModule (loadBytes file bytes) fun m s => .done (execute fuel machine m s)
  | .disasm source => some <| .read source.file fun bytes =>
    let found :=
      if isModulePath source.file then loadBytes source.file bytes else compileBytes source bytes
    withModule found fun m _ => list m
  | .repl => none

end CommandLine

end Secd
