import Secd.Text.Number

/-!
# The command line

What the program is asked to do: a subcommand with its options. Options and other arguments may be
mixed; after two dashes everything is taken literally. The value of an option follows it, or is
joined to it by an equals sign; only joined values may begin with a dash. No option may be given
twice.
-/

namespace Secd

/-- A source file and how to compile it. -/
structure SourceOptions where
  file : String
  applied : Bool
  prelude : Bool
deriving DecidableEq, Repr

/-- How to run a module. -/
structure MachineOptions where
  /-- The list of arguments, as program text. -/
  args : String
  maxSteps : Option Nat
  maxDump : Option Nat
  trace : Bool
deriving DecidableEq, Repr

/-- The subcommands. -/
inductive CommandLine where
  /-- Compiles and runs a source file. -/
  | run (source : SourceOptions) (machine : MachineOptions)
  /-- Compiles a source file into a module file. -/
  | compile (source : SourceOptions) (out : Option String)
  /-- Runs a module file. -/
  | exec (file : String) (machine : MachineOptions)
  /-- Lists a source file or a module file. -/
  | disasm (source : SourceOptions)
  /-- Begins a dialogue. -/
  | repl
deriving DecidableEq, Repr

namespace CommandLine

/-- The options without a value. -/
inductive Switch where
  | applied | prelude | trace
deriving DecidableEq, Repr

/-- The options with a value. -/
inductive Setting where
  | args | maxSteps | maxDump | out
deriving DecidableEq, Repr

/-- The options that a subcommand takes. -/
structure Allowed where
  switches : List Switch
  settings : List Setting

/-- The arguments of a subcommand, sorted. -/
structure Arguments where
  files : List String := []
  switches : List Switch := []
  settings : List (Setting × String) := []

/-- The long name of an option without a value. -/
def Switch.name : Switch → String
  | .applied => "applied"
  | .prelude => "prelude"
  | .trace => "trace"

/-- The long name of an option with a value. -/
def Setting.name : Setting → String
  | .args => "args"
  | .maxSteps => "max-steps"
  | .maxDump => "max-dump"
  | .out => "out"

/-- The short name of an option with a value. -/
def Setting.short? : Setting → Option Char
  | .out => some 'o'
  | _ => none

namespace Arguments

/-- Notes an option without a value, if it is the first time. -/
def switch? (a : Arguments) (s : Switch) : Option Arguments :=
  if s ∈ a.switches then none else some { a with switches := s :: a.switches }

/-- Notes an option with its value, if it is the first time. -/
def setting? (a : Arguments) (s : Setting) (value : String) : Option Arguments :=
  if s ∈ a.settings.map Prod.fst then none
  else some { a with settings := (s, value) :: a.settings }

/-- The value of an option. -/
def find? (a : Arguments) (s : Setting) : Option String :=
  a.settings.lookup s

/-- Whether an option was given. -/
def has (a : Arguments) (s : Switch) : Bool := s ∈ a.switches

end Arguments

/-- The parts of an argument. -/
inductive Word where
  /-- Two dashes. -/
  | escape
  | long (name : String) (value : Option String)
  /-- A dash, a letter, and what is joined to them. -/
  | short (name : Char) (value : Option String)
  | file (text : String)
deriving DecidableEq, Repr

/-- Takes an argument apart. A single dash is no option. -/
def Word.ofArgument (text : String) : Word :=
  match text.toList with
  | ['-', '-'] => .escape
  | '-' :: '-' :: rest =>
    let name := rest.takeWhile (· != '=')
    match rest.drop name.length with
    | [] => .long (String.ofList name) none
    | _ :: value => .long (String.ofList name) (some (String.ofList value))
  | ['-', c] => .short c none
  | '-' :: c :: '=' :: value => .short c (some (String.ofList value))
  | '-' :: c :: value => .short c (some (String.ofList value))
  | _ => .file text

/-- What an argument means to a subcommand. -/
inductive Item where
  /-- All that follows is to be taken literally. -/
  | escape
  | file (text : String)
  | switch (s : Switch)
  | setting (s : Setting) (value : Option String)
  | unknown
deriving DecidableEq, Repr

/-- The meaning of the parts of an argument, given the options that may be there. -/
def Item.ofWord (allowed : Allowed) : Word → Item
  | .escape => .escape
  | .file text => .file text
  | .short name value =>
    match allowed.settings.find? fun s => s.short? = some name with
    | some s => .setting s value
    | none => .unknown
  | .long name value =>
    match allowed.settings.find? fun s => s.name = name with
    | some s => .setting s value
    | none =>
      match allowed.switches.find? fun s => s.name = name, value with
      | some s, none => .switch s
      | _, _ => .unknown

/-- Sorts the arguments of a subcommand; `none` if one of them cannot be there. -/
def sort (allowed : Allowed) (a : Arguments) : List String → Option Arguments
  | [] => some a
  | text :: rest =>
    match Item.ofWord allowed (Word.ofArgument text), rest with
    | .escape, rest => some { a with files := a.files ++ rest }
    | .file file, rest => sort allowed { a with files := a.files ++ [file] } rest
    | .switch s, rest => do sort allowed (← a.switch? s) rest
    | .setting s (some value), rest => do sort allowed (← a.setting? s value) rest
    | .setting s none, value :: rest =>
      match Word.ofArgument value with
      | .file value => do sort allowed (← a.setting? s value) rest
      | _ => none
    | .setting _ none, [] => none
    | .unknown, _ => none

/-- The only file among the arguments. -/
def Arguments.file? (a : Arguments) : Option String :=
  match a.files with
  | [file] => if file.isEmpty then none else some file
  | _ => none

/-- The options of a source file. -/
def Arguments.source? (a : Arguments) : Option SourceOptions := do
  some ⟨← a.file?, a.has .applied, a.has .prelude⟩

/-- The number that is the value of an option, if the option was given. -/
def Arguments.number? (a : Arguments) (s : Setting) : Option (Option Nat) :=
  match a.find? s with
  | none => some none
  | some text =>
    match Text.number Text.maxWord text with
    | .ok n => some (some n)
    | .error _ => none

/-- The options of a machine. -/
def Arguments.machine? (a : Arguments) : Option MachineOptions := do
  let maxSteps ← a.number? .maxSteps
  let maxDump ← a.number? .maxDump
  some ⟨(a.find? .args).getD "NIL", maxSteps, maxDump, a.has .trace⟩

/-- The arguments of the program as a subcommand; `none` if they are not understood. -/
def parse? : List String → Option CommandLine
  | "run" :: rest => do
    let a ← sort ⟨[.applied, .prelude, .trace], [.args, .maxSteps, .maxDump]⟩ {} rest
    some (.run (← a.source?) (← a.machine?))
  | "compile" :: rest => do
    let a ← sort ⟨[.applied, .prelude], [.out]⟩ {} rest
    match a.find? .out with
    | some "" => none
    | out => some (.compile (← a.source?) out)
  | "exec" :: rest => do
    let a ← sort ⟨[.trace], [.args, .maxSteps, .maxDump]⟩ {} rest
    some (.exec (← a.file?) (← a.machine?))
  | "disasm" :: rest => do
    let a ← sort ⟨[.applied, .prelude], []⟩ {} rest
    some (.disasm (← a.source?))
  | "repl" :: rest => do
    let a ← sort ⟨[], []⟩ {} rest
    if a.files.isEmpty then some .repl else none
  | _ => none

end CommandLine

end Secd
