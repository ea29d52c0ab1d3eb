import Secd.Module
import Secd.Text.Layout

/-!
# Listings

A listing shows code with one instruction on a line, numbered within its block. The block of a
function and the branches of a conditional are shown below their instruction, further to the right.
What is no instruction is shown after question marks.
-/

namespace Secd.Listing

/-- The beginning of a line: the indentation and the number of the instruction. -/
def margin (depth index : Nat) : String :=
  Text.indent depth ++ Text.padLeft 4 (toString index) ++ ": "

/-- The instruction that begins a block of a function, with the name of the block if it has one. -/
def blockHead (name : Option String) : String :=
  match name with
  | some name => Opcode.ldf.mnemonic ++ "  ; " ++ name
  | none => Opcode.ldf.mnemonic

/-- The lines for code from the instruction with number `index` on; `name?` finds the names of
blocks. -/
def lines (name? : Sexp → Option String) (depth index : Nat) : Sexp → List String
  | .nil => []
  | .atom a => [Text.indent depth ++ "??? . " ++ a.text]
  | .pair _ head rest =>
    let margin := margin depth index
    match Opcode.ofValue? head.value, rest with
    | none, rest => (margin ++ "??? " ++ head.render) :: lines name? depth (index + 1) rest
    | some .ldf, .pair _ block rest =>
      (margin ++ blockHead (name? block)) ::
        (lines name? (depth + 1) 0 block ++ lines name? depth (index + 1) rest)
    | some .sel, .pair _ yes (.pair _ no rest) =>
      (margin ++ Opcode.sel.mnemonic) :: (Text.indent (depth + 1) ++ "then:") ::
        (lines name? (depth + 2) 0 yes ++ (Text.indent (depth + 1) ++ "else:") ::
          (lines name? (depth + 2) 0 no ++ lines name? depth (index + 1) rest))
    | some .ld, .pair _ operand rest =>
      (margin ++ Opcode.ld.mnemonic ++ " " ++ operand.render) ::
        lines name? depth (index + 1) rest
    | some .ldc, .pair _ operand rest =>
      (margin ++ Opcode.ldc.mnemonic ++ " " ++ operand.render) ::
        lines name? depth (index + 1) rest
    | some op, rest =>
      if op.operandCount = 0 then
        (margin ++ op.mnemonic) :: lines name? depth (index + 1) rest
      else
        [margin ++ op.mnemonic ++ " ???"]

/-- A text of lines, each of them ended. -/
def text (lines : List String) : String :=
  String.join (lines.map (· ++ "\n"))

/-- The listing of code without names. -/
def ofCode (code : Sexp) : String :=
  text (lines (fun _ => none) 0 0 code)

/-- The word for a shape. -/
def shapeName : Shape → String
  | .expression => "expression"
  | .applied => "applied"

/-- The listing of a module: its shape, the names of its functions, and its code. -/
def ofModule (m : Module) : String :=
  text <|
    ["=== Module Disassembly ===",
      "shape: " ++ shapeName m.shape ++ ", prelude: " ++ toString m.usesPrelude,
      "",
      "Named closures (" ++ toString m.named.length ++ "):"] ++
    m.named.map (fun n => "  " ++ n.name) ++
    ["", "Code:"] ++
    lines m.closureName? 1 0 m.code

end Secd.Listing
