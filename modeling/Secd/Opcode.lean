import Secd.Operation
import Secd.Sexp

/-!
# Instructions

An instruction is a symbol in the list of code, followed by as many operands as it takes. The
operations of the source language are instructions of their own names.
-/

namespace Secd

/-- The instructions of the machine. -/
inductive Opcode where
  /-- Pushes a variable, given by its address. -/
  | ld
  /-- Pushes a constant. -/
  | ldc
  /-- Pushes the closure of a block. -/
  | ldf
  /-- Applies a function to a list of arguments. -/
  | ap
  /-- Returns from a function. -/
  | rtn
  /-- Puts a pending frame in front of the environment. -/
  | dum
  /-- Applies a function after giving the pending frame its values. -/
  | rap
  /-- Goes on with one of two blocks. -/
  | sel
  /-- Ends such a block. -/
  | join
  | unary (op : Unary)
  | binary (op : Binary)
  /-- Ends the program. -/
  | stop
deriving DecidableEq, Repr

namespace Opcode

/-- The symbol that stands for the instruction. -/
def mnemonic : Opcode → String
  | .ld => "LD"
  | .ldc => "LDC"
  | .ldf => "LDF"
  | .ap => "AP"
  | .rtn => "RTN"
  | .dum => "DUM"
  | .rap => "RAP"
  | .sel => "SEL"
  | .join => "JOIN"
  | .unary op => op.name
  | .binary op => op.name
  | .stop => "STOP"

/-- The instruction that a symbol stands for. -/
def ofName? : String → Option Opcode
  | "LD" => some .ld
  | "LDC" => some .ldc
  | "LDF" => some .ldf
  | "AP" => some .ap
  | "RTN" => some .rtn
  | "DUM" => some .dum
  | "RAP" => some .rap
  | "SEL" => some .sel
  | "JOIN" => some .join
  | "CAR" => some (.unary .car)
  | "CDR" => some (.unary .cdr)
  | "ATOM" => some (.unary .atom)
  | "CONS" => some (.binary .cons)
  | "EQ" => some (.binary .eq)
  | "ADD" => some (.binary (.arithmetic .add))
  | "SUB" => some (.binary (.arithmetic .sub))
  | "MUL" => some (.binary (.arithmetic .mul))
  | "DIV" => some (.binary (.arithmetic .div))
  | "REM" => some (.binary (.arithmetic .rem))
  | "LEQ" => some (.binary .leq)
  | "STOP" => some .stop
  | _ => none

/-- Every instruction is found by its symbol. -/
theorem ofName?_mnemonic (op : Opcode) : ofName? op.mnemonic = some op := by
  cases op with
  | unary op => cases op <;> rfl
  | binary op =>
    cases op with
    | arithmetic op => cases op <;> rfl
    | _ => rfl
  | _ => rfl

/-- Only the symbol of an instruction finds it. -/
theorem mnemonic_of_ofName? {name : String} {op : Opcode} (h : ofName? name = some op) :
    op.mnemonic = name := by
  unfold ofName? at h
  split at h
  all_goals cases h
  all_goals rfl

/-- The instruction that a value stands for. -/
def ofValue? : Value → Option Opcode
  | .symbol name => ofName? name
  | _ => none

/-- The symbol of the instruction as an item of a list of code. -/
def sexp (op : Opcode) : Sexp := .symbol op.mnemonic

/-- How many items after the symbol belong to the instruction. -/
def operandCount : Opcode → Nat
  | .ld | .ldc | .ldf => 1
  | .sel => 2
  | _ => 0

end Opcode

end Secd
