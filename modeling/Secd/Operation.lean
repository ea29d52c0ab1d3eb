import Secd.Integer

/-!
# Operations

The operations that the source language and the machine have in common: a form applies one to its
operands, and an instruction of the same name applies it to the top of the stack.
-/

namespace Secd

/-- The operations on two integers that give an integer. -/
inductive Arithmetic where
  | add | sub | mul | div | rem
deriving DecidableEq, Repr

namespace Arithmetic

/-- The name of the operation, in forms and in instructions. -/
def name : Arithmetic → String
  | .add => "ADD"
  | .sub => "SUB"
  | .mul => "MUL"
  | .div => "DIV"
  | .rem => "REM"

/-- Whether the operation divides by its second operand. -/
def divides : Arithmetic → Bool
  | .div | .rem => true
  | _ => false

/-- The result of the operation, if it is a machine integer. -/
def compute? : Arithmetic → Int64 → Int64 → Option Int64
  | .add => Integer.add?
  | .sub => Integer.sub?
  | .mul => Integer.mul?
  | .div => Integer.quot?
  | .rem => Integer.rem?

end Arithmetic

/-- The operations with one operand. -/
inductive Unary where
  | car | cdr | atom
deriving DecidableEq, Repr

/-- The name of the operation, in forms and in instructions. -/
def Unary.name : Unary → String
  | .car => "CAR"
  | .cdr => "CDR"
  | .atom => "ATOM"

/-- The operations with two operands. -/
inductive Binary where
  | arithmetic (op : Arithmetic)
  | eq | leq | cons
deriving DecidableEq, Repr

namespace Binary

/-- The name of the operation, in forms and in instructions. -/
def name : Binary → String
  | .arithmetic op => op.name
  | .eq => "EQ"
  | .leq => "LEQ"
  | .cons => "CONS"

/-- Whether the form evaluates its first operand before its second one. The others evaluate the
second operand first, so that the first one ends up on top of the stack. -/
def leftFirst : Binary → Bool
  | .arithmetic _ => true
  | _ => false

end Binary

end Secd
