import Secd.Opcode

/-!
# Keywords

The symbols that make a list a form of the language when they stand at its head. They are reserved:
no variable can have the name of one.
-/

namespace Secd

/-- The keywords of the language. -/
inductive Keyword where
  | quote | lambda | «let» | letrec | «if»
  | unary (op : Unary)
  | binary (op : Binary)
deriving DecidableEq, Repr

namespace Keyword

/-- The symbol of the keyword. -/
def name : Keyword → String
  | .quote => "QUOTE"
  | .lambda => "LAMBDA"
  | .let => "LET"
  | .letrec => "LETREC"
  | .if => "IF"
  | .unary op => op.name
  | .binary op => op.name

/-- The keyword with a given symbol. -/
def ofName? : String → Option Keyword
  | "QUOTE" => some .quote
  | "LAMBDA" => some .lambda
  | "LET" => some .let
  | "LETREC" => some .letrec
  | "IF" => some .if
  | "ADD" => some (.binary (.arithmetic .add))
  | "SUB" => some (.binary (.arithmetic .sub))
  | "MUL" => some (.binary (.arithmetic .mul))
  | "DIV" => some (.binary (.arithmetic .div))
  | "REM" => some (.binary (.arithmetic .rem))
  | "EQ" => some (.binary .eq)
  | "LEQ" => some (.binary .leq)
  | "CAR" => some (.unary .car)
  | "CDR" => some (.unary .cdr)
  | "ATOM" => some (.unary .atom)
  | "CONS" => some (.binary .cons)
  | _ => none

/-- Every keyword is found by its symbol. -/
theorem ofName?_name (k : Keyword) : ofName? k.name = some k := by
  cases k with
  | unary op => cases op <;> rfl
  | binary op =>
    cases op with
    | arithmetic op => cases op <;> rfl
    | _ => rfl
  | _ => rfl

/-- Only the symbol of a keyword finds it. -/
theorem name_of_ofName? {name : String} {k : Keyword} (h : ofName? name = some k) :
    k.name = name := by
  unfold ofName? at h
  split at h
  all_goals cases h
  all_goals rfl

/-- The keyword that an expression is the symbol of. -/
def ofSexp? : Sexp → Option Keyword
  | .symbol name => ofName? name
  | _ => none

/-- Whether the name belongs to a keyword. -/
def isReserved (name : String) : Bool := (ofName? name).isSome

/-- How many operands a form with this keyword has. -/
def operandCount : Keyword → Nat
  | .quote => 1
  | .lambda | .let | .letrec => 2
  | .if => 3
  | .unary _ => 1
  | .binary _ => 2

/-- The instruction that applies the operation of the keyword. -/
def opcode? : Keyword → Option Opcode
  | .unary op => some (.unary op)
  | .binary op => some (.binary op)
  | _ => none

end Keyword

/-- Whether the expression is a list with the keyword `LAMBDA` at its head. -/
def Sexp.isLambdaForm : Sexp → Bool
  | .pair _ head _ => Keyword.ofSexp? head = some .lambda
  | .atom _ => false

end Secd
