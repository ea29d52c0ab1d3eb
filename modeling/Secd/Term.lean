import Secd.Operation
import Secd.Scope

/-!
# Terms

A term is an expression of the language after its forms have been recognised and its names resolved:
all that is left to do is to write down the instructions. A `LET` is the application of a function
to the values that it binds, and has no term of its own.
-/

namespace Secd

/-- A well-formed expression with its variables resolved. -/
inductive Term where
  | constant (value : Sexp)
  | variable (address : Address)
  | unary (op : Unary) (operand : Term)
  /-- The operands are in the order in which they are evaluated. -/
  | binary (op : Binary) (earlier later : Term)
  | conditional (test yes no : Term)
  | lambda (params : List String) (body : Term)
  | apply (function : Term) (args : List Term)
  | letrec (names : List String) (inits : List Term) (body : Term)
deriving Inhabited

end Secd
