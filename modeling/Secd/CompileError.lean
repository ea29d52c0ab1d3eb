import Secd.Binder
import Secd.Diagnostic
import Secd.Primitive
import Secd.Text.Quoted

/-!
# Faults of programs

What the compiler objects to. Every fault is about one expression, and carries the span where that
expression was written if it was read from a text.
-/

namespace Secd

/-- The ways in which a list fails to be a form of the language. -/
inductive Malformation where
  | improperForm (keyword : Keyword)
  | operandCount (keyword : Keyword) (got : Nat)
  | improperApplication (e : Sexp)
  | improperBindings
  | binding (arm : Sexp)
  | binders (fault : BinderFault)
deriving Repr

/-- The message for each of them. -/
def Malformation.message : Malformation → String
  | .improperForm keyword => keyword.name ++ " form is not a proper list"
  | .operandCount keyword got =>
    keyword.name ++ " expects " ++ toString keyword.operandCount ++ " operand(s), got " ++
      toString got
  | .improperApplication e => "application is not a proper list: " ++ e.render
  | .improperBindings => "binding list is not a proper list"
  | .binding arm => "binding must be (name expr), found " ++ arm.render
  | .binders fault => fault.message

/-- The largest number of parameters that a host callable can have. -/
def maxCallableArity : Nat := 4

/-- What is wrong with an expression. -/
inductive CompileFault where
  | undeclaredIdentifier (name : String)
  | arityMismatch (name : String) (expected got : Nat)
  | excessArity (params : Nat)
  | malformedForm (detail : Malformation)
deriving Repr

namespace CompileFault

/-- The message for each fault. -/
def message : CompileFault → String
  | .undeclaredIdentifier name => "undeclared identifier '" ++ name ++ "'"
  | .arityMismatch name expected got => Primitive.arityMessage name expected got
  | .excessArity params =>
    "a function of " ++ toString params ++
      " parameters cannot be passed to a primitive (at most " ++ toString maxCallableArity ++ ")"
  | .malformedForm detail => "malformed form: " ++ detail.message

/-- The name of the fault with what it carries. -/
def describe : CompileFault → String
  | .undeclaredIdentifier name => "UndeclaredIdentifier(" ++ Text.quote name ++ ")"
  | .arityMismatch name expected got =>
    "ArityMismatch \x7b name: " ++ Text.quote name ++ ", expected: " ++ toString expected ++
      ", got: " ++ toString got ++ " \x7d"
  | .excessArity params => "ExcessArity \x7b params: " ++ toString params ++ " \x7d"
  | .malformedForm detail => "MalformedForm(" ++ Text.quote detail.message ++ ")"

end CompileFault

/-- A fault and where the expression was written. -/
structure CompileError where
  fault : CompileFault
  span : Option Span
deriving Repr

namespace CompileError

/-- Whether the first of two errors comes before the second one in a report, or may do so: the one
that begins earlier in the text comes first, and those without a place come last. -/
def notAfter (a b : CompileError) : Bool :=
  match a.span, b.span with
  | some x, some y => x.start ≤ y.start
  | _, none => true
  | none, some _ => false

/-- Puts an error in front of the first one that it may come before. -/
def insert (e : CompileError) : List CompileError → List CompileError
  | [] => [e]
  | f :: rest => if e.notAfter f then e :: f :: rest else f :: e.insert rest

/-- The errors in the order of a report. Errors that begin at the same place keep their order. -/
def sort : List CompileError → List CompileError
  | [] => []
  | e :: rest => e.insert (sort rest)

/-- The diagnostic for an error in a text whose only datum has the span `root`. -/
def diagnostic (root : Option Span) (e : CompileError) : Diagnostic :=
  ⟨e.fault.message, (e.span.or root).getD ⟨0, 0⟩⟩

end CompileError

end Secd
