import Secd.CompileError
import Secd.Datum.Reading
import Secd.Term

/-!
# From expressions to terms

The analysis recognises the forms of an expression and resolves its names. It does not stop at the
first fault: the parts of a form are analysed independently of each other and their faults are put
together, in an order that is fixed for each form. Only where a list of binders is at fault are the
expressions in its scope left alone, since their names would have no meaning.
-/

namespace Secd

/-- A result, or at least one error. -/
abbrev Checked (α : Type) := Except (List CompileError) α

namespace Checked

/-- Both results, or the errors of both, those of the first part first. -/
def both {α β : Type} : Checked α → Checked β → Checked (α × β)
  | .ok a, .ok b => .ok (a, b)
  | .ok _, .error f => .error f
  | .error e, .ok _ => .error e
  | .error e, .error f => .error (e ++ f)

/-- Both parts have a result exactly if each of them has one. -/
theorem both_eq_ok_iff {α β : Type} {x : Checked α} {y : Checked β} {a : α} {b : β} :
    both x y = .ok (a, b) ↔ x = .ok a ∧ y = .ok b := by
  cases x <;> cases y <;> simp [both]

/-- A single error. -/
def fail {α : Type} (fault : CompileFault) (span : Option Span) : Checked α :=
  .error [⟨fault, span⟩]

/-- A single malformation. -/
def malformed {α : Type} (detail : Malformation) (span : Option Span) : Checked α :=
  fail (.malformedForm detail) span

/-- Nothing, or the given errors if there are any. -/
def require : List CompileError → Checked Unit
  | [] => .ok ()
  | errors => .error errors

end Checked

namespace Term

/-- What stays the same during the analysis of an expression: the spans of its parts, and the
prelude whose names are the outermost frame. -/
structure Context where
  map : SourceMap
  prelude : Option Prelude

/-- What stands for the name in each arm of a binding list. An arm is a list of a name and an
expression. -/
def armNames (map : SourceMap) : List (Nat × Sexp) → Checked (List Sexp)
  | [] => .ok []
  | (cell, arm) :: rest =>
    match arm.items? with
    | some [(_, name), _] => (armNames map rest).map (name :: ·)
    | _ => Checked.malformed (.binding arm) (map.headSpan? cell)

/-- The names that a binding list binds. -/
def boundNames (map : SourceMap) (bindings : Sexp) (span : Option Span) :
    Checked (List String) :=
  match bindings.items? with
  | none => Checked.malformed .improperBindings span
  | some items => do
    match Binder.names (← armNames map items) with
    | .ok names => .ok names
    | .error fault => Checked.malformed (.binders fault) span

/-- The errors of a call that can be seen from the names alone: a callable of the prelude that is
called by its name takes a known number of arguments, and none of them may be a function of more
parameters than a callable can have. -/
def callErrors (cx : Context) (scopes : Scopes) (span : Option Span) (function : Sexp)
    (args : List (Nat × Sexp)) : List CompileError :=
  match cx.prelude, function with
  | some prelude, .symbol name =>
    match scopes.locate? name with
    | none => []
    | some address =>
      if scopes.isOutermost address then
        let arityErrors := match prelude.arityOf? name with
          | some expected =>
            if expected = args.length then []
            else [⟨.arityMismatch name expected args.length, span⟩]
          | none => []
        let argErrors := args.filterMap fun (cell, arg) =>
          let params := ((arg.second?).bind Sexp.length?).getD 0
          if arg.isLambdaForm ∧ maxCallableArity < params then
            some ⟨.excessArity params, cx.map.headSpan? cell⟩
          else
            none
        arityErrors ++ argErrors
      else
        []
  | _, _ => []

mutual

/-- The term of an expression that was written at `span`. -/
def ofSexp (cx : Context) (scopes : Scopes) (span : Option Span) : Sexp → Checked Term
  | .symbol name =>
    match scopes.locate? name with
    | some address => .ok (.variable address)
    | none => Checked.fail (.undeclaredIdentifier name) span
  | .atom a => .ok (.constant (.atom a))
  | .pair cell head tail =>
    match Keyword.ofSexp? head, tail.items? with
    | some keyword, some operands =>
      if operands.length = keyword.operandCount then
        ofForm cx scopes keyword tail
      else
        Checked.malformed (.operandCount keyword operands.length) span
    | some keyword, none => Checked.malformed (.improperForm keyword) span
    | none, some args =>
      let functionSpan := cx.map.headSpan? cell
      let call := callErrors cx scopes functionSpan head args
      let function := ofSexp cx scopes functionSpan head
      let operands := ofOperands cx scopes tail
      (Checked.both (Checked.require call) (Checked.both function operands)).map
        fun ((), function, operands) => .apply function operands
    | none, none => Checked.malformed (.improperApplication (.pair cell head tail)) span

/-- The term of a form, given its operands in the right number. -/
def ofForm (cx : Context) (scopes : Scopes) : Keyword → Sexp → Checked Term
  | .quote, .pair _ e _ => .ok (.constant e)
  | .unary op, .pair a x _ =>
    (ofSexp cx scopes (cx.map.headSpan? a) x).map (.unary op)
  | .binary op, .pair a x (.pair b y _) =>
    let first := ofSexp cx scopes (cx.map.headSpan? a) x
    let second := ofSexp cx scopes (cx.map.headSpan? b) y
    if op.leftFirst then
      (Checked.both second first).map fun (second, first) => .binary op first second
    else
      (Checked.both first second).map fun (first, second) => .binary op second first
  | .if, .pair a test (.pair b yes (.pair c no _)) =>
    let test := ofSexp cx scopes (cx.map.headSpan? a) test
    let yes := ofSexp cx scopes (cx.map.headSpan? b) yes
    let no := ofSexp cx scopes (cx.map.headSpan? c) no
    (Checked.both yes (Checked.both no test)).map
      fun (yes, no, test) => .conditional test yes no
  | .lambda, .pair a params (.pair b body _) =>
    match Binder.ofList params with
    | .ok names =>
      (ofSexp cx (names :: scopes) (cx.map.headSpan? b) body).map (.lambda names)
    | .error fault => Checked.malformed (.binders fault) (cx.map.headSpan? a)
  | .let, .pair a bindings (.pair b body _) => do
    let names ← boundNames cx.map bindings (cx.map.headSpan? a)
    let body := ofSexp cx (names :: scopes) (cx.map.headSpan? b) body
    let inits := ofArms cx scopes bindings
    (Checked.both body inits).map fun (body, inits) => .apply (.lambda names body) inits
  | .letrec, .pair a bindings (.pair b body _) => do
    let names ← boundNames cx.map bindings (cx.map.headSpan? a)
    let body := ofSexp cx (names :: scopes) (cx.map.headSpan? b) body
    let inits := ofArms cx (names :: scopes) bindings
    (Checked.both body inits).map fun (body, inits) => .letrec names inits body
  | keyword, operands =>
    Checked.malformed (.operandCount keyword (operands.length?.getD 0)) none

/-- The terms of the items of a list. -/
def ofOperands (cx : Context) (scopes : Scopes) : Sexp → Checked (List Term)
  | .pair cell e rest =>
    (Checked.both (ofSexp cx scopes (cx.map.headSpan? cell) e) (ofOperands cx scopes rest)).map
      fun (first, others) => first :: others
  | .atom _ => .ok []

/-- The terms of the initial values in a binding list. -/
def ofArms (cx : Context) (scopes : Scopes) : Sexp → Checked (List Term)
  | .pair _ (.pair _ _ (.pair cell e _)) rest =>
    (Checked.both (ofSexp cx scopes (cx.map.headSpan? cell) e) (ofArms cx scopes rest)).map
      fun (first, others) => first :: others
  | _ => .ok []

end

end Term

end Secd
