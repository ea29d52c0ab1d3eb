import Secd.CompileError
import Secd.Proofs.Sexp.Phrase
import Secd.Scope

/-!
# Well-formed programs

What a program has to be in order to be compiled, said without reference to how it is analysed. The
judgement follows the phrases of an expression: its names are bound, its forms have the operands
that belong to them, binders can be bound together, and a callable of the prelude that is called by
its name gets what it can take. Nothing is asked of a quoted expression.
-/

namespace Secd

/-- The names can be bound in one frame: they are all different and none of them is reserved. That
`NIL` cannot be bound need not be said, since it is the empty list and not a name. -/
structure Bindable (names : List String) : Prop where
  nodup : names.Nodup
  free : ∀ name ∈ names, Keyword.isReserved name = false

/-- The outermost scope binds the name, and none of the scopes inside does. -/
def Scopes.BindsOutermost (scopes : Scopes) (name : String) : Prop :=
  ∃ inner outermost, scopes = inner ++ [outermost] ∧ name ∈ outermost ∧
    ∀ frame ∈ inner, name ∉ frame

/-- The callable of this name can take the arguments: they are as many as it has parameters, and
none of them is a function of more parameters than a callable can have. -/
structure Prelude.Takes (prelude : Prelude) (name : String) (args : List Sexp) : Prop where
  arity : ∀ expected, prelude.arityOf? name = some expected → args.length = expected
  params : ∀ arg ∈ args, ∀ params body names, arg.phrase = .form .lambda [params, body] →
    params.params? = some names → names.length ≤ maxCallableArity

namespace Sexp

/-- The expression is well formed in the scopes. -/
inductive WellFormed (prelude : Option Prelude) : Scopes → Sexp → Prop where
  | constant {scopes : Scopes} {e : Sexp} {a : Atom} (hphrase : e.phrase = .constant a) :
      WellFormed prelude scopes e
  | variable {scopes : Scopes} {e : Sexp} {name : String} (hphrase : e.phrase = .variable name)
      (hbound : ∃ frame ∈ scopes, name ∈ frame) : WellFormed prelude scopes e
  | quote {scopes : Scopes} {e x : Sexp} (hphrase : e.phrase = .form .quote [x]) :
      WellFormed prelude scopes e
  | unary {scopes : Scopes} {e x : Sexp} {op : Unary} (hphrase : e.phrase = .form (.unary op) [x])
      (hx : WellFormed prelude scopes x) : WellFormed prelude scopes e
  | binary {scopes : Scopes} {e x y : Sexp} {op : Binary}
      (hphrase : e.phrase = .form (.binary op) [x, y]) (hx : WellFormed prelude scopes x)
      (hy : WellFormed prelude scopes y) : WellFormed prelude scopes e
  | conditional {scopes : Scopes} {e test yes no : Sexp}
      (hphrase : e.phrase = .form .if [test, yes, no]) (htest : WellFormed prelude scopes test)
      (hyes : WellFormed prelude scopes yes) (hno : WellFormed prelude scopes no) :
      WellFormed prelude scopes e
  | lambda {scopes : Scopes} {e params body : Sexp} {names : List String}
      (hphrase : e.phrase = .form .lambda [params, body]) (hparams : params.params? = some names)
      (hnames : Bindable names) (hbody : WellFormed prelude (names :: scopes) body) :
      WellFormed prelude scopes e
  | let {scopes : Scopes} {e bindings body : Sexp} {arms : List (String × Sexp)}
      (hphrase : e.phrase = .form .let [bindings, body]) (harms : bindings.arms? = some arms)
      (hnames : Bindable (arms.map Prod.fst))
      (hinits : ∀ init ∈ arms.map Prod.snd, WellFormed prelude scopes init)
      (hbody : WellFormed prelude (arms.map Prod.fst :: scopes) body) :
      WellFormed prelude scopes e
  | letrec {scopes : Scopes} {e bindings body : Sexp} {arms : List (String × Sexp)}
      (hphrase : e.phrase = .form .letrec [bindings, body]) (harms : bindings.arms? = some arms)
      (hnames : Bindable (arms.map Prod.fst))
      (hinits : ∀ init ∈ arms.map Prod.snd,
        WellFormed prelude (arms.map Prod.fst :: scopes) init)
      (hbody : WellFormed prelude (arms.map Prod.fst :: scopes) body) :
      WellFormed prelude scopes e
  | call {scopes : Scopes} {e function : Sexp} {args : List Sexp}
      (hphrase : e.phrase = .call function args) (hfunction : WellFormed prelude scopes function)
      (hargs : ∀ arg ∈ args, WellFormed prelude scopes arg)
      (htakes : ∀ p name, prelude = some p → function = .symbol name →
        scopes.BindsOutermost name → p.Takes name args) :
      WellFormed prelude scopes e

/-! ### The phrases one by one

An expression has one phrase only, so that each kind of phrase leaves a single rule. -/

section

variable {prelude : Option Prelude} {scopes : Scopes} {e : Sexp}

/-- A variable is well formed if it is bound. -/
theorem wellFormed_variable {name : String} (h : e.phrase = .variable name) :
    e.WellFormed prelude scopes ↔ ∃ frame ∈ scopes, name ∈ frame := by
  constructor
  · intro he
    cases he with
    | «variable» hphrase hbound =>
      cases h.symm.trans hphrase
      exact hbound
    | _ => simp_all
  · intro hbound
    exact .variable h hbound

/-- An operation with one operand is well formed if the operand is. -/
theorem wellFormed_unary {op : Unary} {x : Sexp} (h : e.phrase = .form (.unary op) [x]) :
    e.WellFormed prelude scopes ↔ x.WellFormed prelude scopes := by
  constructor
  · intro he
    cases he with
    | unary hphrase hx =>
      cases h.symm.trans hphrase
      exact hx
    | _ => simp_all
  · intro hx
    exact .unary h hx

/-- An operation with two operands is well formed if both of them are. -/
theorem wellFormed_binary {op : Binary} {x y : Sexp} (h : e.phrase = .form (.binary op) [x, y]) :
    e.WellFormed prelude scopes ↔ x.WellFormed prelude scopes ∧ y.WellFormed prelude scopes := by
  constructor
  · intro he
    cases he with
    | binary hphrase hx hy =>
      cases h.symm.trans hphrase
      exact ⟨hx, hy⟩
    | _ => simp_all
  · rintro ⟨hx, hy⟩
    exact .binary h hx hy

/-- A conditional is well formed if its three operands are. -/
theorem wellFormed_conditional {test yes no : Sexp} (h : e.phrase = .form .if [test, yes, no]) :
    e.WellFormed prelude scopes ↔ test.WellFormed prelude scopes ∧
      yes.WellFormed prelude scopes ∧ no.WellFormed prelude scopes := by
  constructor
  · intro he
    cases he with
    | conditional hphrase htest hyes hno =>
      cases h.symm.trans hphrase
      exact ⟨htest, hyes, hno⟩
    | _ => simp_all
  · rintro ⟨htest, hyes, hno⟩
    exact .conditional h htest hyes hno

/-- A function is well formed if its parameters can be bound and its body is well formed inside. -/
theorem wellFormed_lambda {params body : Sexp} (h : e.phrase = .form .lambda [params, body]) :
    e.WellFormed prelude scopes ↔ ∃ names, (params.params? = some names ∧ Bindable names) ∧
      body.WellFormed prelude (names :: scopes) := by
  constructor
  · intro he
    cases he with
    | lambda hphrase hparams hnames hbody =>
      cases h.symm.trans hphrase
      exact ⟨_, ⟨hparams, hnames⟩, hbody⟩
    | _ => simp_all
  · rintro ⟨names, ⟨hparams, hnames⟩, hbody⟩
    exact .lambda h hparams hnames hbody

/-- A `LET` is well formed if its binders can be bound, its initial values are well formed outside
and its body inside. -/
theorem wellFormed_let {bindings body : Sexp} (h : e.phrase = .form .let [bindings, body]) :
    e.WellFormed prelude scopes ↔ ∃ arms, (bindings.arms? = some arms ∧
      Bindable (arms.map Prod.fst)) ∧ body.WellFormed prelude (arms.map Prod.fst :: scopes) ∧
        ∀ init ∈ arms.map Prod.snd, init.WellFormed prelude scopes := by
  constructor
  · intro he
    cases he with
    | «let» hphrase harms hnames hinits hbody =>
      cases h.symm.trans hphrase
      exact ⟨_, ⟨harms, hnames⟩, hbody, hinits⟩
    | _ => simp_all
  · rintro ⟨arms, ⟨harms, hnames⟩, hbody, hinits⟩
    exact .let h harms hnames hinits hbody

/-- A `LETREC` is well formed if its binders can be bound, and its initial values and its body are
well formed inside. -/
theorem wellFormed_letrec {bindings body : Sexp} (h : e.phrase = .form .letrec [bindings, body]) :
    e.WellFormed prelude scopes ↔ ∃ arms, (bindings.arms? = some arms ∧
      Bindable (arms.map Prod.fst)) ∧ body.WellFormed prelude (arms.map Prod.fst :: scopes) ∧
        ∀ init ∈ arms.map Prod.snd, init.WellFormed prelude (arms.map Prod.fst :: scopes) := by
  constructor
  · intro he
    cases he with
    | letrec hphrase harms hnames hinits hbody =>
      cases h.symm.trans hphrase
      exact ⟨_, ⟨harms, hnames⟩, hbody, hinits⟩
    | _ => simp_all
  · rintro ⟨arms, ⟨harms, hnames⟩, hbody, hinits⟩
    exact .letrec h harms hnames hinits hbody

/-- A call is well formed if its function and its arguments are, and a callable of the prelude takes
the arguments. -/
theorem wellFormed_call {function : Sexp} {args : List Sexp}
    (h : e.phrase = .call function args) :
    e.WellFormed prelude scopes ↔ (∀ p name, prelude = some p → function = .symbol name →
      scopes.BindsOutermost name → p.Takes name args) ∧
        function.WellFormed prelude scopes ∧ ∀ arg ∈ args, arg.WellFormed prelude scopes := by
  constructor
  · intro he
    cases he with
    | call hphrase hfunction hargs htakes =>
      cases h.symm.trans hphrase
      exact ⟨htakes, hfunction, hargs⟩
    | _ => simp_all
  · rintro ⟨htakes, hfunction, hargs⟩
    exact .call h hfunction hargs htakes

/-- A list that does not end in the empty list is not well formed. -/
theorem not_wellFormed_improper (h : e.phrase = .improper) : ¬ e.WellFormed prelude scopes := by
  intro he
  cases he <;> simp_all

/-- A form is well formed only with the right number of operands. -/
theorem WellFormed.length_operands {keyword : Keyword} {operands : List Sexp}
    (he : e.WellFormed prelude scopes) (h : e.phrase = .form keyword operands) :
    operands.length = keyword.operandCount := by
  cases he <;> cases h.symm.trans ‹e.phrase = _› <;> rfl

end

end Sexp

end Secd
