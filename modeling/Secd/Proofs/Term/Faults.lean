import Secd.Proofs.Term.Decided

/-!
# The faults of an expression and those of its parts

The analysis goes on after a fault. What it objects to in an expression are the faults of the
expressions in it, each analysed for itself in its own scopes, and nothing else: a conditional whose
operands have three faults is reported with three. Only a call has faults of its own as well, when a
callable of the prelude cannot take the arguments. The order in which faults are found differs from
form to form, so that lists of them are compared up to order.
-/

namespace Secd

namespace Checked

variable {α β : Type}

/-- The errors, of which a result has none. -/
def errors : Checked α → List CompileError
  | .ok _ => []
  | .error errors => errors

/-- Something may be computed from the result. -/
@[simp] theorem errors_map (x : Checked α) (f : α → β) : errors (x.map f) = x.errors := by
  cases x <;> rfl

/-- Both parts have their errors. -/
@[simp] theorem errors_both (x : Checked α) (y : Checked β) :
    (both x y).errors = x.errors ++ y.errors := by
  cases x <;> cases y <;> simp [both, errors]

/-- Errors that must not be there are the only ones. -/
@[simp] theorem errors_require (found : List CompileError) : (require found).errors = found := by
  cases found <;> rfl

/-- The property holds of all errors. -/
def AllErrors (P : CompileError → Prop) (x : Checked α) : Prop := ∀ e ∈ x.errors, P e

section

variable {P : CompileError → Prop}

/-- A result has no errors. -/
theorem allErrors_ok (a : α) : AllErrors P (.ok a : Checked α) := List.forall_mem_nil _

/-- There may be a single error. -/
theorem allErrors_fail {fault : CompileFault} {span : Option Span} (h : P ⟨fault, span⟩) :
    AllErrors P (fail fault span : Checked α) :=
  List.forall_mem_singleton.2 h

/-- Errors that must not be there are the only ones. -/
theorem allErrors_require {found : List CompileError} (h : ∀ e ∈ found, P e) :
    AllErrors P (require found) := by
  rw [AllErrors, errors_require]
  exact h

/-- Something may be computed from the result. -/
theorem AllErrors.map {x : Checked α} (h : AllErrors P x) (f : α → β) :
    AllErrors P (Except.map f x) := by
  intro e he
  rw [errors_map] at he
  exact h e he

/-- The errors of both parts are those of each. -/
theorem AllErrors.both {x : Checked α} {y : Checked β} (h : AllErrors P x) (h' : AllErrors P y) :
    AllErrors P (both x y) := by
  intro e he
  rw [errors_both] at he
  exact (List.mem_append.1 he).elim (h e) (h' e)

/-- The errors of two steps are those of the first, or else those of the second. -/
theorem AllErrors.bind {x : Checked α} {f : α → Checked β} (h : AllErrors P x)
    (hf : ∀ a, AllErrors P (f a)) : AllErrors P (x >>= f) := by
  cases x with
  | ok a => exact hf a
  | error errors => exact h

end

/-- What decides a statement has no errors exactly if the statement holds. -/
theorem Decides.errors_eq_nil_iff {x : Checked α} {P : Prop} (hx : Decides x P) :
    x.errors = [] ↔ P := by
  rw [← hx.exists_ok]
  cases x with
  | ok a => exact iff_of_true rfl ⟨a, rfl⟩
  | error found =>
    refine iff_of_false (fun h => hx.ne_error_nil (congrArg Except.error h)) ?_
    rintro ⟨a, ha⟩
    cases ha

end Checked

namespace CompileError

/-- Inserting an error puts it among the others. -/
theorem perm_insert (e : CompileError) (errors : List CompileError) :
    (e.insert errors).Perm (e :: errors) := by
  induction errors with
  | nil => exact List.Perm.refl _
  | cons f rest ih =>
    rw [insert]
    split
    · exact List.Perm.refl _
    · exact (ih.cons f).trans (List.Perm.swap e f rest)

/-- Sorting only changes the order of errors. -/
theorem perm_sort (errors : List CompileError) : (sort errors).Perm errors := by
  induction errors with
  | nil => exact List.Perm.refl _
  | cons e rest ih => exact (perm_insert e (sort rest)).trans (ih.cons e)

end CompileError

namespace Sexp

/-- The list of the given items, each in its cell. -/
def ofItems : List (Nat × Sexp) → Sexp
  | [] => .nil
  | (cell, e) :: rest => .pair cell e (ofItems rest)

/-- The items of the list are the given ones. -/
@[simp] theorem items?_ofItems (items : List (Nat × Sexp)) :
    (ofItems items).items? = some items := by
  induction items with
  | nil => rfl
  | cons item rest ih =>
    obtain ⟨cell, e⟩ := item
    rw [ofItems, items?_pair, ih]
    rfl

/-- The initial values in a list of bindings, each with its cell. -/
def initials : Sexp → List (Nat × Sexp)
  | .pair _ (.pair _ _ (.pair cell e _)) rest => (cell, e) :: initials rest
  | _ => []

end Sexp

namespace Term

open Sexp

/-- The faults of an expression that was written at `span`. -/
def faults (cx : Context) (scopes : Scopes) (span : Option Span) (e : Sexp) : List CompileError :=
  (ofSexp cx scopes span e).errors

variable {cx : Context}

/-- Exactly the well-formed expressions have no faults. -/
theorem faults_eq_nil_iff {scopes : Scopes} {span : Option Span} {e : Sexp} :
    faults cx scopes span e = [] ↔ e.WellFormed cx.prelude scopes :=
  (decides_ofSexp scopes span e).errors_eq_nil_iff

/-! ### The parts of an expression -/

/-- An expression inside another one, in the head of a cell, with the scopes it stands in. -/
structure Part where
  scopes : Scopes
  cell : Nat
  e : Sexp

namespace Part

/-- The items of a list, all in the same scopes. -/
def ofItems (scopes : Scopes) (items : List (Nat × Sexp)) : List Part :=
  items.map fun (cell, e) => ⟨scopes, cell, e⟩

/-- The faults of the expression, which was written where the source map has the head of its
cell. -/
def faults (cx : Context) (part : Part) : List CompileError :=
  Term.faults cx part.scopes (cx.map.headSpan? part.cell) part.e

end Part

/-- The expression divides into parts that are analysed for themselves. Apart from these it has the
faults of its own that are given: in a call, those that show from the names alone. -/
inductive Divides (cx : Context) (scopes : Scopes) :
    Sexp → (own : List CompileError) → List Part → Prop where
  | unary (op : Unary) (cell a : Nat) (x : Sexp) :
      Divides cx scopes (ofItems [(cell, .symbol op.name), (a, x)]) []
        (Part.ofItems scopes [(a, x)])
  | binary (op : Binary) (cell a b : Nat) (x y : Sexp) :
      Divides cx scopes (ofItems [(cell, .symbol op.name), (a, x), (b, y)]) []
        (Part.ofItems scopes [(a, x), (b, y)])
  | conditional (cell a b c : Nat) (test yes no : Sexp) :
      Divides cx scopes (ofItems [(cell, .symbol "IF"), (a, test), (b, yes), (c, no)]) []
        (Part.ofItems scopes [(a, test), (b, yes), (c, no)])
  | lambda (cell a b : Nat) {params : Sexp} (body : Sexp) {names : List String}
      (hparams : params.params? = some names) (hnames : Bindable names) :
      Divides cx scopes (ofItems [(cell, .symbol "LAMBDA"), (a, params), (b, body)]) []
        (Part.ofItems (names :: scopes) [(b, body)])
  | let (cell a b : Nat) {bindings : Sexp} (body : Sexp) {arms : List (String × Sexp)}
      (harms : bindings.arms? = some arms) (hnames : Bindable (arms.map Prod.fst)) :
      Divides cx scopes (ofItems [(cell, .symbol "LET"), (a, bindings), (b, body)]) []
        (Part.ofItems scopes bindings.initials ++
          Part.ofItems (arms.map Prod.fst :: scopes) [(b, body)])
  | letrec (cell a b : Nat) {bindings : Sexp} (body : Sexp) {arms : List (String × Sexp)}
      (harms : bindings.arms? = some arms) (hnames : Bindable (arms.map Prod.fst)) :
      Divides cx scopes (ofItems [(cell, .symbol "LETREC"), (a, bindings), (b, body)]) []
        (Part.ofItems (arms.map Prod.fst :: scopes) (bindings.initials ++ [(b, body)]))
  | call (cell : Nat) {function : Sexp} (args : List (Nat × Sexp))
      (hfunction : Keyword.ofSexp? function = none) :
      Divides cx scopes (ofItems ((cell, function) :: args))
        (callErrors cx scopes (cx.map.headSpan? cell) function args)
        (Part.ofItems scopes ((cell, function) :: args))

/-! ### The faults of the parts -/

/-- The faults of the items of a list, one after the other. -/
theorem errors_ofOperands (scopes : Scopes) (items : List (Nat × Sexp)) :
    (ofOperands cx scopes (ofItems items)).errors =
      (Part.ofItems scopes items).flatMap (Part.faults cx) := by
  induction items with
  | nil => rfl
  | cons item rest ih =>
    obtain ⟨cell, e⟩ := item
    rw [ofItems, ofOperands, Checked.errors_map, Checked.errors_both, ih]
    rfl

/-- The faults of the initial values in a list of bindings, one after the other. -/
theorem errors_ofArms (scopes : Scopes) (bindings : Sexp) :
    (ofArms cx scopes bindings).errors =
      (Part.ofItems scopes bindings.initials).flatMap (Part.faults cx) := by
  induction bindings using initials.induct with
  | case1 a b name cell e last rest ih =>
    rw [ofArms, Checked.errors_map, Checked.errors_both, ih]
    rfl
  | case2 bindings hshape =>
    rw [initials.eq_2 bindings hshape, ofArms.eq_2 cx scopes bindings hshape]
    rfl

/-- The form of a keyword with the right number of operands has the faults that are found in the
operands. -/
theorem faults_form {scopes : Scopes} {span : Option Span} {cell : Nat} (keyword : Keyword)
    {operands : List (Nat × Sexp)} (hcount : operands.length = keyword.operandCount) :
    faults cx scopes span (ofItems ((cell, .symbol keyword.name) :: operands)) =
      (ofForm cx scopes keyword (ofItems operands)).errors := by
  have hkeyword : Keyword.ofSexp? (.symbol keyword.name) = some keyword := keyword.ofName?_name
  rw [faults, ofItems, ofSexp, hkeyword, items?_ofItems]
  dsimp only
  rw [if_pos hcount]

/-- An expression has its own faults and those of all its parts, each part being analysed for
itself. -/
theorem perm_faults_of_divides {scopes : Scopes} {e : Sexp} {own : List CompileError}
    {parts : List Part} (h : Divides cx scopes e own parts) (span : Option Span) :
    (faults cx scopes span e).Perm (own ++ parts.flatMap (Part.faults cx)) := by
  cases h with
  | unary op cell a x =>
    refine (List.Perm.of_eq (faults_form (.unary op) rfl)).trans ?_
    simp [Sexp.ofItems, ofForm, Part.ofItems, Part.faults, faults]
  | binary op cell a b x y =>
    refine (List.Perm.of_eq (faults_form (.binary op) rfl)).trans ?_
    rw [Sexp.ofItems, Sexp.ofItems, ofForm]
    split
    · simpa [Part.ofItems, Part.faults, faults] using List.perm_append_comm
    · simp [Part.ofItems, Part.faults, faults]
  | conditional cell a b c test yes no =>
    refine (List.Perm.of_eq (faults_form .if rfl)).trans ?_
    rw [Sexp.ofItems, Sexp.ofItems, Sexp.ofItems, ofForm, Checked.errors_map, Checked.errors_both,
      Checked.errors_both, ← List.append_assoc]
    simp only [Part.ofItems, Part.faults, faults, List.map_cons, List.map_nil, List.flatMap_cons,
      List.flatMap_nil, List.append_nil, List.nil_append]
    -- the test is analysed last
    exact List.perm_append_comm
  | lambda cell a b body hparams hnames =>
    have hbound := Binder.ofList_eq_ok_iff.2 ⟨hparams, hnames⟩
    refine (List.Perm.of_eq (faults_form .lambda rfl)).trans ?_
    simp [Sexp.ofItems, ofForm, hbound, Part.ofItems, Part.faults, faults]
  | «let» cell a b body harms hnames =>
    have hbound : boundNames cx.map _ (cx.map.headSpan? a) = .ok _ :=
      boundNames_eq_ok_iff.2 ⟨_, harms, rfl, hnames⟩
    refine (List.Perm.of_eq (faults_form .let rfl)).trans ?_
    -- the body is analysed before the initial values
    rw [Sexp.ofItems, Sexp.ofItems, ofForm, hbound, List.nil_append, List.flatMap_append,
      ← errors_ofArms]
    simpa [bind, Except.bind, Part.ofItems, Part.faults, faults] using List.perm_append_comm
  | letrec cell a b body harms hnames =>
    have hbound : boundNames cx.map _ (cx.map.headSpan? a) = .ok _ :=
      boundNames_eq_ok_iff.2 ⟨_, harms, rfl, hnames⟩
    refine (List.Perm.of_eq (faults_form .letrec rfl)).trans ?_
    rw [Sexp.ofItems, Sexp.ofItems, ofForm, hbound, List.nil_append, Part.ofItems, List.map_append,
      List.flatMap_append, ← Part.ofItems, ← errors_ofArms]
    simpa [bind, Except.bind, Part.ofItems, Part.faults, faults] using List.perm_append_comm
  | call cell args hfunction =>
    rw [faults, Sexp.ofItems, ofSexp, hfunction, items?_ofItems]
    dsimp only
    rw [Checked.errors_map, Checked.errors_both, Checked.errors_require, Checked.errors_both,
      errors_ofOperands]
    exact List.Perm.refl _

end Term

end Secd
