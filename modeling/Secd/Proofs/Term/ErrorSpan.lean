import Secd.Module
import Secd.Proofs.Term.Faults

/-!
# The spans of compile errors

Every error of the analysis is about the whole expression, and then carries its span, or about the
head of some cell, and then carries the span that the source map has for that cell. So whatever
holds of these spans holds of the spans of all errors.
-/

namespace Secd

namespace Checked

/-- The property holds of the spans of all errors. -/
def ErrorsAt {α : Type} (P : Option Span → Prop) (r : Checked α) : Prop :=
  ∀ errors, r = .error errors → ∀ e ∈ errors, P e.span

section

variable {α β : Type} {P : Option Span → Prop}

/-- It does so if it holds of the spans of the errors that are found. -/
theorem errorsAt_iff {x : Checked α} : ErrorsAt P x ↔ AllErrors (fun e => P e.span) x := by
  constructor
  · intro h e he
    cases x with
    | ok a => cases he
    | error errors => exact h errors rfl e he
  · rintro h errors rfl e he
    exact h e he

/-- A result has no errors. -/
theorem errorsAt_ok (a : α) : ErrorsAt P (.ok a : Checked α) :=
  errorsAt_iff.2 (allErrors_ok a)

/-- A single error is at its span. -/
theorem errorsAt_fail {fault : CompileFault} {span : Option Span} (h : P span) :
    ErrorsAt P (fail fault span : Checked α) :=
  errorsAt_iff.2 (allErrors_fail h)

/-- A single malformation is at its span. -/
theorem errorsAt_malformed {detail : Malformation} {span : Option Span} (h : P span) :
    ErrorsAt P (malformed detail span : Checked α) :=
  errorsAt_fail h

/-- Errors that are required not to be there are the only ones. -/
theorem errorsAt_require {errors : List CompileError} (h : ∀ e ∈ errors, P e.span) :
    ErrorsAt P (require errors) :=
  errorsAt_iff.2 (allErrors_require h)

/-- The errors of two parts are those of each. -/
theorem ErrorsAt.both {x : Checked α} {y : Checked β} (hx : ErrorsAt P x) (hy : ErrorsAt P y) :
    ErrorsAt P (both x y) :=
  errorsAt_iff.2 ((errorsAt_iff.1 hx).both (errorsAt_iff.1 hy))

/-- A function of the result changes no errors. -/
theorem ErrorsAt.map {x : Checked α} (hx : ErrorsAt P x) (f : α → β) :
    ErrorsAt P (Except.map f x) :=
  errorsAt_iff.2 ((errorsAt_iff.1 hx).map f)

/-- The errors of two steps are those of the first, or else those of the second. -/
theorem ErrorsAt.bind {x : Checked α} {f : α → Checked β} (hx : ErrorsAt P x)
    (hf : ∀ a, ErrorsAt P (f a)) : ErrorsAt P (x >>= f) :=
  errorsAt_iff.2 ((errorsAt_iff.1 hx).bind fun a => errorsAt_iff.1 (hf a))

end

end Checked

namespace Term

open Checked

variable {P : Option Span → Prop} {cx : Context}

/-- The errors of the arms of a binding list are at their cells. -/
theorem errorsAt_armNames {map : SourceMap} (hmap : ∀ cell, P (map.headSpan? cell))
    (arms : List (Nat × Sexp)) : ErrorsAt P (armNames map arms) := by
  induction arms with
  | nil => exact errorsAt_ok _
  | cons arm rest ih =>
    rw [armNames]
    split
    · exact ih.map _
    · exact errorsAt_malformed (hmap _)

/-- The errors of a binding list are at its span and at the cells of its arms. -/
theorem errorsAt_boundNames {map : SourceMap} (hmap : ∀ cell, P (map.headSpan? cell))
    (bindings : Sexp) {span : Option Span} (hspan : P span) :
    ErrorsAt P (boundNames map bindings span) := by
  unfold boundNames
  split
  · exact errorsAt_malformed hspan
  · refine (errorsAt_armNames hmap _).bind ?_
    intro names
    split
    · exact errorsAt_ok _
    · exact errorsAt_malformed hspan

/-- The errors of a call are at the function and at the cells of the arguments. -/
theorem span_of_mem_callErrors (hmap : ∀ cell, P (cx.map.headSpan? cell)) {scopes : Scopes}
    {span : Option Span} (hspan : P span) {function : Sexp} {args : List (Nat × Sexp)}
    {e : CompileError} (he : e ∈ callErrors cx scopes span function args) : P e.span := by
  unfold callErrors at he
  split at he
  · split at he
    · cases he
    split at he
    · rcases List.mem_append.1 he with harity | hexcess
      · split at harity
        · split at harity
          · cases harity
          · obtain rfl := List.mem_singleton.1 harity
            exact hspan
        · cases harity
      · obtain ⟨⟨cell, arg⟩, -, hsome⟩ := List.mem_filterMap.1 hexcess
        dsimp only at hsome
        split at hsome
        · cases hsome
          exact hmap cell
        · cases hsome
    · cases he
  · cases he

mutual

/-- The errors of an expression are at its span and at cells of the source map. -/
theorem errorsAt_ofSexp (hmap : ∀ cell, P (cx.map.headSpan? cell)) (scopes : Scopes)
    {span : Option Span} (hspan : P span) : (e : Sexp) → ErrorsAt P (ofSexp cx scopes span e)
  | .atom a => by
    cases a with
    | symbol name =>
      rw [ofSexp]
      split
      · exact errorsAt_ok _
      · exact errorsAt_fail hspan
    | nil => exact errorsAt_ok _
    | int n => exact errorsAt_ok _
    | callable c => exact errorsAt_ok _
  | .pair cell head tail => by
    rw [ofSexp]
    split
    · next operands _ hoperands =>
      split
      · next hcount => exact errorsAt_ofForm hmap scopes _ tail hoperands hcount
      · exact errorsAt_malformed hspan
    · exact errorsAt_malformed hspan
    · have hfunction := errorsAt_ofSexp hmap scopes (hmap cell) head
      have hargs := errorsAt_ofOperands hmap scopes tail
      refine ((errorsAt_require ?_).both (hfunction.both hargs)).map _
      intro e he
      exact span_of_mem_callErrors hmap (hmap cell) he
    · exact errorsAt_malformed hspan

/-- The errors of a form are at cells of the source map, if the form has the right number of
operands. -/
theorem errorsAt_ofForm (hmap : ∀ cell, P (cx.map.headSpan? cell)) (scopes : Scopes) :
    (keyword : Keyword) → (tail : Sexp) → {operands : List (Nat × Sexp)} →
      tail.items? = some operands → operands.length = keyword.operandCount →
      ErrorsAt P (ofForm cx scopes keyword tail)
  | keyword, .atom a, operands, hitems, hcount => by
    obtain ⟨-, rfl⟩ := Sexp.items?_atom hitems
    cases keyword <;> cases hcount
  | .quote, .pair _ e _, _, _, _ => errorsAt_ok _
  | .unary op, .pair a x _, _, _, _ => (errorsAt_ofSexp hmap scopes (hmap a) x).map _
  | .binary op, .pair a x (.pair b y _), _, _, _ => by
    have hfirst := errorsAt_ofSexp hmap scopes (hmap a) x
    have hsecond := errorsAt_ofSexp hmap scopes (hmap b) y
    rw [ofForm]
    split
    · exact (hsecond.both hfirst).map _
    · exact (hfirst.both hsecond).map _
  | .if, .pair a test (.pair b yes (.pair c no _)), _, _, _ => by
    have htest := errorsAt_ofSexp hmap scopes (hmap a) test
    have hyes := errorsAt_ofSexp hmap scopes (hmap b) yes
    have hno := errorsAt_ofSexp hmap scopes (hmap c) no
    exact (hyes.both (hno.both htest)).map _
  | .lambda, .pair a params (.pair b body _), _, _, _ => by
    rw [ofForm]
    split
    · exact (errorsAt_ofSexp hmap _ (hmap b) body).map _
    · exact errorsAt_malformed (hmap a)
  | .let, .pair a bindings (.pair b body _), _, _, _ => by
    rw [ofForm]
    refine (errorsAt_boundNames hmap bindings (hmap a)).bind ?_
    intro names
    have hbody := errorsAt_ofSexp hmap (names :: scopes) (hmap b) body
    exact (hbody.both (errorsAt_ofArms hmap scopes bindings)).map _
  | .letrec, .pair a bindings (.pair b body _), _, _, _ => by
    rw [ofForm]
    refine (errorsAt_boundNames hmap bindings (hmap a)).bind ?_
    intro names
    have hbody := errorsAt_ofSexp hmap (names :: scopes) (hmap b) body
    exact (hbody.both (errorsAt_ofArms hmap (names :: scopes) bindings)).map _
  | .binary _, .pair _ _ (.atom _), _, hitems, hcount
  | .if, .pair _ _ (.atom _), _, hitems, hcount
  | .lambda, .pair _ _ (.atom _), _, hitems, hcount
  | .let, .pair _ _ (.atom _), _, hitems, hcount
  | .letrec, .pair _ _ (.atom _), _, hitems, hcount => by
    obtain ⟨rest, hrest, rfl⟩ := Sexp.items?_pair_eq_some hitems
    obtain ⟨-, rfl⟩ := Sexp.items?_atom hrest
    cases hcount
  | .if, .pair _ _ (.pair _ _ (.atom _)), _, hitems, hcount => by
    obtain ⟨rest, hrest, rfl⟩ := Sexp.items?_pair_eq_some hitems
    obtain ⟨last, hlast, rfl⟩ := Sexp.items?_pair_eq_some hrest
    obtain ⟨-, rfl⟩ := Sexp.items?_atom hlast
    cases hcount

/-- The errors of the items of a list are at its cells. -/
theorem errorsAt_ofOperands (hmap : ∀ cell, P (cx.map.headSpan? cell)) (scopes : Scopes) :
    (list : Sexp) → ErrorsAt P (ofOperands cx scopes list)
  | .atom _ => errorsAt_ok _
  | .pair cell e rest =>
    ((errorsAt_ofSexp hmap scopes (hmap cell) e).both
      (errorsAt_ofOperands hmap scopes rest)).map _

/-- The errors of the initial values of a binding list are at its cells. -/
theorem errorsAt_ofArms (hmap : ∀ cell, P (cx.map.headSpan? cell)) (scopes : Scopes) :
    (bindings : Sexp) → ErrorsAt P (ofArms cx scopes bindings)
  | .pair _ (.pair _ _ (.pair cell e _)) rest =>
    ((errorsAt_ofSexp hmap scopes (hmap cell) e).both (errorsAt_ofArms hmap scopes rest)).map _
  | .atom _ => errorsAt_ok _
  | .pair _ (.atom _) _ => errorsAt_ok _
  | .pair _ (.pair _ _ (.atom _)) _ => errorsAt_ok _

end

end Term

namespace CompileError

/-- Sorting keeps all errors. -/
theorem mem_sort {f : CompileError} {errors : List CompileError} :
    f ∈ sort errors ↔ f ∈ errors := (perm_sort errors).mem_iff

end CompileError

namespace Module

/-- The errors of a program are at the span of the whole or at cells of the source map. -/
theorem span_of_compile_error {P : Option Span → Prop} {e : Sexp} {map : SourceMap} {shape : Shape}
    {prelude : Option Prelude} {s : Store} {errors : List CompileError}
    (hmap : ∀ cell, P (map.headSpan? cell)) (hroot : P map.root)
    (hcompile : (compile e map shape prelude s).1 = .error errors) :
    ∀ error ∈ errors, P error.span := by
  have hanalyse : analyse e map prelude = .error errors := by
    unfold compile at hcompile
    split at hcompile
    · cases hcompile
    · next found heq =>
      cases hcompile
      exact heq
  intro error herror
  dsimp only [analyse] at hanalyse
  generalize hterm : Term.ofSexp _ _ _ _ = result at hanalyse
  cases result with
  | error found =>
    cases hanalyse
    exact Term.errorsAt_ofSexp hmap _ hroot e found hterm error
      (CompileError.mem_sort.1 herror)
  | ok t => cases hanalyse

end Module

end Secd
