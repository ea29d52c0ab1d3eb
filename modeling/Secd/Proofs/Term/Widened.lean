import Secd.Proofs.Term.Admissible
import Secd.Proofs.Term.Faults

/-!
# More names in scope

A prelude puts its names around an expression, as the outermost frame. The variables that were bound
without it keep their addresses, since these are counted from the inside, and what is called by such
a name is not checked against the prelude, because an inner frame binds it. So an expression that
has a term has the same one with a prelude. An expression that has a term only with the prelude has
no fault without it other than the names that the prelude brings.
-/

namespace Secd

namespace Checked

/-- What there is without a prelude and with one: a result stays as it is, and if there is a result
with the prelude, the property holds of all errors that there are without it. -/
structure Widens {α : Type} (P : CompileError → Prop) (x y : Checked α) : Prop where
  eq_ok : ∀ a, x = .ok a → y = .ok a
  errors : ∀ b, y = .ok b → ∀ e ∈ x.errors, P e

variable {α β : Type} {P : CompileError → Prop}

/-- A result stays as it is. -/
theorem widens_ok (a : α) : Widens P (.ok a : Checked α) (.ok a) := by
  refine ⟨fun _ h => h, fun b _ e he => ?_⟩
  cases he

/-- There may be errors in both cases. -/
theorem widens_error (es fs : List CompileError) : Widens P (.error es : Checked α) (.error fs) :=
  ⟨nofun, nofun⟩

/-- Something may be computed from the result. -/
theorem Widens.map {x y : Checked α} (h : Widens P x y) (f : α → β) :
    Widens P (Except.map f x) (Except.map f y) := by
  constructor
  · intro b hb
    cases x with
    | ok a =>
      rw [h.eq_ok a rfl]
      exact hb
    | error es => cases hb
  · intro b hb
    rw [errors_map]
    cases y with
    | ok a => exact h.errors a rfl
    | error es => cases hb

/-- Both parts may be put together. -/
theorem Widens.both {x y : Checked α} {x' y' : Checked β} (h : Widens P x y)
    (h' : Widens P x' y') : Widens P (both x x') (both y y') := by
  constructor
  · rintro ⟨a, b⟩ hab
    obtain ⟨ha, hb⟩ := both_eq_ok_iff.1 hab
    exact both_eq_ok_iff.2 ⟨h.eq_ok a ha, h'.eq_ok b hb⟩
  · rintro ⟨a, b⟩ hab e he
    obtain ⟨ha, hb⟩ := both_eq_ok_iff.1 hab
    rw [errors_both] at he
    exact (List.mem_append.1 he).elim (h.errors a ha e) (h'.errors b hb e)

/-- The prelude may matter only after a first step. -/
theorem Widens.bind (x : Checked α) {f g : α → Checked β} (h : ∀ a, Widens P (f a) (g a)) :
    Widens P (x >>= f) (x >>= g) := by
  cases x with
  | ok a => exact h a
  | error es => exact widens_error es es

/-- Nothing may be required without a prelude, and something with it if that is so whenever there is
a result without the prelude. -/
theorem Widens.require {found : List CompileError} {x y : Checked α} (h : Widens P x y)
    (hfound : ∀ a, x = .ok a → found = []) :
    Widens P (Checked.both (require []) x) (Checked.both (require found) y) := by
  constructor
  · rintro ⟨⟨⟩, a⟩ ha
    obtain ⟨-, hx⟩ := both_eq_ok_iff.1 ha
    rw [hfound a hx]
    exact both_eq_ok_iff.2 ⟨rfl, h.eq_ok a hx⟩
  · rintro ⟨⟨⟩, b⟩ hb e he
    obtain ⟨-, hy⟩ := both_eq_ok_iff.1 hb
    rw [errors_both] at he
    exact h.errors b hy e he

end Checked

namespace Scopes

variable {scopes : Scopes} {frame : List String} {name : String} {a : Address}

/-- A variable keeps its address if there are more names outside. -/
theorem locate?_append (h : scopes.locate? name = some a) (outer : Scopes) :
    Scopes.locate? (scopes ++ outer) name = some a := by
  induction scopes generalizing a with
  | nil => cases h
  | cons first scopes ih =>
    rw [locate?] at h
    rw [List.cons_append, locate?]
    split at h
    · exact h
    · obtain ⟨b, hb, rfl⟩ := Option.map_eq_some_iff.1 h
      rw [ih hb]
      rfl

/-- A name that is bound only because there is one more frame is in that frame. -/
theorem mem_of_locate?_append (hnone : scopes.locate? name = none)
    (h : Scopes.locate? (scopes ++ [frame]) name = some a) : name ∈ frame := by
  by_contra hfree
  have hnowhere : Scopes.locate? (scopes ++ [frame]) name = none := by
    rw [locate?_eq_none_iff, List.forall_mem_append, List.forall_mem_singleton]
    exact ⟨(locate?_eq_none_iff scopes name).1 hnone, hfree⟩
  rw [hnowhere] at h
  cases h

/-- A variable that is bound inside is not in the outermost frame. -/
theorem isOutermost_append (h : scopes.locate? name = some a) :
    Scopes.isOutermost (scopes ++ [frame]) a = false := by
  have hlt := (lt_of_locate? h).1
  rw [isOutermost, List.length_append, List.length_singleton, beq_eq_false_iff_ne]
  omega

end Scopes

namespace CompileError

/-- The error is that one of the names is not bound. -/
def Misses (names : List String) (e : CompileError) : Prop :=
  ∃ name ∈ names, e.fault = .undeclaredIdentifier name

end CompileError

namespace Term

open Checked CompileError

variable {map : SourceMap} {p : Prelude}

/-- The prelude objects to no call of what has a term without it. -/
theorem callErrors_eq_nil_of_ok {scopes : Scopes} {span span' : Option Span} {function : Sexp}
    {t : Term} (h : ofSexp ⟨map, none⟩ scopes span function = .ok t) (args : List (Nat × Sexp)) :
    callErrors ⟨map, some p⟩ (scopes ++ [p.names]) span' function args = [] := by
  rw [callErrors.eq_def]
  split
  · next prelude name hprelude =>
    rw [ofSexp] at h
    split at h
    · next a hlocate =>
      have houter : Scopes.isOutermost (scopes ++ [p.names]) a = false :=
        Scopes.isOutermost_append hlocate
      rw [Scopes.locate?_append hlocate]
      dsimp only
      rw [if_neg (Bool.eq_false_iff.1 houter)]
    · cases h
  · rfl

mutual

/-- An expression has the same term with a prelude as without it. If it has a term only with the
prelude, it misses names of the prelude and has no other faults. -/
theorem widens_ofSexp (scopes : Scopes) (span : Option Span) : (e : Sexp) →
    Widens (Misses p.names) (ofSexp ⟨map, none⟩ scopes span e)
      (ofSexp ⟨map, some p⟩ (scopes ++ [p.names]) span e)
  | .atom (.symbol name) => by
    rw [ofSexp, ofSexp]
    cases hlocate : scopes.locate? name with
    | some a =>
      rw [Scopes.locate?_append hlocate]
      exact widens_ok _
    | none =>
      cases hlocate' : Scopes.locate? (scopes ++ [p.names]) name with
      | some a =>
        refine ⟨nofun, fun _ _ e he => ?_⟩
        obtain rfl := List.mem_singleton.1 he
        exact ⟨name, Scopes.mem_of_locate?_append hlocate hlocate', rfl⟩
      | none => exact widens_error _ _
  | .atom .nil => widens_ok _
  | .atom (.int n) => widens_ok _
  | .atom (.callable c) => widens_ok _
  | .pair cell head tail => by
    rw [ofSexp, ofSexp]
    split
    · split
      · exact widens_ofForm scopes _ tail
      · exact widens_error _ _
    · exact widens_error _ _
    · have hfunction := widens_ofSexp scopes (map.headSpan? cell) head
      have hargs := widens_ofOperands scopes tail
      refine ((hfunction.both hargs).require ?_).map _
      rintro ⟨function, operands⟩ h
      exact callErrors_eq_nil_of_ok (both_eq_ok_iff.1 h).1 _
    · exact widens_error _ _

/-- The same for the form of a keyword. -/
theorem widens_ofForm (scopes : Scopes) : (keyword : Keyword) → (tail : Sexp) →
    Widens (Misses p.names) (ofForm ⟨map, none⟩ scopes keyword tail)
      (ofForm ⟨map, some p⟩ (scopes ++ [p.names]) keyword tail)
  | .quote, .pair _ e _ => widens_ok _
  | .unary op, .pair a x _ => (widens_ofSexp scopes (map.headSpan? a) x).map _
  | .binary op, .pair a x (.pair b y _) => by
    have hfirst := widens_ofSexp scopes (map.headSpan? a) x
    have hsecond := widens_ofSexp scopes (map.headSpan? b) y
    rw [ofForm, ofForm]
    split
    · exact (hsecond.both hfirst).map _
    · exact (hfirst.both hsecond).map _
  | .if, .pair a test (.pair b yes (.pair c no _)) => by
    have htest := widens_ofSexp scopes (map.headSpan? a) test
    have hyes := widens_ofSexp scopes (map.headSpan? b) yes
    have hno := widens_ofSexp scopes (map.headSpan? c) no
    exact (hyes.both (hno.both htest)).map _
  | .lambda, .pair a params (.pair b body _) => by
    rw [ofForm, ofForm]
    split
    · exact (widens_ofSexp (_ :: scopes) (map.headSpan? b) body).map _
    · exact widens_error _ _
  | .let, .pair a bindings (.pair b body _) => by
    rw [ofForm, ofForm]
    refine .bind (boundNames map bindings (map.headSpan? a)) fun names => ?_
    have hbody := widens_ofSexp (names :: scopes) (map.headSpan? b) body
    exact (hbody.both (widens_ofArms scopes bindings)).map _
  | .letrec, .pair a bindings (.pair b body _) => by
    rw [ofForm, ofForm]
    refine .bind (boundNames map bindings (map.headSpan? a)) fun names => ?_
    have hbody := widens_ofSexp (names :: scopes) (map.headSpan? b) body
    exact (hbody.both (widens_ofArms (names :: scopes) bindings)).map _
  | .quote, .atom _
  | .unary _, .atom _
  | .binary _, .atom _
  | .if, .atom _
  | .lambda, .atom _
  | .let, .atom _
  | .letrec, .atom _
  | .binary _, .pair _ _ (.atom _)
  | .if, .pair _ _ (.atom _)
  | .lambda, .pair _ _ (.atom _)
  | .let, .pair _ _ (.atom _)
  | .letrec, .pair _ _ (.atom _)
  | .if, .pair _ _ (.pair _ _ (.atom _)) => widens_error _ _

/-- The same for the items of a list. -/
theorem widens_ofOperands (scopes : Scopes) : (list : Sexp) →
    Widens (Misses p.names) (ofOperands ⟨map, none⟩ scopes list)
      (ofOperands ⟨map, some p⟩ (scopes ++ [p.names]) list)
  | .atom _ => widens_ok _
  | .pair cell e rest =>
    ((widens_ofSexp scopes (map.headSpan? cell) e).both (widens_ofOperands scopes rest)).map _

/-- The same for the initial values of a binding list. -/
theorem widens_ofArms (scopes : Scopes) : (bindings : Sexp) →
    Widens (Misses p.names) (ofArms ⟨map, none⟩ scopes bindings)
      (ofArms ⟨map, some p⟩ (scopes ++ [p.names]) bindings)
  | .pair _ (.pair _ _ (.pair cell e _)) rest =>
    ((widens_ofSexp scopes (map.headSpan? cell) e).both (widens_ofArms scopes rest)).map _
  | .atom _ => widens_ok _
  | .pair _ (.atom _) _ => widens_ok _
  | .pair _ (.pair _ _ (.atom _)) _ => widens_ok _

end

end Term

end Secd
