import Secd.Proofs.Sexp.Congruent
import Secd.Proofs.Term.Nameless

/-!
# Analysing the same expression twice

An expression that has been read twice is analysed with the same result, whatever cells it is in:
both times it has a term, and the terms differ in the cells of the constants only, or both times
there are the same faults, in the same order. If parts at the same place were written at related
places of two texts, the faults are at related places.
-/

namespace Secd

/-- The errors have the same message, and are at related places. -/
structure CompileError.Agrees (R : Option Span → Option Span → Prop) (e e' : CompileError) :
    Prop where
  message : e.fault.message = e'.fault.message
  span : R e.span e'.span

/-- The results are related, or the errors agree one by one. -/
inductive Checked.Agrees {α β : Type} (R : Option Span → Option Span → Prop) (S : α → β → Prop) :
    Checked α → Checked β → Prop where
  | ok {a : α} {b : β} (h : S a b) : Agrees R S (.ok a) (.ok b)
  | error {es es' : List CompileError} (h : List.Forall₂ (CompileError.Agrees R) es es') :
      Agrees R S (.error es) (.error es')

namespace Checked

variable {α β α' β' : Type} {R : Option Span → Option Span → Prop} {S : α → β → Prop}
  {T : α' → β' → Prop}

/-- A single error. -/
theorem agrees_fail {fault fault' : CompileFault} {span span' : Option Span}
    (hmessage : fault.message = fault'.message) (hspan : R span span') :
    Agrees R S (fail fault span) (fail fault' span') :=
  .error (.cons ⟨hmessage, hspan⟩ .nil)

/-- Something may be computed from the results. -/
theorem Agrees.map {x : Checked α} {y : Checked β} (h : Agrees R S x y) {f : α → α'} {g : β → β'}
    (hf : ∀ a b, S a b → T (f a) (g b)) : Agrees R T (x.map f) (y.map g) := by
  cases h with
  | ok h => exact .ok (hf _ _ h)
  | error h => exact .error h

/-- Both parts agree. -/
theorem Agrees.both {x : Checked α} {y : Checked β} (h : Agrees R S x y) {x' : Checked α'}
    {y' : Checked β'} (h' : Agrees R T x' y') :
    Agrees R (fun a b => S a.1 b.1 ∧ T a.2 b.2) (Checked.both x x') (Checked.both y y') := by
  cases h with
  | ok h =>
    cases h' with
    | ok h' => exact .ok ⟨h, h'⟩
    | error h' => exact .error h'
  | error h =>
    cases h' with
    | ok _ => exact .error h
    | error h' => exact .error (List.rel_append h h')

/-- One step after the other. -/
theorem Agrees.bind {x : Checked α} {y : Checked β} (h : Agrees R S x y) {f : α → Checked α'}
    {g : β → Checked β'} (hf : ∀ a b, S a b → Agrees R T (f a) (g b)) :
    Agrees R T (x >>= f) (y >>= g) := by
  cases h with
  | ok h => exact hf _ _ h
  | error h => exact .error h

/-- Errors that must not be there. -/
theorem agrees_require {es es' : List CompileError}
    (h : List.Forall₂ (CompileError.Agrees R) es es') :
    Agrees R (fun _ _ => True) (require es) (require es') := by
  cases h with
  | nil => exact .ok trivial
  | cons he hes => exact .error (.cons he hes)

end Checked

namespace Term

open Sexp

/-! ### What is found wrong -/

variable {R : Option Span → Option Span → Prop}

/-- Cells at the same place belong to parts that were written at related places. -/
abbrev Sites (R : Option Span → Option Span → Prop) (map map' : SourceMap) (c c' : Nat) : Prop :=
  R (map.headSpan? c) (map'.headSpan? c')

/-- The names in the arms of a binding list. -/
theorem agrees_armNames {map map' : SourceMap} {items items' : List (Nat × Sexp)}
    (h : Congruent.Items (Sites R map map') items items') :
    Checked.Agrees R (List.Forall₂ (Congruent (Sites R map map'))) (armNames map items)
      (armNames map' items') := by
  induction h with
  | nil => exact .ok .nil
  | @cons item item' _ _ hitem _ ih =>
    obtain ⟨cell, arm⟩ := item
    obtain ⟨cell', arm'⟩ := item'
    obtain ⟨hcell, harm⟩ := hitem
    have hparts := harm.items?
    have hrender : arm.render = arm'.render := harm.render_eq
    have hmalformed : (CompileFault.malformedForm (.binding arm)).message =
        (CompileFault.malformedForm (.binding arm')).message :=
      congrArg (fun text => "malformed form: " ++ ("binding must be (name expr), found " ++ text))
        hrender
    rw [armNames, armNames]
    generalize arm.items? = x at hparts ⊢
    generalize arm'.items? = x' at hparts ⊢
    cases hparts with
    | none => exact Checked.agrees_fail hmalformed hcell
    | some hparts =>
      -- an arm has two parts, and any other number of them is a fault
      rcases hparts with _ | ⟨hname, _ | ⟨_, _ | ⟨_, _⟩⟩⟩
      case cons.cons.nil => exact ih.map fun _ _ hnames => .cons hname.2 hnames
      all_goals exact Checked.agrees_fail hmalformed hcell

/-- The names that a binding list binds. -/
theorem agrees_boundNames {map map' : SourceMap} {bindings bindings' : Sexp}
    (h : Congruent (Sites R map map') bindings bindings') {span span' : Option Span}
    (hspan : R span span') :
    Checked.Agrees R Eq (boundNames map bindings span) (boundNames map' bindings' span') := by
  have hitems := h.items?
  rw [boundNames, boundNames]
  generalize bindings.items? = x at hitems ⊢
  generalize bindings'.items? = x' at hitems ⊢
  cases hitems with
  | none => exact Checked.agrees_fail rfl hspan
  | some hitems =>
    refine (agrees_armNames hitems).bind fun names names' hnames => ?_
    have hbound : Binder.names names = Binder.names names' := Binder.namesFrom_eq hnames []
    rw [hbound]
    cases Binder.names names' with
    | ok bound => exact .ok rfl
    | error fault => exact Checked.agrees_fail rfl hspan

/-- Both contexts know callables of the same names with the same numbers of parameters. -/
def SameArities (cx cx' : Context) : Prop :=
  cx.prelude.map Prelude.arityOf? = cx'.prelude.map Prelude.arityOf?

variable {cx cx' : Context}

/-- The errors of a call. -/
theorem agrees_callErrors (hcx : SameArities cx cx') (scopes : Scopes) {span span' : Option Span}
    (hspan : R span span') {function function' : Sexp}
    (hfunction : Congruent (Sites R cx.map cx'.map) function function')
    {args args' : List (Nat × Sexp)} (hargs : Congruent.Items (Sites R cx.map cx'.map) args args') :
    List.Forall₂ (CompileError.Agrees R) (callErrors cx scopes span function args)
      (callErrors cx' scopes span' function' args') := by
  have hexcess : List.Forall₂ (CompileError.Agrees R)
      (args.filterMap fun item =>
        let params := ((item.2.second?).bind Sexp.length?).getD 0
        if item.2.isLambdaForm ∧ maxCallableArity < params then
          some (⟨.excessArity params, cx.map.headSpan? item.1⟩ : CompileError)
        else none)
      (args'.filterMap fun item =>
        let params := ((item.2.second?).bind Sexp.length?).getD 0
        if item.2.isLambdaForm ∧ maxCallableArity < params then
          some (⟨.excessArity params, cx'.map.headSpan? item.1⟩ : CompileError)
        else none) := by
    refine List.rel_filterMap (fun item item' hitem => ?_) hargs
    obtain ⟨cell, arg⟩ := item
    obtain ⟨cell', arg'⟩ := item'
    obtain ⟨hcell, harg⟩ := hitem
    have hparams : (arg.second?).bind Sexp.length? = (arg'.second?).bind Sexp.length? := by
      have hsecond := harg.second?
      generalize arg.second? = x at hsecond ⊢
      generalize arg'.second? = x' at hsecond ⊢
      cases hsecond with
      | none => rfl
      | some h => exact h.length?_eq
    dsimp only
    rw [harg.isLambdaForm_eq, hparams]
    split
    · exact .some ⟨rfl, hcell⟩
    · exact .none
  have hlength := hargs.length_eq
  obtain ⟨map, prelude⟩ := cx
  obtain ⟨map', prelude'⟩ := cx'
  rw [SameArities] at hcx
  cases prelude with
  | none =>
    obtain rfl : prelude' = none := Option.map_eq_none_iff.1 hcx.symm
    exact .nil
  | some p =>
    obtain ⟨p', rfl, harities⟩ := Option.map_eq_some_iff.1 hcx.symm
    cases hfunction with
    | pair _ _ _ => exact .nil
    | atom a =>
      cases a with
      | symbol name =>
        simp only [callErrors]
        cases scopes.locate? name with
        | none => exact .nil
        | some address =>
          dsimp only
          split
          · refine List.rel_append ?_ hexcess
            rw [harities, hlength]
            split
            · split
              · exact .nil
              · exact .cons ⟨rfl, hspan⟩ .nil
            · exact .nil
          · exact .nil
      | _ => exact .nil

/-- The pieces of a call that is no list are shown in the same way. -/
theorem message_improperApplication {e e' : Sexp} (h : e.render = e'.render) :
    (CompileFault.malformedForm (.improperApplication e)).message =
      (CompileFault.malformedForm (.improperApplication e')).message :=
  congrArg (fun text => "malformed form: " ++ ("application is not a proper list: " ++ text)) h

/-- The number of operands that there are is all that is told of them. -/
theorem message_operandCount (keyword : Keyword) {e e' : Sexp} (h : e.length? = e'.length?) :
    (CompileFault.malformedForm (.operandCount keyword (e.length?.getD 0))).message =
      (CompileFault.malformedForm (.operandCount keyword (e'.length?.getD 0))).message := by
  rw [h]

mutual

/-- Expressions that are congruent have terms that match, or faults that agree. -/
theorem agrees_ofSexp (hcx : SameArities cx cx') (hnone : R none none) (scopes : Scopes)
    {span span' : Option Span} (hspan : R span span') {e e' : Sexp} :
    Congruent (Sites R cx.map cx'.map) e e' →
      Checked.Agrees R Matches (ofSexp cx scopes span e) (ofSexp cx' scopes span' e')
  | .atom (.symbol name) => by
    rw [ofSexp, ofSexp]
    cases scopes.locate? name with
    | some address => exact .ok (.variable address)
    | none => exact Checked.agrees_fail rfl hspan
  | .atom .nil => .ok (.constant (same_refl _))
  | .atom (.int n) => .ok (.constant (same_refl _))
  | .atom (.callable c) => .ok (.constant (same_refl _))
  | @Congruent.pair _ cell cell' head head' tail tail' hcell hhead htail => by
    have hitems := htail.items?
    rw [ofSexp, ofSexp, hhead.ofSexp?_eq]
    generalize htail? : tail.items? = x at hitems
    generalize htail?' : tail'.items? = x' at hitems
    cases hkeyword : Keyword.ofSexp? head' with
    | some keyword =>
      cases hitems with
      | none => exact Checked.agrees_fail rfl hspan
      | some hitems =>
        dsimp only
        rw [hitems.length_eq]
        split
        · exact agrees_ofForm hcx hnone scopes keyword htail
        · exact Checked.agrees_fail rfl hspan
    | none =>
      cases hitems with
      | none =>
        refine Checked.agrees_fail (message_improperApplication ?_) hspan
        exact (Congruent.pair hcell hhead htail).render_eq
      | some hitems =>
        have hcall := agrees_callErrors hcx scopes hcell hhead hitems
        have hfunction := agrees_ofSexp hcx hnone scopes hcell hhead
        have hargs := agrees_ofOperands hcx hnone scopes htail
        exact ((Checked.agrees_require hcall).both (hfunction.both hargs)).map
          fun _ _ h => .apply h.2.1 h.2.2

/-- The same for the form of a keyword. -/
theorem agrees_ofForm (hcx : SameArities cx cx') (hnone : R none none) (scopes : Scopes) :
    (keyword : Keyword) → {tail tail' : Sexp} → Congruent (Sites R cx.map cx'.map) tail tail' →
      Checked.Agrees R Matches (ofForm cx scopes keyword tail) (ofForm cx' scopes keyword tail')
  | .quote, _, _, .pair _ he _ => .ok (.constant he.same)
  | .unary op, _, _, .pair ha hx _ =>
    (agrees_ofSexp hcx hnone scopes ha hx).map fun _ _ h => .unary op h
  | .binary op, _, _, .pair ha hx (.pair hb hy _) => by
    have hfirst := agrees_ofSexp hcx hnone scopes ha hx
    have hsecond := agrees_ofSexp hcx hnone scopes hb hy
    rw [ofForm, ofForm]
    split
    · exact (hsecond.both hfirst).map fun _ _ h => .binary op h.2 h.1
    · exact (hfirst.both hsecond).map fun _ _ h => .binary op h.2 h.1
  | .if, _, _, .pair ha htest (.pair hb hyes (.pair hc hno _)) => by
    have htest := agrees_ofSexp hcx hnone scopes ha htest
    have hyes := agrees_ofSexp hcx hnone scopes hb hyes
    have hno := agrees_ofSexp hcx hnone scopes hc hno
    exact (hyes.both (hno.both htest)).map fun _ _ h => .conditional h.2.2 h.1 h.2.1
  | .lambda, _, _, .pair ha hparams (.pair hb hbody _) => by
    rw [ofForm, ofForm, Binder.ofList_eq hparams]
    split
    · exact (agrees_ofSexp hcx hnone _ hb hbody).map fun _ _ h => .lambda _ h
    · exact Checked.agrees_fail rfl ha
  | .let, _, _, .pair ha hbindings (.pair hb hbody _) => by
    rw [ofForm, ofForm]
    refine (agrees_boundNames hbindings ha).bind fun names names' hnames => ?_
    obtain rfl := hnames
    have hbody := agrees_ofSexp hcx hnone (names :: scopes) hb hbody
    have hinits := agrees_ofArms hcx hnone scopes hbindings
    exact (hbody.both hinits).map fun _ _ h => .apply (.lambda names h.1) h.2
  | .letrec, _, _, .pair ha hbindings (.pair hb hbody _) => by
    rw [ofForm, ofForm]
    refine (agrees_boundNames hbindings ha).bind fun names names' hnames => ?_
    obtain rfl := hnames
    have hbody := agrees_ofSexp hcx hnone (names :: scopes) hb hbody
    have hinits := agrees_ofArms hcx hnone (names :: scopes) hbindings
    exact (hbody.both hinits).map fun _ _ h => .letrec names h.2 h.1
  | .quote, _, _, h@(.atom _)
  | .unary _, _, _, h@(.atom _)
  | .binary _, _, _, h@(.atom _)
  | .if, _, _, h@(.atom _)
  | .lambda, _, _, h@(.atom _)
  | .let, _, _, h@(.atom _)
  | .letrec, _, _, h@(.atom _)
  | .binary _, _, _, h@(.pair _ _ (.atom _))
  | .if, _, _, h@(.pair _ _ (.atom _))
  | .lambda, _, _, h@(.pair _ _ (.atom _))
  | .let, _, _, h@(.pair _ _ (.atom _))
  | .letrec, _, _, h@(.pair _ _ (.atom _))
  | .if, _, _, h@(.pair _ _ (.pair _ _ (.atom _))) =>
    Checked.agrees_fail (message_operandCount _ h.length?_eq) hnone

/-- The same for the items of a list. -/
theorem agrees_ofOperands (hcx : SameArities cx cx') (hnone : R none none) (scopes : Scopes)
    {list list' : Sexp} : Congruent (Sites R cx.map cx'.map) list list' →
      Checked.Agrees R MatchesAll (ofOperands cx scopes list) (ofOperands cx' scopes list')
  | .atom _ => .ok .nil
  | .pair hcell hhead htail =>
    ((agrees_ofSexp hcx hnone scopes hcell hhead).both
      (agrees_ofOperands hcx hnone scopes htail)).map fun _ _ h => .cons h.1 h.2

/-- The same for the initial values of a binding list. -/
theorem agrees_ofArms (hcx : SameArities cx cx') (hnone : R none none) (scopes : Scopes)
    {bindings bindings' : Sexp} : Congruent (Sites R cx.map cx'.map) bindings bindings' →
      Checked.Agrees R MatchesAll (ofArms cx scopes bindings) (ofArms cx' scopes bindings')
  | .pair _ (.pair _ _ (.pair hcell hinit _)) hrest =>
    ((agrees_ofSexp hcx hnone scopes hcell hinit).both
      (agrees_ofArms hcx hnone scopes hrest)).map fun _ _ h => .cons h.1 h.2
  | .atom _ => .ok .nil
  | .pair _ (.atom _) _ => .ok .nil
  | .pair _ (.pair _ _ (.atom _)) _ => .ok .nil

end

end Term

end Secd
