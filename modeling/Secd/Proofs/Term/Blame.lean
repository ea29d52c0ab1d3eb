import Secd.Proofs.Datum.Sites
import Secd.Proofs.Term.Faults

/-!
# What compile errors are about

Every error of the analysis carries the span at which the expression stands that it is about. A name
that is not bound, or that is called with the wrong number of arguments, is a symbol that stands
there, and a function with too many parameters is an argument that stands there. What begins a form
is not analysed, so a keyword can only be an unbound name where no form can begin.
-/

namespace Secd

namespace Sexp

/-- The expression is written as a function with a list of so many parameters. -/
def LambdaOf (params : Nat) (e : Sexp) : Prop :=
  ∃ a b list rest, e = .pair a (.symbol "LAMBDA") (.pair b list rest) ∧
    list.length? = some params

/-- What the analysis takes for a function with parameters is written as one. -/
theorem lambdaOf_of_isLambdaForm {e : Sexp} {params : Nat} (hlambda : e.isLambdaForm = true)
    (hparams : (e.second?).bind length? = some params) : e.LambdaOf params := by
  obtain ⟨list, hsecond, hlength⟩ := Option.bind_eq_some_iff.1 hparams
  cases e with
  | atom a => cases hlambda
  | pair a head tail =>
    have hkeyword : Keyword.ofSexp? head = some .lambda := of_decide_eq_true hlambda
    cases tail with
    | atom b => cases hsecond
    | pair b first rest =>
      obtain rfl := Option.some.inj hsecond
      cases head with
      | atom x =>
        cases x with
        | symbol name =>
          obtain rfl : "LAMBDA" = name := Keyword.name_of_ofName? hkeyword
          exact ⟨a, b, first, rest, rfl, hlength⟩
        | _ => cases hkeyword
      | pair c head tail => cases hkeyword

/-- A tree that is the same as a list has as many items. -/
theorem length?_of_same {e e' : Sexp} {n : Nat} (h : e.length? = some n)
    (hsame : e.same e' = true) : e'.length? = some n := by
  induction e generalizing e' n with
  | atom a =>
    obtain ⟨items, hitems, rfl⟩ := Option.map_eq_some_iff.1 h
    obtain ⟨rfl, rfl⟩ := items?_atom hitems
    obtain ⟨b, rfl, hb⟩ := exists_atom_of_same hsame
    obtain rfl := Atom.Plain.eq_of_same (a := .nil) trivial hb
    rfl
  | pair c head tail _ ih =>
    obtain ⟨items, hitems, rfl⟩ := Option.map_eq_some_iff.1 h
    obtain ⟨rest, hrest, rfl⟩ := items?_pair_eq_some hitems
    obtain ⟨c', head', tail', rfl, -, htail⟩ := exists_pair_of_same hsame
    have hlength : tail'.length? = some rest.length :=
      ih (Option.map_eq_some_iff.2 ⟨rest, hrest, rfl⟩) htail
    obtain ⟨rest', hrest', hcount⟩ := Option.map_eq_some_iff.1 hlength
    rw [length?, items?_pair, hrest', List.length_cons, ← hcount]
    rfl

/-- A tree that is the same as a function is a function with as many parameters. -/
theorem LambdaOf.of_same {e e' : Sexp} {params : Nat} (h : e.LambdaOf params)
    (hsame : e.same e' = true) : e'.LambdaOf params := by
  obtain ⟨a, b, list, rest, rfl, hlength⟩ := h
  obtain ⟨a', head', tail', rfl, hhead, htail⟩ := exists_pair_of_same hsame
  obtain ⟨b', list', rest', rfl, hlist, -⟩ := exists_pair_of_same htail
  rw [same_comm] at hhead
  obtain rfl := eq_symbol_of_same hhead
  exact ⟨a', b', list', rest', rfl, length?_of_same hlength hlist⟩

end Sexp

/-- The error is about an expression that stands at its span. -/
inductive Justified (site : Bool → Sexp → Span → Prop) : CompileError → Prop where
  | undeclaredIdentifier {isTail : Bool} {name : String} {span : Span}
      (hsite : site isTail (.symbol name) span)
      (hname : isTail = true ∨ Keyword.ofSexp? (.symbol name) = none) :
      Justified site ⟨.undeclaredIdentifier name, some span⟩
  | arityMismatch {name : String} {expected got : Nat} {span : Span}
      (hsite : site false (.symbol name) span) (hname : Keyword.ofSexp? (.symbol name) = none) :
      Justified site ⟨.arityMismatch name expected got, some span⟩
  | excessArity {isTail : Bool} {e : Sexp} {params : Nat} {span : Span}
      (hsite : site isTail e span) (he : e.LambdaOf params) (hexcess : maxCallableArity < params) :
      Justified site ⟨.excessArity params, some span⟩
  | malformedForm {isTail : Bool} {e : Sexp} {detail : Malformation} {span : Span}
      (hsite : site isTail e span) : Justified site ⟨.malformedForm detail, some span⟩

namespace Term

open Checked

variable {cx : Context} {site : Bool → Sexp → Span → Prop}

/-- A malformation is about the expression at its span. -/
theorem justified_malformed {α : Type} {isTail : Bool} {e : Sexp} {span : Span}
    (hsite : site isTail e span) (detail : Malformation) :
    AllErrors (Justified site) (malformed detail (some span) : Checked α) :=
  allErrors_fail (.malformedForm hsite)

/-- The errors of the names in a list of bindings are about the list and its arms. -/
theorem justified_boundNames {map : SourceMap} {isTail : Bool} {bindings : Sexp} {span : Span}
    (hsite : site isTail bindings span) (hlocated : Located map site false bindings) :
    AllErrors (Justified site) (boundNames map bindings (some span)) := by
  have harms {arms : List (Nat × Sexp)} (harms : ∀ arm ∈ arms, ∃ span isTail,
      map.headSpan? arm.1 = some span ∧ site isTail arm.2 span) :
      AllErrors (Justified site) (armNames map arms) := by
    induction arms with
    | nil => exact allErrors_ok _
    | cons arm rest ih =>
      obtain ⟨⟨span, isTail, hnoted, harm⟩, hrest⟩ := List.forall_mem_cons.1 harms
      rw [armNames]
      split
      · exact (ih hrest).map _
      · rw [hnoted]
        exact justified_malformed harm _
  unfold boundNames
  split
  · exact justified_malformed hsite _
  · next items hitems =>
    have hnames := harms fun arm harm => hlocated.of_mem_items hitems harm
    refine hnames.bind fun names => ?_
    split
    · exact allErrors_ok _
    · exact justified_malformed hsite _

/-- The errors of a call are about the function and the arguments. -/
theorem justified_callErrors {scopes : Scopes} {function tail : Sexp} {args : List (Nat × Sexp)}
    {span : Span} (hkeyword : Keyword.ofSexp? function = none)
    (hsite : site false function span) (hlocated : Located cx.map site true tail)
    (hargs : tail.items? = some args) :
    ∀ e ∈ callErrors cx scopes (some span) function args, Justified site e := by
  intro e he
  unfold callErrors at he
  split at he
  · split at he
    · cases he
    split at he
    · rcases List.mem_append.1 he with harity | hexcess
      · split at harity
        · split at harity
          · cases harity
          · obtain rfl := List.mem_singleton.1 harity
            exact .arityMismatch hsite hkeyword
        · cases harity
      · obtain ⟨⟨cell, arg⟩, harg, hsome⟩ := List.mem_filterMap.1 hexcess
        obtain ⟨span', isTail, hnoted, hhere⟩ := hlocated.of_mem_items hargs harg
        dsimp only at hsome
        rw [hnoted] at hsome
        split at hsome
        · next hlambda =>
          obtain rfl := Option.some.inj hsome
          cases hparams : (arg.second?).bind Sexp.length? with
          | none =>
            rw [hparams] at hlambda
            exact absurd hlambda.2 (by decide)
          | some params =>
            rw [hparams] at hlambda
            exact .excessArity hhere (Sexp.lambdaOf_of_isLambdaForm hlambda.1 hparams) hlambda.2
        · cases hsome
    · cases he
  · cases he

mutual

/-- The errors of an expression are about the expression itself and the expressions in it. -/
theorem justified_ofSexp (scopes : Scopes) {isTail : Bool} {span : Span} : (e : Sexp) →
    site isTail e span → (isTail = true ∨ Keyword.ofSexp? e = none) → Located cx.map site false e →
    AllErrors (Justified site) (ofSexp cx scopes (some span) e)
  | .atom (.symbol name), hsite, hname, _ => by
    rw [ofSexp]
    split
    · exact allErrors_ok _
    · exact allErrors_fail (.undeclaredIdentifier hsite hname)
  | .atom .nil, _, _, _ => allErrors_ok _
  | .atom (.int n), _, _, _ => allErrors_ok _
  | .atom (.callable c), _, _, _ => allErrors_ok _
  | .pair cell head tail, hsite, _, hlocated => by
    obtain ⟨⟨span', hnoted, hfirst⟩, hhead, htail⟩ := hlocated
    rw [ofSexp]
    split
    · next operands _ hoperands =>
      split
      · next hcount => exact justified_ofForm scopes _ tail hoperands hcount htail
      · exact justified_malformed hsite _
    · exact justified_malformed hsite _
    · next args hkeyword hargs =>
      dsimp only
      rw [hnoted]
      have hcall : AllErrors (Justified site)
          (require (callErrors cx scopes (some span') head args)) :=
        allErrors_require (justified_callErrors hkeyword hfirst htail hargs)
      have hfunction := justified_ofSexp scopes head hfirst (.inr hkeyword) hhead
      exact (hcall.both (hfunction.both (justified_ofOperands scopes tail htail))).map _
    · exact justified_malformed hsite _

/-- The errors of a form are about its operands and the expressions in them, if it has as many
operands as it has to have. -/
theorem justified_ofForm (scopes : Scopes) : (keyword : Keyword) → (tail : Sexp) →
    {operands : List (Nat × Sexp)} → tail.items? = some operands →
    operands.length = keyword.operandCount → Located cx.map site true tail →
    AllErrors (Justified site) (ofForm cx scopes keyword tail)
  | keyword, .atom a, operands, hitems, hcount, _ => by
    obtain ⟨-, rfl⟩ := Sexp.items?_atom hitems
    cases keyword <;> cases hcount
  | .quote, .pair _ e _, _, _, _, _ => allErrors_ok _
  | .unary op, .pair a x _, _, _, _, ⟨⟨span, hnoted, hsite⟩, hx, _⟩ => by
    rw [ofForm, hnoted]
    exact (justified_ofSexp scopes x hsite (.inl rfl) hx).map _
  | .binary op, .pair a x (.pair b y _), _, _, _,
      ⟨⟨span, hnoted, hsite⟩, hx, ⟨span', hnoted', hsite'⟩, hy, _⟩ => by
    have hfirst := justified_ofSexp scopes x hsite (.inl rfl) hx
    have hsecond := justified_ofSexp scopes y hsite' (.inl rfl) hy
    rw [ofForm, hnoted, hnoted']
    split
    · exact (hsecond.both hfirst).map _
    · exact (hfirst.both hsecond).map _
  | .if, .pair a test (.pair b yes (.pair c no _)), _, _, _,
      ⟨⟨span, hnoted, hsite⟩, htest, ⟨span', hnoted', hsite'⟩, hyes,
        ⟨span'', hnoted'', hsite''⟩, hno, _⟩ => by
    have hfirst := justified_ofSexp scopes test hsite (.inl rfl) htest
    have hsecond := justified_ofSexp scopes yes hsite' (.inl rfl) hyes
    have hthird := justified_ofSexp scopes no hsite'' (.inl rfl) hno
    rw [ofForm, hnoted, hnoted', hnoted'']
    exact (hsecond.both (hthird.both hfirst)).map _
  | .lambda, .pair a params (.pair b body _), _, _, _,
      ⟨⟨span, hnoted, hsite⟩, _, ⟨span', hnoted', hsite'⟩, hbody, _⟩ => by
    rw [ofForm, hnoted, hnoted']
    split
    · exact (justified_ofSexp _ body hsite' (.inl rfl) hbody).map _
    · exact justified_malformed hsite _
  | .let, .pair a bindings (.pair b body _), _, _, _,
      ⟨⟨span, hnoted, hsite⟩, hbindings, ⟨span', hnoted', hsite'⟩, hbody, _⟩ => by
    rw [ofForm, hnoted, hnoted']
    refine (justified_boundNames hsite hbindings).bind fun names => ?_
    have hinside := justified_ofSexp (names :: scopes) body hsite' (.inl rfl) hbody
    exact (hinside.both (justified_ofArms scopes bindings hbindings)).map _
  | .letrec, .pair a bindings (.pair b body _), _, _, _,
      ⟨⟨span, hnoted, hsite⟩, hbindings, ⟨span', hnoted', hsite'⟩, hbody, _⟩ => by
    rw [ofForm, hnoted, hnoted']
    refine (justified_boundNames hsite hbindings).bind fun names => ?_
    have hinside := justified_ofSexp (names :: scopes) body hsite' (.inl rfl) hbody
    exact (hinside.both (justified_ofArms (names :: scopes) bindings hbindings)).map _
  | .binary _, .pair _ _ (.atom _), _, hitems, hcount, _
  | .if, .pair _ _ (.atom _), _, hitems, hcount, _
  | .lambda, .pair _ _ (.atom _), _, hitems, hcount, _
  | .let, .pair _ _ (.atom _), _, hitems, hcount, _
  | .letrec, .pair _ _ (.atom _), _, hitems, hcount, _ => by
    obtain ⟨rest, hrest, rfl⟩ := Sexp.items?_pair_eq_some hitems
    obtain ⟨-, rfl⟩ := Sexp.items?_atom hrest
    cases hcount
  | .if, .pair _ _ (.pair _ _ (.atom _)), _, hitems, hcount, _ => by
    obtain ⟨rest, hrest, rfl⟩ := Sexp.items?_pair_eq_some hitems
    obtain ⟨last, hlast, rfl⟩ := Sexp.items?_pair_eq_some hrest
    obtain ⟨-, rfl⟩ := Sexp.items?_atom hlast
    cases hcount

/-- The errors of the items of a list that is a tail are about these and the expressions in them. -/
theorem justified_ofOperands (scopes : Scopes) : (list : Sexp) → Located cx.map site true list →
    AllErrors (Justified site) (ofOperands cx scopes list)
  | .atom _, _ => allErrors_ok _
  | .pair cell e rest, ⟨⟨span, hnoted, hsite⟩, he, hrest⟩ => by
    have hfirst := justified_ofSexp scopes e hsite (.inl rfl) he
    rw [ofOperands, hnoted]
    exact (hfirst.both (justified_ofOperands scopes rest hrest)).map _

/-- The errors of the initial values of a list of bindings are about these and the expressions in
them. -/
theorem justified_ofArms (scopes : Scopes) {isTail : Bool} : (bindings : Sexp) →
    Located cx.map site isTail bindings →
    AllErrors (Justified site) (ofArms cx scopes bindings)
  | .pair _ (.pair _ _ (.pair cell e _)) rest,
      ⟨_, ⟨_, _, ⟨span, hnoted, hsite⟩, he, _⟩, hrest⟩ => by
    have hfirst := justified_ofSexp scopes e hsite (.inl rfl) he
    rw [ofArms, hnoted]
    exact (hfirst.both (justified_ofArms scopes rest hrest)).map _
  | .atom _, _ => allErrors_ok _
  | .pair _ (.atom _) _, _ => allErrors_ok _
  | .pair _ (.pair _ _ (.atom _)) _, _ => allErrors_ok _

end

end Term

end Secd
