import Secd.Proofs.Sexp.Phrase
import Secd.Term.Analysis

/-!
# Resolved expressions

What the term of an expression is, apart from the errors of expressions that have none. The relation
`Resolves` follows the phrases of the expression; a frame of names is added to the scopes for the
body of a function, and for everything in a `LETREC`. Every expression that the analysis accepts is
resolved to the term that the analysis finds.
-/

namespace Secd

namespace Term

mutual

/-- The expression has this term in these scopes. -/
inductive Resolves : Scopes → Sexp → Term → Prop where
  | constant {scopes : Scopes} {e : Sexp} {a : Atom} (hphrase : e.phrase = .constant a) :
      Resolves scopes e (.constant (.atom a))
  | variable {scopes : Scopes} {e : Sexp} {name : String} {address : Address}
      (hphrase : e.phrase = .variable name) (hlocate : scopes.locate? name = some address) :
      Resolves scopes e (.variable address)
  | quote {scopes : Scopes} {e x : Sexp} (hphrase : e.phrase = .form .quote [x]) :
      Resolves scopes e (.constant x)
  | unary {scopes : Scopes} {e x : Sexp} {op : Unary} {t : Term}
      (hphrase : e.phrase = .form (.unary op) [x]) (hx : Resolves scopes x t) :
      Resolves scopes e (.unary op t)
  | leftFirst {scopes : Scopes} {e x y : Sexp} {op : Binary} {t u : Term}
      (hphrase : e.phrase = .form (.binary op) [x, y]) (hop : op.leftFirst = true)
      (hx : Resolves scopes x t) (hy : Resolves scopes y u) :
      Resolves scopes e (.binary op t u)
  | rightFirst {scopes : Scopes} {e x y : Sexp} {op : Binary} {t u : Term}
      (hphrase : e.phrase = .form (.binary op) [x, y]) (hop : op.leftFirst = false)
      (hx : Resolves scopes x t) (hy : Resolves scopes y u) :
      Resolves scopes e (.binary op u t)
  | conditional {scopes : Scopes} {e test yes no : Sexp} {t u v : Term}
      (hphrase : e.phrase = .form .if [test, yes, no]) (htest : Resolves scopes test t)
      (hyes : Resolves scopes yes u) (hno : Resolves scopes no v) :
      Resolves scopes e (.conditional t u v)
  | lambda {scopes : Scopes} {e params body : Sexp} {names : List String} {t : Term}
      (hphrase : e.phrase = .form .lambda [params, body]) (hparams : params.params? = some names)
      (hbody : Resolves (names :: scopes) body t) :
      Resolves scopes e (.lambda names t)
  | let {scopes : Scopes} {e bindings body : Sexp} {arms : List (String × Sexp)} {t : Term}
      {inits : List Term} (hphrase : e.phrase = .form .let [bindings, body])
      (harms : bindings.arms? = some arms)
      (hinits : ResolvesAll scopes (arms.map Prod.snd) inits)
      (hbody : Resolves (arms.map Prod.fst :: scopes) body t) :
      Resolves scopes e (.apply (.lambda (arms.map Prod.fst) t) inits)
  | letrec {scopes : Scopes} {e bindings body : Sexp} {arms : List (String × Sexp)} {t : Term}
      {inits : List Term} (hphrase : e.phrase = .form .letrec [bindings, body])
      (harms : bindings.arms? = some arms)
      (hinits : ResolvesAll (arms.map Prod.fst :: scopes) (arms.map Prod.snd) inits)
      (hbody : Resolves (arms.map Prod.fst :: scopes) body t) :
      Resolves scopes e (.letrec (arms.map Prod.fst) inits t)
  | call {scopes : Scopes} {e function : Sexp} {args : List Sexp} {f : Term} {ts : List Term}
      (hphrase : e.phrase = .call function args) (hfunction : Resolves scopes function f)
      (hargs : ResolvesAll scopes args ts) :
      Resolves scopes e (.apply f ts)

/-- Each of the expressions has the term at its place. -/
inductive ResolvesAll : Scopes → List Sexp → List Term → Prop where
  | nil {scopes : Scopes} : ResolvesAll scopes [] []
  | cons {scopes : Scopes} {e : Sexp} {es : List Sexp} {t : Term} {ts : List Term}
      (hfirst : Resolves scopes e t) (hothers : ResolvesAll scopes es ts) :
      ResolvesAll scopes (e :: es) (t :: ts)

end

/-! ### Binders -/

/-- The names that a list of items binds are its symbols. -/
theorem symbolNames?_of_namesFrom {earlier : List String} {items : List Sexp}
    {names : List String} (h : Binder.namesFrom earlier items = .ok names) :
    Sexp.symbolNames? items = some names := by
  induction items generalizing earlier names with
  | nil => exact congrArg some (Except.ok.inj h)
  | cons item items ih =>
    rw [Binder.namesFrom] at h
    cases hname : Binder.name earlier item with
    | error fault => rw [hname] at h; cases h
    | ok name =>
      rw [hname] at h
      dsimp only [bind, Except.bind] at h
      split at h
      · cases h
      · next others hothers =>
        obtain rfl := Except.ok.inj h
        rw [Binder.name.eq_def] at hname
        split at hname
        · split at hname
          · cases hname
          · split at hname
            · cases hname
            · obtain rfl := Except.ok.inj hname
              rw [Sexp.symbolNames?, ih hothers]
              rfl
        · cases hname
        · cases hname

/-- The names that a binder list binds are its symbols. -/
theorem params?_of_ofList {params : Sexp} {names : List String}
    (h : Binder.ofList params = .ok names) : params.params? = some names := by
  rw [Binder.ofList] at h
  rcases hitems : params.items with ⟨items, ending⟩
  rw [hitems] at h
  dsimp only at h
  cases hnames : Binder.names (items.map Prod.snd) with
  | error fault => rw [hnames] at h; cases h
  | ok bound =>
    rw [hnames] at h
    cases ending with
    | nil =>
      obtain rfl := Except.ok.inj h
      have hlist : params.list? = some (items.map Prod.snd) :=
        Sexp.list?_eq_some_of_items? (by rw [Sexp.items?, hitems])
      rw [Sexp.params?, hlist]
      exact symbolNames?_of_namesFrom hnames
    | _ => cases h

/-- A result that is computed from another one comes from it. -/
theorem exists_of_map_eq_ok {α β : Type} {x : Checked α} {f : α → β} {b : β}
    (h : x.map f = .ok b) : ∃ a, x = .ok a ∧ f a = b := by
  cases x with
  | error errors => cases h
  | ok a => exact ⟨a, rfl, Except.ok.inj h⟩

/-- A result that is computed from another one, perhaps with errors, comes from it. -/
theorem exists_of_bind_eq_ok {α β : Type} {x : Checked α} {f : α → Checked β} {b : β}
    (h : x.bind f = .ok b) : ∃ a, x = .ok a ∧ f a = .ok b := by
  cases x with
  | error errors => cases h
  | ok a => exact ⟨a, rfl, h⟩

/-- Items that are arms bind the names that stand in them. -/
theorem exists_arms_of_armNames {map : SourceMap} {items : List (Nat × Sexp)} {bound : List Sexp}
    {names : List String} (h : armNames map items = .ok bound)
    (hnames : Sexp.symbolNames? bound = some names) :
    ∃ arms, Sexp.armsOf? (items.map Prod.snd) = some arms ∧ arms.map Prod.fst = names := by
  induction items generalizing bound names with
  | nil =>
    obtain rfl := Except.ok.inj h
    exact ⟨[], rfl, Option.some.inj hnames⟩
  | cons item rest ih =>
    obtain ⟨cell, arm⟩ := item
    rw [armNames] at h
    split at h
    · next init hitems =>
      obtain ⟨others, hothers, rfl⟩ := exists_of_map_eq_ok h
      rw [Sexp.symbolNames?.eq_def] at hnames
      split at hnames
      · next heq => cases heq
      · next heq =>
        obtain ⟨rfl, rfl⟩ := List.cons.inj heq
        obtain ⟨otherNames, hotherNames, rfl⟩ := Option.map_eq_some_iff.1 hnames
        obtain ⟨arms, harms, rfl⟩ := ih hothers hotherNames
        refine ⟨(_, init.2) :: arms, ?_, rfl⟩
        rw [List.map_cons, Sexp.armsOf?, Sexp.list?_eq_some_of_items? hitems, harms]
        rfl
      · cases hnames
    · cases h

/-- The names that a list of bindings binds are those of its arms. -/
theorem exists_arms_of_boundNames {map : SourceMap} {bindings : Sexp} {span : Option Span}
    {names : List String} (h : boundNames map bindings span = .ok names) :
    ∃ arms, bindings.arms? = some arms ∧ arms.map Prod.fst = names := by
  rw [boundNames] at h
  split at h
  · cases h
  · next items hitems =>
    cases hbound : armNames map items with
    | error errors => rw [hbound] at h; cases h
    | ok bound =>
      rw [hbound] at h
      dsimp only [bind, Except.bind] at h
      split at h
      · next hnames =>
        obtain rfl := Except.ok.inj h
        obtain ⟨arms, harms, hfst⟩ :=
          exists_arms_of_armNames hbound (symbolNames?_of_namesFrom hnames)
        refine ⟨arms, ?_, hfst⟩
        rw [Sexp.arms?, Sexp.list?_eq_some_of_items? hitems]
        exact harms
      · cases h

/-- A list of bindings without a first arm has no arms. -/
theorem eq_nil_of_arms?_atom {a : Atom} {arms : List (String × Sexp)}
    (h : (Sexp.atom a).arms? = some arms) : arms = [] := by
  obtain ⟨list, hlist, harms⟩ := Option.bind_eq_some_iff.1 h
  obtain ⟨-, rfl⟩ := Sexp.list?_atom hlist
  exact (Option.some.inj harms).symm

/-- The arms of a list of bindings are the first arm, which is a list of a name and an expression,
and the arms of the rest. -/
theorem exists_arms_of_pair {cell : Nat} {arm rest : Sexp} {arms : List (String × Sexp)}
    (h : (Sexp.pair cell arm rest).arms? = some arms) :
    ∃ name init others,
      (∃ b c last, arm = .pair b (.symbol name) (.pair c init last)) ∧
        rest.arms? = some others ∧ arms = (name, init) :: others := by
  obtain ⟨list, hlist, harms⟩ := Option.bind_eq_some_iff.1 h
  obtain ⟨items, hitems, rfl⟩ := Sexp.list?_pair_eq_some hlist
  rw [Sexp.armsOf?] at harms
  split at harms
  · next name init harm =>
    obtain ⟨others, hothers, rfl⟩ := Option.map_eq_some_iff.1 harms
    have hrest : rest.arms? = some others := by
      rw [Sexp.arms?, hitems]
      exact hothers
    exact ⟨name, init, others, Sexp.exists_eq_of_list?_eq_pair harm, hrest, rfl⟩
  · cases harms

/-! ### The analysis -/

variable {cx : Context}

mutual

/-- The term that the analysis finds is the term of the expression. -/
theorem resolves_of_ofSexp {scopes : Scopes} {span : Option Span} : (e : Sexp) → {t : Term} →
    ofSexp cx scopes span e = .ok t → Resolves scopes e t
  | .atom a, t, h => by
    cases a with
    | symbol name =>
      rw [ofSexp] at h
      split at h
      · next hlocate =>
        obtain rfl := Except.ok.inj h
        exact .variable rfl hlocate
      · cases h
    | nil => exact Except.ok.inj h ▸ .constant rfl
    | int n => exact Except.ok.inj h ▸ .constant rfl
    | callable c => exact Except.ok.inj h ▸ .constant rfl
  | .pair cell head tail, t, h => by
    rw [ofSexp] at h
    split at h
    · next keyword operands hkeyword hitems =>
      split at h
      · next hcount =>
        have hlist := Sexp.list?_eq_some_of_items? hitems
        refine resolves_of_ofForm keyword tail h hlist ?_ ?_
        · rw [List.length_map, hcount]
        · rw [Sexp.phrase, hkeyword, hlist]
      · cases h
    · cases h
    · next args hkeyword hitems =>
      obtain ⟨⟨⟨⟩, f, ts⟩, hparts, rfl⟩ := exists_of_map_eq_ok h
      obtain ⟨-, hparts⟩ := Checked.both_eq_ok_iff.1 hparts
      obtain ⟨hfunction, hoperands⟩ := Checked.both_eq_ok_iff.1 hparts
      have hlist := Sexp.list?_eq_some_of_items? hitems
      refine .call ?_ (resolves_of_ofSexp head hfunction)
        (resolvesAll_of_ofOperands tail hoperands hlist)
      rw [Sexp.phrase, hkeyword, hlist]
    · cases h

/-- The term that the analysis finds for a form is the term of the form. -/
theorem resolves_of_ofForm {scopes : Scopes} : (keyword : Keyword) → (tail : Sexp) → {t : Term} →
    ofForm cx scopes keyword tail = .ok t → {e : Sexp} → {operands : List Sexp} →
    tail.list? = some operands → operands.length = keyword.operandCount →
    e.phrase = .form keyword operands → Resolves scopes e t
  | .quote, .pair _ x rest, t, h, e, operands, hlist, hcount, hphrase => by
    obtain rfl := Sexp.eq_singleton_of_list? hlist hcount
    exact Except.ok.inj h ▸ .quote hphrase
  | .unary op, .pair a x rest, t, h, e, operands, hlist, hcount, hphrase => by
    obtain rfl := Sexp.eq_singleton_of_list? hlist hcount
    obtain ⟨u, hx, rfl⟩ := exists_of_map_eq_ok h
    exact .unary hphrase (resolves_of_ofSexp x hx)
  | .binary op, .pair a x (.pair b y rest), t, h, e, operands, hlist, hcount, hphrase => by
    obtain rfl := Sexp.eq_pair_of_list? hlist hcount
    rw [ofForm] at h
    split at h
    · next hop =>
      obtain ⟨⟨u, v⟩, hparts, rfl⟩ := exists_of_map_eq_ok h
      obtain ⟨hy, hx⟩ := Checked.both_eq_ok_iff.1 hparts
      exact .leftFirst hphrase hop (resolves_of_ofSexp x hx) (resolves_of_ofSexp y hy)
    · next hop =>
      obtain ⟨⟨u, v⟩, hparts, rfl⟩ := exists_of_map_eq_ok h
      obtain ⟨hx, hy⟩ := Checked.both_eq_ok_iff.1 hparts
      exact .rightFirst hphrase (Bool.eq_false_iff.2 hop) (resolves_of_ofSexp x hx)
        (resolves_of_ofSexp y hy)
  | .if, .pair a test (.pair b yes (.pair c no rest)), t, h, e, operands, hlist, hcount,
      hphrase => by
    obtain rfl := Sexp.eq_triple_of_list? hlist hcount
    obtain ⟨⟨u, v, w⟩, hparts, rfl⟩ := exists_of_map_eq_ok h
    obtain ⟨hyes, hparts⟩ := Checked.both_eq_ok_iff.1 hparts
    obtain ⟨hno, htest⟩ := Checked.both_eq_ok_iff.1 hparts
    exact .conditional hphrase (resolves_of_ofSexp test htest) (resolves_of_ofSexp yes hyes)
      (resolves_of_ofSexp no hno)
  | .lambda, .pair a params (.pair b body rest), t, h, e, operands, hlist, hcount, hphrase => by
    obtain rfl := Sexp.eq_pair_of_list? hlist hcount
    rw [ofForm] at h
    split at h
    · next hnames =>
      obtain ⟨u, hbody, rfl⟩ := exists_of_map_eq_ok h
      exact .lambda hphrase (params?_of_ofList hnames) (resolves_of_ofSexp body hbody)
    · cases h
  | .let, .pair a bindings (.pair b body rest), t, h, e, operands, hlist, hcount, hphrase => by
    obtain rfl := Sexp.eq_pair_of_list? hlist hcount
    rw [ofForm] at h
    obtain ⟨names, hnames, hterm⟩ := exists_of_bind_eq_ok h
    obtain ⟨arms, harms, rfl⟩ := exists_arms_of_boundNames hnames
    obtain ⟨⟨u, us⟩, hparts, rfl⟩ := exists_of_map_eq_ok hterm
    obtain ⟨hbody, hinits⟩ := Checked.both_eq_ok_iff.1 hparts
    exact .let hphrase harms (resolvesAll_of_ofArms bindings hinits harms)
      (resolves_of_ofSexp body hbody)
  | .letrec, .pair a bindings (.pair b body rest), t, h, e, operands, hlist, hcount, hphrase => by
    obtain rfl := Sexp.eq_pair_of_list? hlist hcount
    rw [ofForm] at h
    obtain ⟨names, hnames, hterm⟩ := exists_of_bind_eq_ok h
    obtain ⟨arms, harms, rfl⟩ := exists_arms_of_boundNames hnames
    obtain ⟨⟨u, us⟩, hparts, rfl⟩ := exists_of_map_eq_ok hterm
    obtain ⟨hbody, hinits⟩ := Checked.both_eq_ok_iff.1 hparts
    exact .letrec hphrase harms (resolvesAll_of_ofArms bindings hinits harms)
      (resolves_of_ofSexp body hbody)
  | keyword, .atom a, t, h, e, operands, hlist, hcount, hphrase => by
    obtain ⟨-, rfl⟩ := Sexp.list?_atom hlist
    cases keyword <;> cases hcount
  | .binary _, .pair _ _ (.atom _), t, h, e, operands, hlist, hcount, hphrase
  | .if, .pair _ _ (.atom _), t, h, e, operands, hlist, hcount, hphrase
  | .lambda, .pair _ _ (.atom _), t, h, e, operands, hlist, hcount, hphrase
  | .let, .pair _ _ (.atom _), t, h, e, operands, hlist, hcount, hphrase
  | .letrec, .pair _ _ (.atom _), t, h, e, operands, hlist, hcount, hphrase => by
    obtain ⟨others, hothers, rfl⟩ := Sexp.list?_pair_eq_some hlist
    obtain ⟨-, rfl⟩ := Sexp.list?_atom hothers
    cases hcount
  | .if, .pair _ _ (.pair _ _ (.atom _)), t, h, e, operands, hlist, hcount, hphrase => by
    obtain ⟨second, hsecond, rfl⟩ := Sexp.list?_pair_eq_some hlist
    obtain ⟨third, hthird, rfl⟩ := Sexp.list?_pair_eq_some hsecond
    obtain ⟨-, rfl⟩ := Sexp.list?_atom hthird
    cases hcount

/-- The terms that the analysis finds for the items of a list are the terms of the items. -/
theorem resolvesAll_of_ofOperands {scopes : Scopes} : (list : Sexp) → {ts : List Term} →
    ofOperands cx scopes list = .ok ts → {es : List Sexp} → list.list? = some es →
    ResolvesAll scopes es ts
  | .atom a, ts, h, es, hlist => by
    obtain ⟨-, rfl⟩ := Sexp.list?_atom hlist
    exact Except.ok.inj h ▸ .nil
  | .pair cell e rest, ts, h, es, hlist => by
    obtain ⟨others, hothers, rfl⟩ := Sexp.list?_pair_eq_some hlist
    obtain ⟨⟨u, us⟩, hparts, rfl⟩ := exists_of_map_eq_ok h
    obtain ⟨he, hrest⟩ := Checked.both_eq_ok_iff.1 hparts
    exact .cons (resolves_of_ofSexp e he) (resolvesAll_of_ofOperands rest hrest hothers)

/-- The terms that the analysis finds for the initial values of bindings are the terms of the
expressions in the arms. -/
theorem resolvesAll_of_ofArms {scopes : Scopes} : (bindings : Sexp) → {inits : List Term} →
    ofArms cx scopes bindings = .ok inits → {arms : List (String × Sexp)} →
    bindings.arms? = some arms → ResolvesAll scopes (arms.map Prod.snd) inits
  | .pair _ (.pair a name (.pair cell e last)) rest, inits, h, arms, harms => by
    obtain ⟨⟨u, us⟩, hparts, rfl⟩ := exists_of_map_eq_ok h
    obtain ⟨he, hrest⟩ := Checked.both_eq_ok_iff.1 hparts
    have he := resolves_of_ofSexp e he
    obtain ⟨boundName, init, others, ⟨_, _, _, heq⟩, hothers, rfl⟩ := exists_arms_of_pair harms
    cases heq
    exact .cons he (resolvesAll_of_ofArms rest hrest hothers)
  | .atom a, inits, h, arms, harms => by
    obtain rfl := eq_nil_of_arms?_atom harms
    exact Except.ok.inj h ▸ .nil
  | .pair _ (.atom a) rest, inits, h, arms, harms
  | .pair _ (.pair _ _ (.atom a)) rest, inits, h, arms, harms => by
    obtain ⟨_, _, _, ⟨_, _, _, heq⟩, -⟩ := exists_arms_of_pair harms
    cases heq

end

/-- The term of a function is that of a function, and no other expression has one. -/
theorem Resolves.isLambda_iff {scopes : Scopes} {e : Sexp} {t : Term} (h : Resolves scopes e t) :
    (∃ params body, t = .lambda params body) ↔ ∃ operands, e.phrase = .form .lambda operands := by
  cases h <;> simp_all

/-! ### Uniqueness -/

mutual

/-- An expression has one term only. -/
theorem Resolves.unique {scopes : Scopes} {e : Sexp} {t t' : Term} : Resolves scopes e t →
    Resolves scopes e t' → t = t'
  | .constant hphrase, h => by
    cases h with
    | constant hphrase' =>
      cases hphrase.symm.trans hphrase'
      rfl
    | _ => simp_all
  | .variable hphrase hlocate, h => by
    cases h with
    | «variable» hphrase' hlocate' =>
      cases hphrase.symm.trans hphrase'
      rw [Option.some.inj (hlocate.symm.trans hlocate')]
    | _ => simp_all
  | .quote hphrase, h => by
    cases h with
    | quote hphrase' =>
      cases hphrase.symm.trans hphrase'
      rfl
    | _ => simp_all
  | .unary hphrase hx, h => by
    cases h with
    | unary hphrase' hx' =>
      cases hphrase.symm.trans hphrase'
      rw [hx.unique hx']
    | _ => simp_all
  | .leftFirst hphrase hop hx hy, h => by
    cases h with
    | leftFirst hphrase' hop' hx' hy' =>
      cases hphrase.symm.trans hphrase'
      rw [hx.unique hx', hy.unique hy']
    | _ => simp_all
  | .rightFirst hphrase hop hx hy, h => by
    cases h with
    | rightFirst hphrase' hop' hx' hy' =>
      cases hphrase.symm.trans hphrase'
      rw [hx.unique hx', hy.unique hy']
    | _ => simp_all
  | .conditional hphrase htest hyes hno, h => by
    cases h with
    | conditional hphrase' htest' hyes' hno' =>
      cases hphrase.symm.trans hphrase'
      rw [htest.unique htest', hyes.unique hyes', hno.unique hno']
    | _ => simp_all
  | .lambda hphrase hparams hbody, h => by
    cases h with
    | lambda hphrase' hparams' hbody' =>
      cases hphrase.symm.trans hphrase'
      cases hparams.symm.trans hparams'
      rw [hbody.unique hbody']
    | _ => simp_all
  | .let hphrase harms hinits hbody, h => by
    cases h with
    | «let» hphrase' harms' hinits' hbody' =>
      cases hphrase.symm.trans hphrase'
      cases harms.symm.trans harms'
      rw [hinits.unique hinits', hbody.unique hbody']
    | _ => simp_all
  | .letrec hphrase harms hinits hbody, h => by
    cases h with
    | letrec hphrase' harms' hinits' hbody' =>
      cases hphrase.symm.trans hphrase'
      cases harms.symm.trans harms'
      rw [hinits.unique hinits', hbody.unique hbody']
    | _ => simp_all
  | .call hphrase hfunction hargs, h => by
    cases h with
    | call hphrase' hfunction' hargs' =>
      cases hphrase.symm.trans hphrase'
      rw [hfunction.unique hfunction', hargs.unique hargs']
    | _ => simp_all

/-- Expressions have one list of terms only. -/
theorem ResolvesAll.unique {scopes : Scopes} {es : List Sexp} {ts ts' : List Term} :
    ResolvesAll scopes es ts → ResolvesAll scopes es ts' → ts = ts'
  | .nil, h => by
    cases h
    rfl
  | .cons hfirst hothers, h => by
    cases h with
    | cons hfirst' hothers' => rw [hfirst.unique hfirst', hothers.unique hothers']

end

end Term

end Secd
