import Secd.Proofs.Term.Resolution

/-!
# Admissible terms

The code of a term works for an environment of some depth: every variable is in one of so many
frames. It can be written down if the addresses of the variables are machine integers. Both follow
from the resolution of names, the latter if the expression is not higher than there are machine
integers. No expression in a store is higher than the store is large (`Store.Holds.height_le_size`),
so this is no restriction for a store whose addresses are machine integers.
-/

namespace Secd

/-- Numbers below the limit are machine integers. -/
def Address.limit : Nat := 9223372036854775808

namespace Scopes

/-- An address is one of a frame that is in scope, and of a name in it. -/
theorem lt_of_locate? {scopes : Scopes} {name : String} {a : Address}
    (h : scopes.locate? name = some a) :
    a.frame < scopes.length ∧ ∃ frame ∈ scopes, a.slot < frame.length := by
  induction scopes generalizing a with
  | nil => cases h
  | cons frame outer ih =>
    rw [locate?] at h
    split at h
    · next slot hslot =>
      obtain rfl := Option.some.inj h
      obtain ⟨hlt, -, -⟩ := List.idxOf?_eq_some_iff.1 hslot
      exact ⟨Nat.succ_pos _, frame, List.mem_cons_self, hlt⟩
    · obtain ⟨b, hb, rfl⟩ := Option.map_eq_some_iff.1 h
      obtain ⟨hframe, found, hfound, hslot⟩ := ih hb
      exact ⟨Nat.succ_lt_succ hframe, found, List.mem_cons_of_mem _ hfound, hslot⟩

end Scopes

namespace Term

/-- The term can be written down, and works for an environment of the given depth: the store holds
its constants, its variables are in the frames of the environment, and their addresses are below the
limit. -/
inductive Admissible (s : Store) (limit : Nat) : (depth : Nat) → Term → Prop where
  | constant {depth : Nat} {value : Sexp} (hheld : s.Holds value) :
      Admissible s limit depth (.constant value)
  | variable {depth : Nat} {a : Address} (hdepth : a.frame < depth) (hframe : a.frame < limit)
      (hslot : a.slot < limit) :
      Admissible s limit depth (.variable a)
  | unary {depth : Nat} {op : Unary} {t : Term} (ht : Admissible s limit depth t) :
      Admissible s limit depth (.unary op t)
  | binary {depth : Nat} {op : Binary} {t u : Term} (ht : Admissible s limit depth t)
      (hu : Admissible s limit depth u) :
      Admissible s limit depth (.binary op t u)
  | conditional {depth : Nat} {test yes no : Term} (htest : Admissible s limit depth test)
      (hyes : Admissible s limit depth yes) (hno : Admissible s limit depth no) :
      Admissible s limit depth (.conditional test yes no)
  | lambda {depth : Nat} {names : List String} {body : Term}
      (hbody : Admissible s limit (depth + 1) body) :
      Admissible s limit depth (.lambda names body)
  | apply {depth : Nat} {f : Term} {args : List Term} (hf : Admissible s limit depth f)
      (hargs : ∀ t ∈ args, Admissible s limit depth t) :
      Admissible s limit depth (.apply f args)
  | letrec {depth : Nat} {names : List String} {inits : List Term} {body : Term}
      (hlength : names.length = inits.length)
      (hinits : ∀ t ∈ inits, Admissible s limit (depth + 1) t)
      (hbody : Admissible s limit (depth + 1) body) :
      Admissible s limit depth (.letrec names inits body)

variable {s : Store} {limit : Nat}

/-- A term is admissible for a store that extends one for which it is. -/
theorem Admissible.extends {s' : Store} {depth : Nat} {t : Term}
    (ht : Admissible s limit depth t) (hs : s.Extends s') : Admissible s' limit depth t := by
  induction ht with
  | constant hheld => exact .constant (hheld.extends hs)
  | «variable» hdepth hframe hslot => exact .variable hdepth hframe hslot
  | unary _ ih => exact .unary ih
  | binary _ _ iht ihu => exact .binary iht ihu
  | conditional _ _ _ ihtest ihyes ihno => exact .conditional ihtest ihyes ihno
  | lambda _ ih => exact .lambda ih
  | apply _ _ ihf ihargs => exact .apply ihf ihargs
  | letrec hlength _ _ ihinits ihbody => exact .letrec hlength ihinits ihbody

/-- There is a term for each of the expressions. -/
theorem ResolvesAll.length_eq {scopes : Scopes} {es : List Sexp} {ts : List Term}
    (h : ResolvesAll scopes es ts) : es.length = ts.length := by
  induction es generalizing ts with
  | nil => cases h; rfl
  | cons e es ih =>
    cases h with
    | cons _ hothers => rw [List.length_cons, List.length_cons, ih hothers]

/-- The expression is held by the store, and the scopes stay below the limit, also inside it. -/
structure Fits (s : Store) (limit : Nat) (scopes : Scopes) (e : Sexp) : Prop where
  held : s.Holds e
  depth : scopes.length + e.height ≤ limit
  slots : ∀ frame ∈ scopes, frame.length ≤ limit

/-- A held expression that is less high fits the same scopes. -/
theorem Fits.part {scopes : Scopes} {e x : Sexp} (h : Fits s limit scopes e) (hheld : s.Holds x)
    (hlt : x.height < e.height) : Fits s limit scopes x := by
  have hdepth : scopes.length + e.height ≤ limit := h.depth
  exact ⟨hheld, by omega, h.slots⟩

/-- A held expression that is less high fits the scopes with one more frame of names. -/
theorem Fits.under {scopes : Scopes} {e x : Sexp} (h : Fits s limit scopes e) (hheld : s.Holds x)
    (hlt : x.height < e.height) {names : List String} (hnames : names.length ≤ e.height) :
    Fits s limit (names :: scopes) x := by
  have hdepth : scopes.length + e.height ≤ limit := h.depth
  refine ⟨hheld, ?_, ?_⟩
  · rw [List.length_cons]
    omega
  · intro frame hframe
    rcases List.mem_cons.1 hframe with rfl | hframe
    · omega
    · exact h.slots frame hframe

/-- The operands of a form fit the scopes of the form. -/
theorem Fits.operand {scopes : Scopes} {e x : Sexp} (h : Fits s limit scopes e)
    {keyword : Keyword} {operands : List Sexp} (hphrase : e.phrase = .form keyword operands)
    (hx : x ∈ operands) : Fits s limit scopes x :=
  h.part (h.held.of_phrase_form hphrase hx) (Sexp.height_lt_of_phrase_form hphrase hx)

/-- The body of a form fits the scopes with the names that another operand binds. -/
theorem Fits.body {scopes : Scopes} {e binders body : Sexp} (h : Fits s limit scopes e)
    {keyword : Keyword} (hphrase : e.phrase = .form keyword [binders, body])
    {names : List String} (hnames : names.length ≤ binders.height) :
    Fits s limit (names :: scopes) body := by
  have hmem : body ∈ [binders, body] := List.mem_cons_of_mem _ List.mem_cons_self
  have hlt : binders.height < e.height :=
    Sexp.height_lt_of_phrase_form hphrase List.mem_cons_self
  exact h.under (h.held.of_phrase_form hphrase hmem) (Sexp.height_lt_of_phrase_form hphrase hmem)
    (by omega)

/-- A list of bindings has names for no more slots than it is high. -/
theorem length_arms_le_height {bindings : Sexp} {arms : List (String × Sexp)}
    (harms : bindings.arms? = some arms) : (arms.map Prod.fst).length ≤ bindings.height := by
  rw [List.length_map]
  exact Sexp.length_le_height_of_arms? harms

mutual

/-- The term of an expression that fits its scopes is admissible. -/
theorem Resolves.admissible {scopes : Scopes} {e : Sexp} {t : Term} : Resolves scopes e t →
    Fits s limit scopes e → Admissible s limit scopes.length t
  | .constant hphrase, he => .constant trivial
  | .variable hphrase hlocate, he => by
    obtain ⟨hframe, frame, hmem, hslot⟩ := Scopes.lt_of_locate? hlocate
    have hdepth := he.depth
    exact .variable hframe (by omega) (Nat.lt_of_lt_of_le hslot (he.slots frame hmem))
  | .quote hphrase, he => .constant (he.held.of_phrase_form hphrase List.mem_cons_self)
  | .unary hphrase hx, he => .unary (hx.admissible (he.operand hphrase List.mem_cons_self))
  | .leftFirst hphrase hop hx hy, he =>
    .binary (hx.admissible (he.operand hphrase (by simp)))
      (hy.admissible (he.operand hphrase (by simp)))
  | .rightFirst hphrase hop hx hy, he =>
    .binary (hy.admissible (he.operand hphrase (by simp)))
      (hx.admissible (he.operand hphrase (by simp)))
  | .conditional hphrase htest hyes hno, he =>
    .conditional (htest.admissible (he.operand hphrase (by simp)))
      (hyes.admissible (he.operand hphrase (by simp)))
      (hno.admissible (he.operand hphrase (by simp)))
  | .lambda hphrase hparams hbody, he => by
    have hnames := Sexp.length_le_height_of_params? hparams
    exact .lambda (hbody.admissible (he.body hphrase hnames))
  | .let hphrase harms hinits hbody, he => by
    have hbindings := he.operand hphrase List.mem_cons_self
    have hnames := length_arms_le_height harms
    refine .apply (.lambda (hbody.admissible (he.body hphrase hnames))) (hinits.admissible ?_)
    intro init hinit
    have hheld := hbindings.held.of_mem_arms harms hinit
    exact hbindings.part hheld (Sexp.height_lt_of_mem_arms harms hinit)
  | .letrec hphrase harms hinits hbody, he => by
    have hbindings := he.operand hphrase List.mem_cons_self
    have hnames := length_arms_le_height harms
    refine .letrec ?_ (hinits.admissible ?_) (hbody.admissible (he.body hphrase hnames))
    · rw [← hinits.length_eq, List.length_map, List.length_map]
    · intro init hinit
      have hheld := hbindings.held.of_mem_arms harms hinit
      exact hbindings.under hheld (Sexp.height_lt_of_mem_arms harms hinit) hnames
  | .call hphrase hfunction hargs, he => by
    obtain ⟨hheld, hargsHeld⟩ := he.held.of_phrase_call hphrase
    obtain ⟨hlt, hargsLt⟩ := Sexp.height_lt_of_phrase_call hphrase
    refine .apply (hfunction.admissible (he.part hheld hlt)) (hargs.admissible ?_)
    intro arg harg
    exact he.part (hargsHeld arg harg) (hargsLt arg harg)

/-- So are the terms of several expressions. -/
theorem ResolvesAll.admissible {scopes : Scopes} {es : List Sexp} {ts : List Term} :
    ResolvesAll scopes es ts → (∀ e ∈ es, Fits s limit scopes e) →
      ∀ t ∈ ts, Admissible s limit scopes.length t
  | .nil, _ => by simp
  | .cons hfirst hothers, hes => by
    have hfirst := hfirst.admissible (hes _ List.mem_cons_self)
    have hothers := hothers.admissible fun e he => hes e (List.mem_cons_of_mem _ he)
    exact List.forall_mem_cons.2 ⟨hfirst, hothers⟩

end

end Term

end Secd
