import Secd.Proofs.Module.Compiled
import Secd.Proofs.Term.Decided
import Secd.Proofs.Term.Typed

/-!
# Calls of callables by name

A name that is found in the frame of the prelude is that of a primitive, and the slot of the name is
that of the primitive. In a well-formed program a call by such a name has as many arguments as the
primitive has parameters, whatever binders are around it.
-/

namespace Secd

/-- A callable of a standard prelude takes as many arguments as its primitive has parameters. -/
theorem Prelude.arityOf?_standard (s : Store) {slot : Nat} {p : Primitive}
    (h : Primitive.all[slot]? = some p) : (standard s).1.arityOf? p.name = some p.arity := by
  cases p <;> rfl

/-- An address that is not in the inner scopes is that of a name in the outermost one. -/
theorem Scopes.getElem?_of_locate? {inner : Scopes} {outermost : List String} {name : String}
    {a : Address} (h : (inner ++ [outermost]).locate? name = some a)
    (hframe : inner.length ≤ a.frame) :
    a.frame = inner.length ∧ outermost[a.slot]? = some name := by
  induction inner generalizing a with
  | nil =>
    rw [List.nil_append, locate?] at h
    split at h
    · next slot hslot =>
      obtain rfl := Option.some.inj h
      obtain ⟨hlt, hname, -⟩ := List.idxOf?_eq_some_iff.1 hslot
      exact ⟨rfl, by rw [List.getElem?_eq_getElem hlt, hname]⟩
    · cases h
  | cons frame inner ih =>
    rw [List.cons_append, locate?] at h
    split at h
    · obtain rfl := Option.some.inj h
      exact absurd hframe (Nat.not_succ_le_zero _)
    · obtain ⟨b, hb, rfl⟩ := Option.map_eq_some_iff.1 h
      obtain ⟨heq, hslot⟩ := ih hb (Nat.le_of_succ_le_succ hframe)
      exact ⟨congrArg Nat.succ heq, hslot⟩

namespace Term

open Sexp

variable {prelude : Option Prelude}

/-- A call is saturated if it is well formed. -/
theorem saturated_of_takes {inner : Scopes} {function : Sexp} {args : List Sexp} {f : Term}
    (hprelude : Prelude.IsStandard prelude)
    (hfunction : Resolves (inner ++ Prelude.scopes prelude) function f)
    (htakes : ∀ p name, prelude = some p → function = .symbol name →
      (inner ++ Prelude.scopes prelude).BindsOutermost name → p.Takes name args) (code : Sexp) :
    CallSite.Saturated ⟨code, f.outerSlot? inner.length, args.length⟩ := by
  rintro slot (hslot : f.outerSlot? inner.length = some slot)
  cases hfunction with
  | @«variable» _ e name a hphrase hlocate =>
    rw [outerSlot?] at hslot
    split at hslot
    · next hframe =>
      obtain rfl := Option.some.inj hslot
      cases prelude with
      | none =>
        -- there is no frame outside of the program
        have hlt := (Scopes.lt_of_locate? hlocate).1
        rw [Prelude.scopes, List.append_nil] at hlt
        omega
      | some p =>
        obtain ⟨s, rfl⟩ := hprelude p rfl
        obtain ⟨heq, hname⟩ := Scopes.getElem?_of_locate? hlocate hframe
        have houtermost :
            (inner ++ [(Prelude.standard s).1.names]).BindsOutermost name := by
          refine Scopes.exists_isOutermost_iff.1 ⟨a, hlocate, ?_⟩
          rw [Scopes.isOutermost, heq, List.length_append]
          simp
        have hsymbol : function = .symbol name := by
          cases function with
          | atom b => cases b <;> cases hphrase; rfl
          | pair cell head tail =>
            rw [phrase] at hphrase
            split at hphrase <;> cases hphrase
        have hnames : (Prelude.standard s).1.names = Primitive.all.map Primitive.name :=
          Prelude.names_ofList s Primitive.all
        rw [hnames, List.getElem?_map] at hname
        obtain ⟨q, hq, rfl⟩ := Option.map_eq_some_iff.1 hname
        refine ⟨q, hq, ?_⟩
        have htaken := htakes _ _ rfl hsymbol houtermost
        exact (htaken.arity _ (Prelude.arityOf?_standard s hq)).symm
    · cases hslot
  | _ => cases hslot

mutual

/-- The calls in the code of a well-formed expression are saturated. -/
theorem Resolves.saturated (hprelude : Prelude.IsStandard prelude) {P : Address → Prop}
    {scopes : Scopes} {e : Sexp} {t : Term} :
    Resolves scopes e t → ∀ inner, scopes = inner ++ Prelude.scopes prelude →
      e.WellFormed prelude scopes → ∀ {c k : Sexp} {o : Outline},
        Written P inner.length t c k o → ∀ site ∈ o.sites, site.Saturated
  | .constant _, _, _, _, _, _, _, hwritten
  | .variable _ _, _, _, _, _, _, _, hwritten
  | .quote _, _, _, _, _, _, _, hwritten => by
    cases hwritten
    exact List.forall_mem_nil _
  | .unary hphrase hx, inner, hscopes, he, _, _, _, hwritten => by
    cases hwritten with
    | unary hwritten _ =>
      exact hx.saturated hprelude inner hscopes ((wellFormed_unary hphrase).1 he) hwritten
  | .leftFirst hphrase _ hx hy, inner, hscopes, he, _, _, _, hwritten => by
    obtain ⟨hfirst, hsecond⟩ := (wellFormed_binary hphrase).1 he
    cases hwritten with
    | binary hwritten hwritten' _ =>
      exact List.forall_mem_append.2 ⟨hx.saturated hprelude inner hscopes hfirst hwritten,
        hy.saturated hprelude inner hscopes hsecond hwritten'⟩
  | .rightFirst hphrase _ hx hy, inner, hscopes, he, _, _, _, hwritten => by
    obtain ⟨hfirst, hsecond⟩ := (wellFormed_binary hphrase).1 he
    cases hwritten with
    | binary hwritten hwritten' _ =>
      exact List.forall_mem_append.2 ⟨hy.saturated hprelude inner hscopes hsecond hwritten,
        hx.saturated hprelude inner hscopes hfirst hwritten'⟩
  | .conditional hphrase htest hyes hno, inner, hscopes, he, _, _, _, hwritten => by
    obtain ⟨hfirst, hsecond, hthird⟩ := (wellFormed_conditional hphrase).1 he
    cases hwritten with
    | conditional hwritten _ hyesWritten _ hnoWritten _ =>
      refine List.forall_mem_append.2 ⟨htest.saturated hprelude inner hscopes hfirst hwritten, ?_⟩
      exact List.forall_mem_append.2 ⟨hyes.saturated hprelude inner hscopes hsecond hyesWritten,
        hno.saturated hprelude inner hscopes hthird hnoWritten⟩
  | .lambda hphrase hparams hbody, inner, hscopes, he, _, _, _, hwritten => by
    obtain ⟨names', ⟨hparams', -⟩, hinside⟩ := (wellFormed_lambda hphrase).1 he
    obtain rfl := Option.some.inj (hparams.symm.trans hparams')
    cases hwritten with
    | lambda _ hwritten _ =>
      have hblock :=
        hbody.saturated hprelude (_ :: inner) (congrArg _ hscopes) hinside hwritten
      exact hblock
  | .let hphrase harms hinits hbody, inner, hscopes, he, _, _, _, hwritten => by
    obtain ⟨arms, ⟨harms', -⟩, hinside, houtside⟩ := (wellFormed_let hphrase).1 he
    obtain rfl := Option.some.inj (harms.symm.trans harms')
    cases hwritten with
    | apply _ hwritten hfunction _ =>
      cases hfunction with
      | lambda _ hwritten' _ =>
        have hvalues := hinits.saturated hprelude inner hscopes houtside hwritten
        have hblock :=
          hbody.saturated hprelude (_ :: inner) (congrArg _ hscopes) hinside hwritten'
        exact List.forall_mem_append.2
          ⟨List.forall_mem_append.2 ⟨hvalues, hblock⟩, List.forall_mem_singleton.2 nofun⟩
  | .letrec hphrase harms hinits hbody, inner, hscopes, he, _, _, _, hwritten => by
    obtain ⟨arms, ⟨harms', -⟩, hinside, hinside'⟩ := (wellFormed_letrec hphrase).1 he
    obtain rfl := Option.some.inj (harms.symm.trans harms')
    cases hwritten with
    | letrec _ _ hwritten _ _ hwritten' _ =>
      have hlength := hinits.length_eq
      rw [List.length_map] at hlength
      obtain ⟨_, hwritten, heq⟩ := hwritten.exists_writtenAll ((List.length_map _).trans hlength)
      have hvalues := hinits.saturated hprelude (_ :: inner) (congrArg _ hscopes) hinside' hwritten
      have hblock :=
        hbody.saturated hprelude (_ :: inner) (congrArg _ hscopes) hinside hwritten'
      exact List.forall_mem_append.2 ⟨heq ▸ hvalues, hblock⟩
  | .call hphrase hfunction hargs, inner, hscopes, he, _, _, _, hwritten => by
    obtain ⟨htakes, hcalled, hpassed⟩ := (wellFormed_call hphrase).1 he
    cases hwritten with
    | apply _ hwritten hwritten' _ =>
      refine List.forall_mem_append.2 ⟨List.forall_mem_append.2 ⟨?_, ?_⟩, ?_⟩
      · exact hargs.saturated hprelude inner hscopes hpassed hwritten
      · exact hfunction.saturated hprelude inner hscopes hcalled hwritten'
      · subst hscopes
        rw [← hargs.length_eq]
        exact List.forall_mem_singleton.2 (saturated_of_takes hprelude hfunction htakes _)

/-- The same for several expressions. -/
theorem ResolvesAll.saturated (hprelude : Prelude.IsStandard prelude) {P : Address → Prop}
    {scopes : Scopes} {es : List Sexp} {ts : List Term} : ResolvesAll scopes es ts →
      ∀ inner, scopes = inner ++ Prelude.scopes prelude →
        (∀ e ∈ es, e.WellFormed prelude scopes) → ∀ {c k : Sexp} {o : Outline},
          WrittenAll P inner.length ts c k o → ∀ site ∈ o.sites, site.Saturated
  | .nil, _, _, _, _, _, _, hwritten => by
    cases hwritten
    exact List.forall_mem_nil _
  | .cons hfirst hothers, inner, hscopes, hes, _, _, _, hwritten => by
    obtain ⟨he, hes⟩ := List.forall_mem_cons.1 hes
    cases hwritten with
    | cons hwritten hwritten' _ =>
      exact List.forall_mem_append.2 ⟨hothers.saturated hprelude inner hscopes hes hwritten,
        hfirst.saturated hprelude inner hscopes he hwritten'⟩

end

end Term

end Secd
