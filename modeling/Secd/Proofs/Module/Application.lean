import Secd.Proofs.Module.CallSites
import Secd.Proofs.Term.Matching

/-!
# A program and its application

A program can be run with arguments in two ways. It can be compiled as a program that is applied to
the arguments it is run with, or the arguments can be written into it: the application of the
program to values in quotes is an expression, and can be compiled as one. The code of the expression
begins with that of the values, and from there on it is the code of the program up to the cells.
-/

namespace Secd

/-- The expression is the application of the function to values in quotes. -/
def Sexp.Applies (e function : Sexp) (values : List Sexp) : Prop :=
  ∃ quotes, e.list? = some (function :: quotes) ∧
    List.Forall₂ (fun quoted v => quoted.list? = some [.symbol Keyword.quote.name, v]) quotes values

/-- The function of an application is less high than the application. -/
theorem Sexp.Applies.height_lt {e function : Sexp} {values : List Sexp}
    (h : e.Applies function values) : function.height < e.height := by
  obtain ⟨quotes, hlist, -⟩ := h
  exact height_lt_of_mem_list? hlist List.mem_cons_self

/-- A value in quotes is read as a form. -/
theorem Sexp.phrase_of_quoted {e v : Sexp} (h : e.list? = some [.symbol Keyword.quote.name, v]) :
    e.phrase = .form .quote [v] := by
  cases e with
  | atom a =>
    obtain ⟨-, heq⟩ := list?_atom h
    cases heq
  | pair c head tail =>
    obtain ⟨rest, hrest, heq⟩ := list?_pair_eq_some h
    obtain ⟨rfl, rfl⟩ := List.cons.inj heq
    rw [phrase, hrest]
    rfl

namespace Term

variable {prelude : Option Prelude} {e function : Sexp} {values : List Sexp} {t : Term}

/-- No name in the frame of the prelude is that of a keyword. -/
theorem Resolves.ofSexp?_eq_none (hprelude : Prelude.IsStandard prelude)
    (h : Resolves (Prelude.scopes prelude) e t) : Keyword.ofSexp? e = none := by
  cases e with
  | pair c head tail => rfl
  | atom a =>
    cases a with
    | symbol name =>
      cases h with
      | «variable» hphrase hlocate =>
        obtain rfl := Phrase.variable.inj hphrase
        rw [hprelude.scopes_eq] at hlocate
        have hnames : ∀ name ∈ Primitive.all.map Primitive.name, Keyword.ofName? name = none := by
          decide
        split at hlocate
        · refine hnames name ?_
          by_contra hname
          rw [(Scopes.locate?_eq_none_iff _ _).2 (List.forall_mem_singleton.2 hname)] at hlocate
          cases hlocate
        · cases hlocate
      | _ hphrase => cases hphrase
    | _ => rfl

/-- Values in quotes have themselves as constants. -/
theorem resolvesAll_quotes {scopes : Scopes} {quotes : List Sexp}
    (h : List.Forall₂ (fun quoted v => quoted.list? = some [.symbol Keyword.quote.name, v]) quotes
      values) : ResolvesAll scopes quotes (values.map .constant) := by
  induction h with
  | nil => exact .nil
  | cons hquoted _ ih => exact .cons (.quote (Sexp.phrase_of_quoted hquoted)) ih

/-- The term of an application is a call of the term of its function. -/
theorem Resolves.applies (hprelude : Prelude.IsStandard prelude)
    (h : Resolves (Prelude.scopes prelude) function t) (he : e.Applies function values) :
    Resolves (Prelude.scopes prelude) e (.apply t (values.map .constant)) := by
  obtain ⟨quotes, hlist, hquotes⟩ := he
  cases e with
  | atom a =>
    obtain ⟨-, heq⟩ := Sexp.list?_atom hlist
    cases heq
  | pair c head tail =>
    obtain ⟨rest, hrest, heq⟩ := Sexp.list?_pair_eq_some hlist
    obtain ⟨rfl, rfl⟩ := List.cons.inj heq
    refine .call ?_ h (resolvesAll_quotes hquotes)
    rw [Sexp.phrase, h.ofSexp?_eq_none hprelude, hrest]

end Term

namespace Module

open Term

/-- The program, which the store holds, begins with the code that makes a list of the values, and
goes on with the code `c`. This is typed for a list of arguments. -/
structure Supplies (m : Module) (s : Store) (values : List Sexp) (sites : List CallSite)
    (depth : Nat) (c : Sexp) : Prop where
  begins : ∃ d o, m.code.Begins [Opcode.ldc.sexp, .nil] d ∧
    WrittenAll (Address.Below Address.limit) depth (values.map .constant) d c o
  typed : Typed 0 sites depth 0 [.given] .stop c
  held : s.Holds m.code

/-- A program is held by every store that extends the one that holds it. -/
theorem Supplies.extends {m : Module} {s s' : Store} {values : List Sexp} {sites : List CallSite}
    {depth : Nat} {c : Sexp} (h : m.Supplies s values sites depth c) (hs : s.Extends s') :
    m.Supplies s' values sites depth c := ⟨h.begins, h.typed, h.held.extends hs⟩

/-- If a program and its application to values in quotes both compile, the code of the application
supplies the values to code that matches that of the program. -/
theorem exists_supplies_of_compile {p e : Sexp} {values : List Sexp} {map map' : SourceMap}
    {prelude : Option Prelude} {applied expression : Module} {s s₁ t t₁ : Store}
    (hprelude : Prelude.IsStandard prelude) (hp : s.Holds p) (he : t.Holds e)
    (happlies : e.Applies p values) (hheight : e.height < Address.limit)
    (happlied : compile p map .applied prelude s = (.ok applied, s₁))
    (hexpression : compile e map' .expression prelude t = (.ok expression, t₁)) :
    ∃ sites depth c, expression.Supplies t₁ values sites depth c ∧ applied.code.Matches c ∧
      s₁.Holds applied.code ∧ applied.usesPrelude = expression.usesPrelude := by
  have hheight' : p.height < Address.limit := Nat.lt_trans happlies.height_lt hheight
  obtain ⟨term, _, _, hcompiled, hshape, hsited⟩ :=
    exists_sited_of_compile hprelude hp hheight' happlied (Prelude.scopes prelude).length
  obtain ⟨term', _, _, hcompiled', hshape', hsited'⟩ :=
    exists_sited_of_compile hprelude he hheight hexpression (Prelude.scopes prelude).length
  obtain rfl := hcompiled'.resolves.unique (hcompiled.resolves.applies hprelude happlies)
  obtain ⟨_, ending, hwritten, hends, -⟩ := hsited.written
  obtain ⟨_, ending', hwritten', hends', -⟩ := hsited'.written
  rw [hshape] at hends
  rw [hshape'] at hends'
  cases hwritten' with
  | @apply _ _ _ _ d c g _ list inner hcode hargs hf hap =>
    have hmatch : ending.Matches g := by
      obtain ⟨cell, tail, rfl, rfl⟩ := hap
      have hap' : (Sexp.pair cell Opcode.ap.sexp tail).Begins
          [Opcode.ap.sexp, Opcode.stop.sexp] .nil := ⟨cell, tail, rfl, hends'⟩
      exact hends.matches hap' (Sexp.matchAll_refl _) rfl
    cases hcompiled'.admissible with
    | apply hadmissible _ =>
      have htyped : term.TypedBefore 0 (⟨g, none, 0⟩ :: inner.sites)
          (Prelude.scopes prelude).length :=
        hadmissible.typedBefore (fun h => absurd h (Nat.lt_irrefl 0)) _ rfl
      have hcode' := htyped hf (List.subset_cons_self _ _)
        (.ap hap List.mem_cons_self .given (.stop hends'))
      exact ⟨_, _, c, ⟨⟨d, list, hcode, hargs⟩, hcode', hcompiled'.held⟩,
        hwritten.matches hf hmatch, hcompiled.held,
        hcompiled.usesPrelude.trans hcompiled'.usesPrelude.symm⟩

end Module

end Secd
