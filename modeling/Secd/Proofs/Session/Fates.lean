import Secd.Proofs.Datum.Reread
import Secd.Proofs.Machine.Continued
import Secd.Proofs.Machine.Ending
import Secd.Proofs.Module.Recompiled

/-!
# What comes of a program

A program that has been read is refused by the compiler, or it is compiled and run, and the run
ends. If it is read twice, the same comes of it both times, whatever the stores hold and whatever
identities the callables of the preludes have.
-/

namespace Secd

/-- What comes of a program: the compiler refuses it, or it is compiled and its run ends. -/
inductive Fate where
  | refused (diagnostics : List Diagnostic)
  | ran (m : Module) (outcome : Outcome) (store : Store)

namespace Fate

/-- The value of the program in the store that its run has left, if it has one. -/
def value? : Fate → Option (Value × Store)
  | .ran _ (.halted v) s => some (v, s)
  | _ => none

/-- The module of the program, if it has been compiled. -/
def module? : Fate → Option Module
  | .refused _ => none
  | .ran m _ _ => some m

/-- The store that the run of the program has left, if it has been compiled. -/
def store? : Fate → Option Store
  | .refused _ => none
  | .ran _ _ s => some s

/-- The same has come of both programs: their diagnostics are related, or their modules are twins
and have been run to the same fault or to values that are the same once the identities in the second
one are replaced. -/
inductive Agrees (D : List Diagnostic → List Diagnostic → Prop) (σ : Nat → Nat) :
    Fate → Fate → Prop where
  | refused {ds ds' : List Diagnostic} (h : D ds ds') : Agrees D σ (.refused ds) (.refused ds')
  | ran {m m' : Module} {o o' : Outcome} {s s' : Store} (hm : m.Twins m')
      (ho : o.Agrees s (s'.relabel σ) (o'.relabel σ)) : Agrees D σ (.ran m o s) (.ran m' o' s')

variable {D : List Diagnostic → List Diagnostic → Prop} {σ : Nat → Nat} {f f' : Fate}

/-- If the same has come of two programs, both have values or neither has. -/
theorem Agrees.isSome_value?_eq (h : f.Agrees D σ f') : f.value?.isSome = f'.value?.isSome := by
  cases h with
  | refused _ => rfl
  | @ran m m' o o' s s' _ ho => cases o' <;> cases ho <;> rfl

/-- Both have been compiled, to twins, or neither has. -/
theorem Agrees.module? (h : f.Agrees D σ f') : Option.Rel Module.Twins f.module? f'.module? := by
  cases h with
  | refused _ => exact .none
  | ran hm _ => exact .some hm

end Fate

/-- The store is closed and holds the expression, which has been read from a text. -/
structure Store.Reads (s : Store) (r : Reading) : Prop where
  closed : s.Closed
  held : s.Holds r.expression
  readable : r.expression.AllAtoms Atom.Readable

/-- It holds the expression fast. -/
theorem Store.Reads.holdsFast {s : Store} {r : Reading} (h : s.Reads r) :
    s.HoldsFast r.expression :=
  ⟨h.held, h.readable.imp fun _ => Atom.Readable.proper⟩

/-- The program in the store is compiled with the names of the first prelude, and run without
arguments on the callables of the second one. -/
inductive Evaluates (limits : Limits) (p q : Prelude) (s : Store) (r : Reading) : Fate → Prop where
  | refused {errors : List CompileError} {s' : Store}
      (h : Module.compile r.expression r.map .expression (some p) s = (.error errors, s')) :
      Evaluates limits p q s r (.refused (errors.map (CompileError.diagnostic r.map.root)))
  | ran {m : Module} {machine : Machine} {s₁ s₂ : Store} {env : Sexp} {fuel : Nat}
      {outcome : Outcome}
      (hcompile : Module.compile r.expression r.map .expression (some p) s = (.ok m, s₁))
      (hextends : s₁.Extends s₂) (hclosed : s₁.Closed → s₂.Closed) (henv : q.Framed s₂ env)
      (hrun : ((Machine.idle s₂ limits).load m.code.value .nil env.value).run fuel =
        some (outcome, machine)) :
      Evaluates limits p q s r (.ran m outcome machine.store)

variable {limits : Limits} {p p' q q' : Prelude} {s s' : Store} {r r' : Reading} {f f' : Fate}

/-- The code of a program that has been read has neither callables nor the placeholder among its
atoms, and the store of the compiler is closed and holds it. -/
theorem Store.Reads.code {m : Module} {shape : Shape} {prelude : Option Prelude} (hr : s.Reads r)
    (h : Module.compile r.expression r.map shape prelude s = (.ok m, s')) :
    m.code.AllAtoms Atom.Plain ∧ m.code.AllAtoms Atom.Settled ∧ s'.Holds m.code ∧ s'.Closed := by
  obtain ⟨t, blocks, hresolves, -, hm⟩ := Module.exists_assembled_of_compile h
  have hplain := hr.readable.imp fun _ => Atom.Readable.plain
  have hsettled := hr.readable.imp fun _ ha => ha.proper.settled
  obtain ⟨-, hheld, hclosed⟩ := Module.held_of_compile hr.holdsFast.held h
  exact ⟨hm.allAtoms Atom.coded_plain (hresolves.allAtoms hplain),
    hm.allAtoms Atom.coded_settled (hresolves.allAtoms hsettled), hheld, hclosed hr.closed⟩

/-- The run leaves a closed store that holds fast what the store before has held fast. -/
theorem Evaluates.closed {m : Module} {outcome : Outcome} (hr : s.Reads r)
    (h : Evaluates limits p q s r (.ran m outcome s')) :
    s'.Closed ∧ ∀ e, s.HoldsFast e → s'.HoldsFast e := by
  cases h with
  | @ran _ machine s₁ s₂ env fuel _ hcompile hextends hclosed henv hrun =>
    obtain ⟨-, -, hheld, hs₁⟩ := hr.code hcompile
    have hnil : s₂.Holds .nil := trivial
    refine ⟨Machine.closed_of_run (hclosed hs₁) (hheld.extends hextends) hnil henv.held hrun,
      fun e he => ?_⟩
    have hstart := (Module.holdsFast_of_compile hr.holdsFast hcompile).1.trans hextends
    exact Machine.holdsFast_of_run (he.extends hstart) hrun

/-- The same comes of a program that is read twice. -/
theorem Evaluates.agrees {R : Option Span → Option Span → Prop}
    {D : List Diagnostic → List Diagnostic → Prop} {σ τ : Nat → Nat} (hσ : σ.Injective)
    (hq : q.Relabels σ q') (hp : p.Relabels τ p') (hnone : R none none)
    (hroot : R r.map.root r'.map.root)
    (hcongruent : Sexp.Congruent (Term.Sites R r.map r'.map) r.expression r'.expression)
    (hD : ∀ found found', List.Forall₂ (CompileError.Agrees R) found found' →
      D ((CompileError.sort found).map (CompileError.diagnostic r.map.root))
        ((CompileError.sort found').map (CompileError.diagnostic r'.map.root)))
    (hr : s.Reads r) (hr' : s'.Reads r') (h : Evaluates limits p q s r f)
    (h' : Evaluates limits p' q' s' r' f') : f.Agrees D σ f' := by
  have hcx : Term.SameArities ⟨r.map, some p⟩ ⟨r'.map, some p'⟩ := congrArg some hp.arityOf?_eq
  have hterms : (Term.ofSexp ⟨r.map, some p⟩ (Prelude.scopes (some p)) r.map.root
      r.expression).Agrees R Term.Matches
        (Term.ofSexp ⟨r'.map, some p'⟩ (Prelude.scopes (some p')) r'.map.root r'.expression) := by
    rw [Prelude.scopes, Prelude.scopes, hp.names_eq]
    exact Term.agrees_ofSexp hcx hnone _ hroot hcongruent
  have hplain := hr.readable.imp fun _ => Atom.Readable.plain
  rcases Module.compile_of_agrees hterms rfl hplain .expression s s' with
    ⟨m, u, m', u', hm, hm', htwins⟩ | ⟨found, found', hfound, herror, herror'⟩
  · cases h with
    | refused h => cases (Prod.mk.inj (h.symm.trans hm)).1
    | @ran m₁ machine s₁ s₂ env fuel outcome hcompile hextends hclosed henv hrun =>
      cases h' with
      | refused h' => cases (Prod.mk.inj (h'.symm.trans hm')).1
      | @ran m₁' machine' s₁' s₂' env' fuel' outcome' hcompile' hextends' hclosed' henv' hrun' =>
        obtain ⟨hcode, hsettled, hheld, hs₁⟩ := hr.code hcompile
        obtain ⟨hcode', -, hheld', hs₁'⟩ := hr'.code hcompile'
        obtain ⟨heq, -⟩ := Prod.mk.inj (hcompile.symm.trans hm)
        obtain rfl := Except.ok.inj heq
        obtain ⟨heq', -⟩ := Prod.mk.inj (hcompile'.symm.trans hm')
        obtain rfl := Except.ok.inj heq'
        refine .ran htwins ?_
        have hmatches : m₁.code.Matches m₁'.code :=
          (Sexp.identified_of_plain hcode _).matches_of_same (Module.same_iff.1 htwins.same).1
        have hruns := Machine.agrees_of_matches (hclosed hs₁) (hclosed' hs₁') hσ
          (hheld.extends hextends) (hheld'.extends hextends') hmatches hcode' hsettled henv.held
          henv'.held (henv.matches_relabel hq henv') henv.settled limits (fuel + fuel')
        rw [Machine.run_add fuel' hrun, Nat.add_comm, Machine.run_add fuel hrun'] at hruns
        cases hruns with
        | some h => exact h
  · cases h with
    | ran hcompile _ _ _ _ => cases (Prod.mk.inj (hcompile.symm.trans herror)).1
    | refused h =>
      cases h' with
      | ran hcompile' _ _ _ _ => cases (Prod.mk.inj (hcompile'.symm.trans herror')).1
      | refused h' =>
        obtain rfl := Except.error.inj (Prod.mk.inj (h.symm.trans herror)).1
        obtain rfl := Except.error.inj (Prod.mk.inj (h'.symm.trans herror')).1
        exact .refused (hD _ _ hfound)

end Secd
