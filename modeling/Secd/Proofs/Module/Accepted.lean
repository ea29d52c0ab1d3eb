import Secd.Proofs.Module.Compiled
import Secd.Proofs.Term.Faults

/-!
# The programs that are compiled

The compiler accepts a program exactly if it is well formed in the scopes outside it, whether these
are empty or hold the names of a prelude, and whichever shape the program has. What it reports of
any other program are the faults of the program, put in the order of the text, and the faults of its
parts are found independently of each other.
-/

namespace Secd

open Sexp Term

namespace Module

variable {e : Sexp} {map : SourceMap} {shape : Shape} {prelude : Option Prelude} {s : Store}

/-- The compiler reports the faults of a program, in the order of the text, if it has any. -/
theorem sort_faults_of_compile {errors : List CompileError} {s' : Store}
    (h : compile e map shape prelude s = (.error errors, s')) :
    CompileError.sort (faults ⟨map, prelude⟩ (Prelude.scopes prelude) map.root e) = errors := by
  obtain ⟨found, hfound, hsort⟩ := exists_ofSexp_of_compile h
  rw [faults, hfound]
  exact hsort

/-- It reports none of them twice and leaves none of them out. -/
theorem perm_faults_of_compile {errors : List CompileError} {s' : Store}
    (h : compile e map shape prelude s = (.error errors, s')) :
    errors.Perm (faults ⟨map, prelude⟩ (Prelude.scopes prelude) map.root e) := by
  rw [← sort_faults_of_compile h]
  exact CompileError.perm_sort _

/-- The compiler has a module for a program exactly if the program has a term. -/
theorem exists_compile_iff : (∃ m s', compile e map shape prelude s = (.ok m, s')) ↔
    ∃ t, ofSexp ⟨map, prelude⟩ (Prelude.scopes prelude) map.root e = .ok t := by
  constructor
  · rintro ⟨m, s', h⟩
    obtain ⟨t, hterm, -⟩ := compile_eq_ok_iff.1 h
    exact ⟨t, hterm⟩
  · rintro ⟨t, hterm⟩
    exact ⟨_, _, compile_eq_ok_iff.2 ⟨t, hterm, rfl⟩⟩

/-- A program is compiled exactly if it is well formed in the scopes outside it. -/
theorem exists_compile_iff_wellFormed :
    (∃ m s', compile e map shape prelude s = (.ok m, s')) ↔
      e.WellFormed prelude (Prelude.scopes prelude) :=
  exists_compile_iff.trans (decides_ofSexp _ _ _).exists_ok

/-- The compiler accepts a program exactly if it is well formed. Otherwise it reports the faults of
the program, and there is at least one. The faults of the parts of an expression, such as the
operands of a conditional, are found independently of each other, and none of them is missing. -/
theorem compiles_iff_wellFormed (e : Sexp) (map : SourceMap) (shape : Shape)
    (prelude : Option Prelude) (s : Store) :
    ((∃ m s', compile e map shape prelude s = (.ok m, s')) ↔
      e.WellFormed prelude (Prelude.scopes prelude)) ∧
    (∀ errors s', compile e map shape prelude s = (.error errors, s') → errors ≠ [] ∧
      errors.Perm (faults ⟨map, prelude⟩ (Prelude.scopes prelude) map.root e)) ∧
    ∀ scopes span,
      (∀ x, faults ⟨map, prelude⟩ scopes span x = [] ↔ x.WellFormed prelude scopes) ∧
      (∀ cell a b c test yes no,
        (faults ⟨map, prelude⟩ scopes span
          (ofItems [(cell, .symbol "IF"), (a, test), (b, yes), (c, no)])).Perm
          (faults ⟨map, prelude⟩ scopes (map.headSpan? a) test ++
            (faults ⟨map, prelude⟩ scopes (map.headSpan? b) yes ++
              faults ⟨map, prelude⟩ scopes (map.headSpan? c) no))) ∧
      ∀ x own parts, Divides ⟨map, prelude⟩ scopes x own parts →
        (faults ⟨map, prelude⟩ scopes span x).Perm
          (own ++ parts.flatMap (Part.faults ⟨map, prelude⟩)) := by
  have hdecides : (ofSexp ⟨map, prelude⟩ (Prelude.scopes prelude) map.root e).Decides
      (e.WellFormed prelude (Prelude.scopes prelude)) :=
    decides_ofSexp (Prelude.scopes prelude) map.root e
  refine ⟨exists_compile_iff.trans hdecides.exists_ok, fun errors s' h => ?_, fun scopes span =>
    ⟨fun x => faults_eq_nil_iff, fun cell a b c test yes no => ?_, fun x own parts hx => ?_⟩⟩
  · have hperm := perm_faults_of_compile h
    refine ⟨?_, hperm⟩
    rintro rfl
    -- without faults the program has a module, and no errors
    have he := faults_eq_nil_iff.1 hperm.nil_eq.symm
    obtain ⟨m, s'', hm⟩ := exists_compile_iff.2 (hdecides.exists_ok.2 he)
    rw [hm] at h
    cases (Prod.mk.inj h).1
  · have hdivides : Divides ⟨map, prelude⟩ scopes _ [] _ := .conditional cell a b c test yes no
    simpa [Part.ofItems, Part.faults] using perm_faults_of_divides hdivides span
  · exact perm_faults_of_divides hx span

/-- A conditional between three names that nothing binds. -/
def threeNames : Sexp :=
  ofItems [(0, .symbol "IF"), (1, .symbol "A"), (2, .symbol "B"), (3, .symbol "C")]

/-- The program `(IF A B C)` is not well formed, and the faults of all three operands are
reported. -/
theorem compiles_iff_wellFormed_threeNames :
    ¬ threeNames.WellFormed none [] ∧ ∃ errors s',
      compile threeNames .empty .expression none {} = (.error errors, s') ∧ errors.length = 3 := by
  obtain ⟨haccepted, hreported, hall⟩ :=
    compiles_iff_wellFormed threeNames .empty .expression none {}
  have hthree : (faults ⟨.empty, none⟩ [] none threeNames).length = 3 :=
    ((hall [] none).2.1 0 1 2 3 (.symbol "A") (.symbol "B") (.symbol "C")).length_eq
  cases hcompile : compile threeNames .empty .expression none {} with
  | mk result s' =>
    cases result with
    | error errors =>
      have hcount := (hreported errors s' hcompile).2.length_eq
      refine ⟨fun he => ?_, errors, s', rfl, hcount.trans hthree⟩
      obtain ⟨m, s'', hm⟩ := haccepted.2 he
      rw [hcompile] at hm
      cases (Prod.mk.inj hm).1
    | ok m => cases (Prod.mk.inj hcompile).1

end Module

end Secd
