import Secd.Proofs.Module.Accepted
import Secd.Proofs.Term.Saturated

/-!
# The call sites of compiled programs

The call sites of a program are those in the code of its term, and the `AP` at the end of a program
that is applied to its arguments. They are in different cells, and calls of callables by their names
are saturated.
-/

namespace Secd

namespace Module

open Term

/-- The code of the program is that of the term inside of `depth` frames, and these are its call
sites. -/
structure Sited (m : Module) (depth : Nat) (t : Term) (sites : List CallSite) : Prop where
  written : ∃ o ending, t.Written (Address.Below Address.limit) depth m.code ending o ∧
    ending.Begins (lastInstructions m.shape) .nil ∧ sites = o.sites ++ lastSites m.shape ending
  distinct : (CallSite.cells sites).Nodup

variable {e : Sexp} {map : SourceMap} {shape : Shape} {prelude : Option Prelude} {m : Module}
  {s s' : Store}

/-- What the compiler makes of an expression has call sites, inside of any number of frames. -/
theorem exists_sited_of_compile (hprelude : Prelude.IsStandard prelude) (he : s.Holds e)
    (hheight : e.height < Address.limit) (h : compile e map shape prelude s = (.ok m, s'))
    (depth : Nat) : ∃ t ending sites, Compiled s' e shape prelude m t ending ∧ m.shape = shape ∧
      m.Sited depth t sites := by
  obtain ⟨-, -, t, ending, hcompiled⟩ := exists_compiled_of_compile hprelude he hheight h
  obtain ⟨t', hresolves, hm⟩ := exists_ofTerm_of_compile h
  obtain rfl := hcompiled.resolves.unique hresolves
  have hadmissible := hresolves.admissible (fits_scopes hprelude he hheight)
  obtain ⟨hshape, -, k, o, hproduced⟩ :=
    exists_produced_ofTerm hm hadmissible.below_of_mem depth
  refine ⟨t, ending, o.sites ++ lastSites m.shape k, hcompiled, hshape,
    ⟨o, k, hproduced.written, hproduced.ends, rfl⟩, ?_⟩
  have hlast : (CallSite.cells (lastSites m.shape k)).Sublist [k.cell?] := by
    cases m.shape with
    | expression => exact List.nil_sublist _
    | applied => exact .refl _
  have hall := hproduced.written.coherent.sites.append hlast
  rw [CallSite.cells, CallSite.cells, ← List.map_append] at hall
  exact hproduced.fresh.nodup.sublist hall

/-- In a program that is well formed, the calls of callables by their names are saturated. -/
theorem Sited.saturated {t : Term} {sites : List CallSite} (hm : m.Sited 0 t sites)
    (hprelude : Prelude.IsStandard prelude) (hresolves : Resolves (Prelude.scopes prelude) e t)
    (hwellFormed : e.WellFormed prelude (Prelude.scopes prelude)) :
    ∀ site ∈ sites, site.Saturated := by
  obtain ⟨o, ending, hwritten, -, rfl⟩ := hm.written
  refine List.forall_mem_append.2 ⟨hresolves.saturated hprelude [] rfl hwellFormed hwritten, ?_⟩
  cases m.shape with
  | expression => exact List.forall_mem_nil _
  | applied => exact List.forall_mem_singleton.2 nofun

end Module

end Secd
