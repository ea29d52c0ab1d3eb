import Secd.Proofs.Module.Renamed
import Secd.Proofs.Module.RoundTrip
import Secd.Proofs.Term.Widened

/-!
# Programs with and without a prelude

A program that needs no prelude is compiled with a prelude to the same code. Nothing is lost if it
binds names of the prelude itself, and it may call these with as many arguments as its own functions
have. A program that is compiled only with the prelude has no other fault without it than that names
of the prelude are missing.
-/

namespace Secd

open Sexp Term

/-- Blocks that are noted twice for the same functions have the same names and the same code. -/
theorem Noted.forall₂_same {names : List String} {noted noted' : List NamedBlock}
    (h : Noted (unrenamed names) noted noted') :
    List.Forall₂ NamedBlock.Same noted noted' := by
  obtain ⟨hold, hnew, hbodies⟩ := h
  have hnames : noted.map NamedBlock.name = noted'.map NamedBlock.name := by
    rw [hold, hnew, unrenamed, List.map_map, List.map_map]
    rfl
  clear hold hnew
  induction hbodies with
  | nil => exact .nil
  | cons hbody _ ih =>
    obtain ⟨hname, hnames⟩ := List.cons.inj hnames
    exact .cons ⟨hname, hbody⟩ (ih hnames)

namespace Module

/-- Terms that match have modules that are the same, in whatever stores. -/
theorem same_of_matches {t t' : Term} (h : t.Matches t') {shape : Shape} {usesPrelude : Bool}
    {m m' : Module} {s s' u u' : Store} (hm : ofTerm t shape usesPrelude s = (m, u))
    (hm' : ofTerm t' shape usesPrelude s' = (m', u')) : m.same m' = true := by
  obtain ⟨names, hcode⟩ := h.exists_sameCode
  obtain ⟨hsame, hshape, husesPrelude, hnoted⟩ := noted_ofTerm hcode hm hm'
  exact same_iff.2 ⟨hsame, hshape, husesPrelude, hnoted.forall₂_same⟩

/-- The standard prelude is a conservative extension. A program that is compiled without a prelude
is compiled with it to the same code and the same named blocks, in whatever stores; the modules
differ only in the flag that says whether the prelude is used. If a program is compiled only with
the prelude, every error without it is that the name of a primitive is not bound. -/
theorem conservative_of_standard (e : Sexp) (map : SourceMap) (shape : Shape) (s₀ s s' : Store) :
    (∀ m t, compile e map shape none s = (.ok m, t) → m.usesPrelude = false ∧
      ∃ m' t', compile e map shape (some (Prelude.standard s₀).1) s' = (.ok m', t') ∧
        m'.usesPrelude = true ∧ Module.same { m with usesPrelude := true } m' = true) ∧
    ∀ m' t' errors t, compile e map shape (some (Prelude.standard s₀).1) s' = (.ok m', t') →
      compile e map shape none s = (.error errors, t) →
      ∀ error ∈ errors, ∃ p ∈ Primitive.all, error.fault = .undeclaredIdentifier p.name := by
  have hwidens : Checked.Widens (CompileError.Misses (Prelude.standard s₀).1.names)
      (ofSexp ⟨map, none⟩ [] map.root e)
      (ofSexp ⟨map, some (Prelude.standard s₀).1⟩ [(Prelude.standard s₀).1.names] map.root e) :=
    widens_ofSexp [] map.root e
  constructor
  · intro m t h
    obtain ⟨term, hterm, hm⟩ := compile_eq_ok_iff.1 h
    obtain ⟨rfl, -⟩ := Prod.mk.inj hm
    refine ⟨rfl, _, _, compile_eq_ok_iff.2 ⟨term, hwidens.eq_ok term hterm, rfl⟩, rfl, ?_⟩
    exact same_of_matches (matches_refl term) rfl rfl
  · intro m' t' errors t h' h error herror
    obtain ⟨term, hterm, -⟩ := compile_eq_ok_iff.1 h'
    have hfault : error ∈ faults ⟨map, none⟩ [] map.root e :=
      (perm_faults_of_compile h).mem_iff.1 herror
    obtain ⟨name, hname, heq⟩ := hwidens.errors term hterm error hfault
    rw [show (Prelude.standard s₀).1.names = _ from Prelude.names_ofList s₀ Primitive.all] at hname
    obtain ⟨p, hp, rfl⟩ := List.mem_map.1 hname
    exact ⟨p, hp, heq⟩

/-- The program `(LET ((MAX (LAMBDA (X) X))) (MAX 1))`, which binds the name of a primitive of two
parameters to a function of one. -/
def shadowing : Sexp :=
  listOf [.symbol "LET",
    listOf [listOf [.symbol "MAX", listOf [.symbol "LAMBDA", listOf [.symbol "X"], .symbol "X"]]],
    listOf [.symbol "MAX", .int 1]]

/-- The program `(MAX 1 2)`. -/
def calling : Sexp := listOf [.symbol "MAX", .int 1, .int 2]

/-- The first program is compiled to the same code with the prelude as without it. The second one
has errors without it, all of them about names of primitives. -/
theorem conservative_of_standard_maximum :
    (∃ m t m' t', compile shadowing .empty .expression none {} = (.ok m, t) ∧
      compile shadowing .empty .expression (some (Prelude.standard {}).1) {} = (.ok m', t') ∧
      Module.same { m with usesPrelude := true } m' = true) ∧
    ∃ errors t m' t', compile calling .empty .expression none {} = (.error errors, t) ∧
      compile calling .empty .expression (some (Prelude.standard {}).1) {} = (.ok m', t') ∧
      ∀ error ∈ errors, ∃ p ∈ Primitive.all, error.fault = .undeclaredIdentifier p.name := by
  constructor
  · have hok : (compile shadowing .empty .expression none {}).1.isOk = true := by decide +kernel
    cases h : compile shadowing .empty .expression none {} with
    | mk result t =>
      cases result with
      | error errors =>
        rw [h] at hok
        cases hok
      | ok m =>
        obtain ⟨-, m', t', h', -, hsame⟩ :=
          (conservative_of_standard shadowing .empty .expression {} {} {}).1 m t h
        exact ⟨m, t, m', t', rfl, h', hsame⟩
  · have hok : (compile calling .empty .expression (some (Prelude.standard {}).1) {}).1.isOk =
        true := by decide +kernel
    cases h' : compile calling .empty .expression (some (Prelude.standard {}).1) {} with
    | mk result t' =>
      cases result with
      | error errors =>
        rw [h'] at hok
        cases hok
      | ok m' =>
        have hfaulty : compile calling .empty .expression none {} =
            (.error [⟨.undeclaredIdentifier "MAX", none⟩], {}) := rfl
        exact ⟨_, _, m', t', hfaulty, rfl,
          (conservative_of_standard calling .empty .expression {} {} {}).2 m' t' _ _ h' hfaulty⟩

end Module

end Secd
