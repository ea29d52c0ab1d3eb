import Secd.Module
import Secd.Proofs.Term.Production

/-!
# Compiled programs

What is known about a module that the compiler has made, with or without the standard prelude: it
holds the code of the term of the program, in front of the code that ends a program of its shape.
The store of the compiler is only extended, and afterwards it holds the code.
-/

namespace Secd

namespace Prelude

/-- The names in scope outside a program. -/
def scopes : Option Prelude → Scopes
  | some p => [p.names]
  | none => []

/-- The prelude is a standard one, if there is one at all. -/
def IsStandard (prelude : Option Prelude) : Prop :=
  ∀ p, prelude = some p → ∃ s, p = (standard s).1

/-- A program need not have a prelude. -/
theorem isStandard_none : IsStandard none := fun _ h => by cases h

/-- The callables of a prelude have the names of the primitives. -/
theorem names_ofList (s : Store) (primitives : List Primitive) :
    (ofList s primitives).1.names = primitives.map Primitive.name := by
  induction primitives generalizing s with
  | nil => rfl
  | cons p ps ih =>
    have hrest := ih (s.primitive p).2
    rw [names] at hrest
    rw [List.map_cons, ← hrest]
    rfl

/-- The names of a standard prelude are those of all primitives. -/
theorem IsStandard.scopes_eq {prelude : Option Prelude} (h : IsStandard prelude) :
    scopes prelude = if prelude.isSome then [Primitive.all.map Primitive.name] else [] := by
  cases prelude with
  | none => rfl
  | some p =>
    obtain ⟨s, rfl⟩ := h p rfl
    exact congrArg (fun names => [names]) (names_ofList s Primitive.all)

end Prelude

namespace Module

/-- The instructions that end a program. -/
def lastInstructions : Shape → List Sexp
  | .expression => [Opcode.stop.sexp]
  | .applied => [Opcode.ap.sexp, Opcode.stop.sexp]

/-- The call site in the code that ends a program. The function of this call is the program. -/
def lastSites : Shape → (ending : Sexp) → List CallSite
  | .expression, _ => []
  | .applied, ending => [⟨ending, none, 0⟩]

open Assembler

/-- The end of a program is written in front of nothing. -/
theorem exists_puts_ending (shape : Shape) : ∃ x, ending shape = x .nil ∧
    Puts x [] fun c k o =>
      c.Begins (lastInstructions shape) k ∧ o = ⟨[c.cell?], [], lastSites shape c, []⟩ := by
  cases shape with
  | expression => exact ⟨_, rfl, puts_instruction .stop []⟩
  | applied =>
    refine ⟨fun k => instruction .stop [] k >>= instruction .ap [], rfl, ?_⟩
    refine ((puts_instruction .stop []).bind (puts_instruction .ap [])).redraw fun c k o h => ?_
    obtain ⟨d, front, back, ⟨hap, rfl⟩, ⟨hstop, rfl⟩, rfl⟩ := h
    exact ⟨_, ⟨hap.cons hstop, rfl⟩, rfl, (List.sublist_append_left _ _).subperm⟩

/-- From the store `s` to the store `s'`, the module has been made of the term. It holds code of the
term, in front of the code that ends a program of its shape: the instructions are in new cells, and
the named blocks are those that have been noted. The store holds the code if it has held the
constants of the term. -/
structure Produced (P : Address → Prop) (depth : Nat) (t : Term) (s s' : Store) (m : Module)
    (ending : Sexp) (o : Outline) : Prop where
  written : t.Written P depth m.code ending o
  ends : ending.Begins (lastInstructions m.shape) .nil
  named : m.named = o.noted.reverse
  extends_store : s.Extends s'
  fresh : Fresh s.size s'.size (o.cells ++ [ending.cell?])
  held (h : ∀ x ∈ t.constants, s.Holds x) : s'.Holds m.code
  closed (h : ∀ x ∈ t.constants, s.Holds x) (hs : s.Closed) : s'.Closed

/-- The module of a term has been made of it, inside of any number of frames. -/
theorem exists_produced_ofTerm {P : Address → Prop} {t : Term} {shape : Shape} {usesPrelude : Bool}
    {s s' : Store} {m : Module} (h : ofTerm t shape usesPrelude s = (m, s'))
    (hP : ∀ a ∈ Instruction.addresses t.instructions, P a) (depth : Nat) :
    m.shape = shape ∧ m.usesPrelude = usesPrelude ∧
      ∃ ending o, m.Produced P depth t s s' ending o := by
  obtain ⟨x, hending, hx⟩ := exists_puts_ending shape
  obtain ⟨c, b, _, hrun, ⟨k, front, _, hwritten, ⟨hends, rfl⟩, rfl⟩, hproduces⟩ :=
    (hx.bind (Term.puts_code depth t hP)).exists_run ⟨s, []⟩ .nil
  rw [ofTerm, hending, hrun] at h
  obtain ⟨rfl, rfl⟩ := Prod.mk.inj h
  refine ⟨rfl, rfl, k, front, hwritten, hends, ?_, hproduces.extends_store, hproduces.fresh,
    fun h => hproduces.held h trivial, fun h => hproduces.closed h trivial⟩
  have hnamed : b.named = front.noted ++ [] ++ [] := hproduces.named
  rw [hnamed, List.append_nil, List.append_nil]

variable {e : Sexp} {map : SourceMap} {shape : Shape} {prelude : Option Prelude}
  {m : Module} {s s' : Store} {errors : List CompileError}

/-- A program is analysed in the scopes outside it, and its errors are sorted. -/
theorem analyse_eq : analyse e map prelude =
    (Term.ofSexp ⟨map, prelude⟩ (Prelude.scopes prelude) map.root e).mapError
      CompileError.sort := by
  cases prelude <;> rfl

/-- What is compiled is the module of the term that the analysis finds. -/
theorem compile_eq_ok_iff : compile e map shape prelude s = (.ok m, s') ↔
    ∃ t, Term.ofSexp ⟨map, prelude⟩ (Prelude.scopes prelude) map.root e = .ok t ∧
      ofTerm t shape prelude.isSome s = (m, s') := by
  rw [compile, analyse_eq]
  cases Term.ofSexp ⟨map, prelude⟩ (Prelude.scopes prelude) map.root e with
  | ok t =>
    constructor
    · intro h
      obtain ⟨hm, rfl⟩ := Prod.mk.inj h
      obtain rfl := Except.ok.inj hm
      exact ⟨t, rfl, rfl⟩
    · rintro ⟨u, hu, h⟩
      obtain rfl := Except.ok.inj hu
      obtain ⟨rfl, rfl⟩ := Prod.mk.inj h
      rfl
  | error found =>
    constructor
    · intro h
      cases (Prod.mk.inj h).1
    · rintro ⟨u, hu, -⟩
      cases hu

/-- What is reported are the errors that the analysis finds, in the order of the text. -/
theorem exists_ofSexp_of_compile (h : compile e map shape prelude s = (.error errors, s')) :
    ∃ found, Term.ofSexp ⟨map, prelude⟩ (Prelude.scopes prelude) map.root e = .error found ∧
      CompileError.sort found = errors := by
  rw [compile, analyse_eq] at h
  cases hterm : Term.ofSexp ⟨map, prelude⟩ (Prelude.scopes prelude) map.root e with
  | ok t =>
    rw [hterm] at h
    cases (Prod.mk.inj h).1
  | error found =>
    rw [hterm] at h
    exact ⟨found, rfl, Except.error.inj (Prod.mk.inj h).1⟩

/-- A compiled program is the module of its term. -/
theorem exists_ofTerm_of_compile (h : compile e map shape prelude s = (.ok m, s')) :
    ∃ t, Term.Resolves (Prelude.scopes prelude) e t ∧
      ofTerm t shape prelude.isSome s = (m, s') := by
  obtain ⟨t, hterm, hm⟩ := compile_eq_ok_iff.1 h
  exact ⟨t, Term.resolves_of_ofSexp e hterm, hm⟩

/-- A compiled program has been made of its term, whether or not machine integers can hold its
addresses. -/
theorem exists_produced_of_compile (h : compile e map shape prelude s = (.ok m, s')) :
    ∃ t ending o, Term.Resolves (Prelude.scopes prelude) e t ∧ m.shape = shape ∧
      m.Produced (fun _ => True) 0 t s s' ending o := by
  obtain ⟨t, hresolves, hm⟩ := exists_ofTerm_of_compile h
  obtain ⟨hshape, -, ending, o, hproduced⟩ := exists_produced_ofTerm hm (fun _ _ => trivial) 0
  exact ⟨t, ending, o, hresolves, hshape, hproduced⟩

/-- A module knows whether it has been compiled with a prelude. -/
theorem usesPrelude_of_compile (h : compile e map shape prelude s = (.ok m, s')) :
    m.usesPrelude = prelude.isSome := by
  obtain ⟨t, -, hm⟩ := exists_ofTerm_of_compile h
  exact (congrArg (fun x => x.1.usesPrelude) hm).symm

/-- The expression of a program fits the scopes outside it. -/
theorem fits_scopes (hprelude : Prelude.IsStandard prelude) (he : s.Holds e)
    (hheight : e.height < Address.limit) :
    Term.Fits s Address.limit (Prelude.scopes prelude) e := by
  rw [hprelude.scopes_eq]
  split
  · refine ⟨he, ?_, ?_⟩
    · rw [List.length_singleton]
      omega
    · intro frame hframe
      rw [List.mem_singleton.1 hframe]
      decide
  · refine ⟨he, ?_, ?_⟩
    · rw [List.length_nil]
      omega
    · simp

/-- The module has been compiled from the expression: it holds the code of the term of the
expression, and the store `s` holds the code. -/
structure Compiled (s : Store) (e : Sexp) (shape : Shape) (prelude : Option Prelude) (m : Module)
    (t : Term) (ending : Sexp) : Prop where
  resolves : Term.Resolves (Prelude.scopes prelude) e t
  admissible : Term.Admissible s Address.limit (Prelude.scopes prelude).length t
  written : ∃ o, t.Written (Address.Below Address.limit) 0 m.code ending o
  ends : ending.Begins (lastInstructions shape) .nil
  held : s.Holds m.code
  usesPrelude : m.usesPrelude = prelude.isSome

/-- What the compiler makes of an expression is compiled from it. -/
theorem exists_compiled_of_compile (hprelude : Prelude.IsStandard prelude) (he : s.Holds e)
    (hheight : e.height < Address.limit) (h : compile e map shape prelude s = (.ok m, s')) :
    s.Extends s' ∧ (s.Closed → s'.Closed) ∧
      ∃ t ending, Compiled s' e shape prelude m t ending := by
  obtain ⟨t, hresolves, hm⟩ := exists_ofTerm_of_compile h
  have hadmissible := hresolves.admissible (fits_scopes hprelude he hheight)
  have hconstants : ∀ x ∈ t.constants, s.Holds x :=
    hresolves.constants (fun _ _ _ h => h.2.2) he
  obtain ⟨hshape, husesPrelude, ending, o, hproduced⟩ :=
    exists_produced_ofTerm hm hadmissible.below_of_mem 0
  exact ⟨hproduced.extends_store, hproduced.closed hconstants, t, ending, hresolves,
    hadmissible.extends hproduced.extends_store, ⟨o, hproduced.written⟩, hshape ▸ hproduced.ends,
    hproduced.held hconstants, husesPrelude⟩

end Module

end Secd
