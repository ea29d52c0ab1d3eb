import Secd.Proofs.Machine.Loading
import Secd.Proofs.Machine.Mutation
import Secd.Proofs.Module.Assembled

/-!
# Programs are not changed by running them

The placeholder of a letrec frame cannot be written in a source text, and the compiler makes none.
So none of the cells of a compiled program is ever written to, nor are those of arguments that have
been read or of the frame of the prelude, whatever the program does with them. It can be run as
often as one likes.
-/

namespace Secd

namespace Reader

/-- An expression that has been read is held fast. -/
theorem holdsFast_of_readOne {source : String} {s s' : Store} {r : Reading}
    (h : readOne source s = (.ok r, s')) : s'.HoldsFast r.expression :=
  ⟨(builds_of_readOne h).held, (allAtoms_of_readOne h).imp fun _ => Atom.Readable.proper⟩

end Reader

/-- The atoms that all code has are proper. -/
theorem Atom.coded_proper : Coded Proper := by
  refine ⟨by decide, fun _ => trivial, fun op => ?_⟩
  cases op with
  | unary op => cases op <;> decide
  | binary op =>
    cases op with
    | arithmetic op => cases op <;> decide
    | _ => decide
  | _ => decide

namespace Module

variable {e : Sexp} {map : SourceMap} {shape : Shape} {prelude : Option Prelude} {s s' : Store}
  {m : Module}

/-- Compiling an expression extends the store, which then holds the program, and is closed if it has
been so. It does not matter for this whether machine integers can hold the addresses. -/
theorem held_of_compile (he : s.Holds e) (h : compile e map shape prelude s = (.ok m, s')) :
    s.Extends s' ∧ s'.Holds m.code ∧ (s.Closed → s'.Closed) := by
  obtain ⟨t, ending, o, hresolves, -, hproduced⟩ := exists_produced_of_compile h
  have hconstants : ∀ x ∈ t.constants, s.Holds x :=
    hresolves.constants (fun _ _ _ h => h.2.2) he
  exact ⟨hproduced.extends_store, hproduced.held hconstants, hproduced.closed hconstants⟩

/-- A program that has been compiled from an expression that is held fast is held fast, and so are
its named blocks. -/
theorem holdsFast_of_compile (he : s.HoldsFast e)
    (h : compile e map shape prelude s = (.ok m, s')) :
    s.Extends s' ∧ s'.HoldsFast m.code ∧ ∀ n ∈ m.named, s'.HoldsFast n.body := by
  obtain ⟨hextends, hheld, -⟩ := held_of_compile he.held h
  obtain ⟨t, blocks, hresolves, -, hassembled⟩ := exists_assembled_of_compile h
  have hatoms := hassembled.allAtoms Atom.coded_proper (hresolves.allAtoms he.proper)
  have hcode : s'.HoldsFast m.code := ⟨hheld, hatoms⟩
  exact ⟨hextends, hcode, hassembled.forall_mem_named (fun _ _ _ h => h.parts) hcode⟩

end Module

/-- A new list of callables is held fast. -/
theorem exists_holdsFast_of_list {s s' : Store} {frame : Value} (callables : List Callable)
    (h : s.list (callables.map .callable) = (frame, s')) :
    ∃ list : Sexp, frame = list.value ∧ s'.HoldsFast list ∧
      list.list? = some (callables.map fun c => .atom (.callable c)) := by
  have hitems : ∀ e ∈ callables.map fun c => Sexp.atom (.callable c), s.HoldsFast e := by
    intro e he
    obtain ⟨c, -, rfl⟩ := List.mem_map.1 he
    exact ⟨trivial, trivial⟩
  obtain ⟨list, hvalue, hheld, hlist⟩ := Store.exists_holdsFast_list hitems
  have hdotted : s.list ((callables.map fun c => Sexp.atom (.callable c)).map Sexp.value) =
      (frame, s') := by
    rw [List.map_map]
    exact h
  refine ⟨list, ?_, ?_, hlist⟩
  · rw [← hvalue]
    exact (congrArg Prod.fst hdotted).symm
  · have hstore := congrArg Prod.snd hdotted
    exact hstore.subst (motive := fun s => s.HoldsFast list) hheld

namespace Machine

/-- A machine that is about to run a module has been loaded with its code. -/
theorem ofModule_eq_load (m : Module) (args : Value) (limits : Limits) (s : Store) :
    ofModule m args limits s =
      (idle (ofModule m args limits s).store limits).load m.code.value args
        (ofModule m args limits s).env := by
  rw [ofModule]
  cases m.usesPrelude <;> rfl

/-- A machine that is about to run a module extends the store, and holds its environment fast. -/
theorem exists_holdsFast_env (m : Module) (args : Value) (limits : Limits) (s : Store) :
    s.Extends (ofModule m args limits s).store ∧
      ∃ env, (ofModule m args limits s).env = env.value ∧
        (ofModule m args limits s).store.HoldsFast env := by
  cases hm : m.usesPrelude with
  | false =>
    have hregisters := registers_ofModule_of_not_usesPrelude hm args limits (s := s)
    have hstore : (ofModule m args limits s).store = s := congrArg Registers.store hregisters
    have henv : (ofModule m args limits s).env = .nil := congrArg Registers.env hregisters
    rw [hstore, henv]
    exact ⟨.refl s, .nil, rfl, Store.holdsFast_nil s⟩
  | true =>
    cases hprelude : Prelude.standard s with
    | mk prelude s₁ =>
      cases hframe : s₁.list (prelude.entries.map .callable) with
      | mk frame s₂ =>
        have hregisters := registers_ofModule_of_usesPrelude hm args limits hprelude hframe
        have hstore : (ofModule m args limits s).store = (s₂.cons frame .nil).2 :=
          congrArg Registers.store hregisters
        have henv : (ofModule m args limits s).env = .pair s₂.size :=
          congrArg Registers.env hregisters
        obtain ⟨list, rfl, hheld, -⟩ := exists_holdsFast_of_list prelude.entries hframe
        have hextends : s.Extends (s₂.cons list.value .nil).2 :=
          ((Prelude.extends_standard hprelude).trans (Store.extends_of_list hframe)).trans
            (Store.extends_cons s₂ list.value .nil)
        have hpair := Store.holdsFast_consTree hheld (Store.holdsFast_nil s₂)
        rw [hstore, henv]
        exact ⟨hextends, _, rfl, hpair⟩

/-- Running a program changes neither the program nor what it is applied to. A step of any machine
leaves every cell as it is, except that a `RAP` may patch the first cell of the environment if the
placeholder is in its head. Let a program have been read from a text and compiled, and arguments
read from a text. The machine that is about to run the program holds the code, the named blocks, the
arguments and an environment; and any machine that holds one of these trees, whatever its registers
are, goes on holding it without a change to one of its cells. So after any number of steps, or after
a run, the program can be loaded again, and nothing is different but for the cells that are new.
Host callables write to no cell, since all of them are primitives. -/
theorem unchanged_of_compile {source text : String} {shape : Shape} {prelude : Option Prelude}
    {s s₁ s₂ t t₁ u : Store} {r a : Reading} {program : Module}
    (hread : Reader.readOne source s = (.ok r, s₁))
    (hcompile : Module.compile r.expression r.map shape prelude s₁ = (.ok program, s₂))
    (hargs : Reader.readOne text t = (.ok a, t₁)) (hprogram : s₂.Extends u) (htext : t₁.Extends u)
    (limits : Limits) :
    (∀ m : Machine, ∀ c < m.store.size, c < m.next.store.size ∧
      (m.next.store.cell c = m.store.cell c ∨
        ∃ args, m.Patches c args ∧ m.next.store.cell c = ⟨args, (m.store.cell c).tail⟩)) ∧
    ∃ env : Sexp, (ofModule program a.expression.value limits u).env = env.value ∧
      (∀ e ∈ program.code :: a.expression :: env :: program.named.map NamedBlock.body,
        (ofModule program a.expression.value limits u).store.Holds e ∧
        ∀ m : Machine, m.store.Holds e →
          (∀ n, (m.after n).store.Holds e ∧
            e.AllCells fun c => (m.after n).store.cell c = m.store.cell c) ∧
          ∀ fuel outcome m', run fuel m = some (outcome, m') → m'.store.Holds e) ∧
      ∀ n, ((ofModule program a.expression.value limits u).after n).load program.code.value
          a.expression.value env.value =
        { ofModule program a.expression.value limits u with
          store := ((ofModule program a.expression.value limits u).after n).store } := by
  have hexpression : s₁.HoldsFast r.expression := Reader.holdsFast_of_readOne hread
  obtain ⟨-, hcode, hnamed⟩ := Module.holdsFast_of_compile hexpression hcompile
  have htree : t₁.HoldsFast a.expression := Reader.holdsFast_of_readOne hargs
  obtain ⟨hextends, env, henv, hframe⟩ :=
    exists_holdsFast_env program a.expression.value limits u
  refine ⟨fun m c hc => m.cell_next_eq_or_patches hc, env, henv, fun e he => ?_, fun n => ?_⟩
  · have hfast : (ofModule program a.expression.value limits u).store.HoldsFast e := by
      rcases List.mem_cons.1 he with rfl | he
      · exact (hcode.extends hprogram).extends hextends
      rcases List.mem_cons.1 he with rfl | he
      · exact (htree.extends htext).extends hextends
      rcases List.mem_cons.1 he with rfl | he
      · exact hframe
      · obtain ⟨block, hblock, rfl⟩ := List.mem_map.1 he
        exact ((hnamed block hblock).extends hprogram).extends hextends
    refine ⟨hfast.held, fun m hm => ?_⟩
    have hafter (n : Nat) := Store.HoldsFast.after ⟨hm, hfast.proper⟩ n
    refine ⟨fun n => ⟨(hafter n).1.held, (hafter n).2⟩, fun fuel outcome m' hrun => ?_⟩
    obtain ⟨n, -, rfl⟩ := exists_after_of_run hrun
    exact (hafter n).1.held
  · have hload := ofModule_eq_load program a.expression.value limits u
    have hlimits := (ofModule program a.expression.value limits u).limits_after n
    rw [limits_ofModule] at hlimits
    rw [henv] at hload
    generalize (ofModule program a.expression.value limits u).after n = m at hlimits ⊢
    obtain ⟨store, stack, env', control, dump, limits', stats, calls⟩ := m
    obtain rfl : limits' = limits := hlimits
    rw [hload]
    rfl

/-- A machine that is about to run the program in one text, compiled without the prelude, on the
arguments in another text. -/
def ofTexts? (source text : String) : Option Machine :=
  match Reader.readOne source .empty with
  | (.error _, _) => none
  | (.ok r, s) =>
    match Module.compile r.expression r.map .expression none s with
    | (.error _, _) => none
    | (.ok program, s) =>
      match Reader.readOne text s with
      | (.error _, _) => none
      | (.ok a, s) => some (ofModule program a.expression.value {} s)

/-- The program and the arguments of such a machine have been read. -/
theorem exists_of_ofTexts? {source text : String} {m : Machine}
    (h : ofTexts? source text = some m) :
    ∃ r s₁ program s₂ a s₃, Reader.readOne source .empty = (.ok r, s₁) ∧
      Module.compile r.expression r.map .expression none s₁ = (.ok program, s₂) ∧
      Reader.readOne text s₂ = (.ok a, s₃) ∧ m = ofModule program a.expression.value {} s₃ := by
  rw [ofTexts?] at h
  split at h
  · cases h
  · next r s₁ hread =>
    split at h
    · cases h
    · next program s₂ hcompile =>
      split at h
      · cases h
      · next a s₃ hargs =>
        exact ⟨r, s₁, program, s₂, a, s₃, hread, hcompile, hargs, (Option.some.inj h).symm⟩

/-- A program with a recursive function. -/
def selfReference : String := "(LETREC ((F (LAMBDA (X) X))) (F 1))"

/-- The sixth step of the program patches its letrec frame. Its code and its arguments are held
afterwards as before. -/
theorem unchanged_of_compile_selfReference :
    ∃ r s₁ program s₂ a s₃, Reader.readOne selfReference .empty = (.ok r, s₁) ∧
      Module.compile r.expression r.map .expression none s₁ = (.ok program, s₂) ∧
      Reader.readOne "(1 2)" s₂ = (.ok a, s₃) ∧
      (∃ c args, ((ofModule program a.expression.value {} s₃).after 5).Patches c args) ∧
      ((ofModule program a.expression.value {} s₃).after 6).store.Holds program.code ∧
      ((ofModule program a.expression.value {} s₃).after 6).store.Holds a.expression := by
  have hpatched : (ofTexts? selfReference "(1 2)").any (fun m =>
      decide (38 < (m.after 5).store.size) && ((m.after 5).store.cell 38).head.isPending &&
        !((m.after 6).store.cell 38).head.isPending) = true := by
    decide +kernel
  obtain ⟨m, hm, hpatched⟩ := (Option.any_eq_true _ _).1 hpatched
  obtain ⟨hbefore, hafter⟩ := Bool.and_eq_true_iff.1 hpatched
  obtain ⟨hlt, hpending⟩ := Bool.and_eq_true_iff.1 hbefore
  obtain ⟨r, s₁, program, s₂, a, s₃, hread, hcompile, hargs, rfl⟩ := exists_of_ofTexts? hm
  have hextends : s₂.Extends s₃ := (Reader.builds_of_readOne hargs).extends_store
  obtain ⟨hstep, env, -, htrees, -⟩ :=
    unchanged_of_compile hread hcompile hargs hextends (.refl s₃) {}
  have hheld {e : Sexp}
      (he : e ∈ program.code :: a.expression :: env :: program.named.map NamedBlock.body) :
      ((ofModule program a.expression.value {} s₃).after 6).store.Holds e := by
    obtain ⟨hstart, hruns⟩ := htrees e he
    exact ((hruns _ hstart).1 6).1
  refine ⟨r, s₁, program, s₂, a, s₃, hread, hcompile, hargs, ?_, hheld (by simp), hheld (by simp)⟩
  obtain ⟨-, hsame | ⟨args, hpatch, -⟩⟩ := hstep _ 38 (of_decide_eq_true hlt)
  · rw [after, hsame, hpending] at hafter
    cases hafter
  · exact ⟨38, args, hpatch⟩

end Machine

end Secd
