import Secd.Proofs.Datum.Held
import Secd.Proofs.Machine.Loading
import Secd.Proofs.Semantics.Forms

/-!
# Compilation preserves meaning

The machine with the code of a compiled program does what the evaluator says about the program: it
halts with a value that represents the value of the program, or it faults with the kind of the fault
that interrupts the evaluation. It may exceed one of its limits before that, and then faults for
this reason; the dump needs no more entries than the evaluator needs fuel.
-/

namespace Secd

open World

namespace Prelude

/-- The prelude that a machine gets if its program counts on one. -/
def loaded (prelude : Option Prelude) (s : Store) : Option Prelude :=
  prelude.map fun _ => (standard s).1

/-- The names of the loaded prelude are those with which the program was compiled. -/
theorem IsStandard.scopes_loaded {prelude : Option Prelude} (h : IsStandard prelude) (s : Store) :
    (lexicalEnv (loaded prelude s)).scopes = scopes prelude := by
  rw [h.scopes_eq]
  cases prelude with
  | none => rfl
  | some p => exact congrArg (fun names => [names]) (names_ofList s Primitive.all)

end Prelude

variable {base s : Store}

/-- A world without frames is sound. -/
theorem World.sound_of_no_frames (hs : base.Extends s) : World.Sound base ⟨[], [], s⟩ where
  code := hs
  length_eq := rfl
  nodup := List.nodup_nil
  frame i c h := by cases h

/-- Callables represent themselves. -/
theorem World.represents_callables (w : World) (callables : List Callable) :
    List.Forall₂ (Represents base w) (callables.map .callable)
      (callables.map fun c => .atom (.callable c)) := by
  induction callables with
  | nil => exact .nil
  | cons c callables ih => exact .cons rfl ih

/-- The frame of a new prelude is the only one of a sound world. -/
theorem Prelude.exists_world {callables : Prelude} {s₁ s₂ : Store} {frame : Value}
    (hs : base.Extends s) (hclosed : s.Closed) (hstandard : standard s = (callables, s₁))
    (hlist : s₁.list (callables.entries.map .callable) = (frame, s₂)) :
    ∃ w : World, w.memory = memory (some callables) ∧ w.store = (s₂.cons frame .nil).2 ∧
      w.Sound base ∧ w.Environment (lexicalEnv (some callables)) (.pair s₂.size) ∧
      w.store.Closed ∧ s.size ≤ w.store.size := by
  have hstart : s.Extends s₁ := extends_standard hstandard
  have hlast : s₁.Extends s₂ := Store.extends_of_list hlist
  have hpair : s₂.Extends (s₂.cons frame .nil).2 := Store.extends_cons s₂ frame .nil
  have hcallables : ∀ v ∈ callables.entries.map Value.callable, s₁.Contains v :=
    List.forall_mem_map.2 fun _ _ => trivial
  have hnil : s₁.Contains .nil := trivial
  obtain ⟨hclosed₂, hframe⟩ := (closed_standard hstandard hclosed).dotted hcallables hnil
  rw [show s₁.dotted (callables.entries.map .callable) .nil = (frame, s₂) from hlist]
    at hclosed₂ hframe
  have hsound₁ := sound_of_no_frames (hs.trans hstart)
  obtain ⟨hsound₂, hrepresents⟩ :=
    hsound₁.represents_list (represents_callables _ callables.entries)
  rw [show (World.mk [] [] s₁).store.list (callables.entries.map .callable) = (frame, s₂) from
    hlist] at hsound₂ hrepresents
  have houter : World.Environment ⟨[], [], s₂⟩ [] .nil := rfl
  refine ⟨World.allocate ⟨[], [], s₂⟩
    (some (callables.entries.map fun c => .atom (.callable c))) frame .nil,
    rfl, rfl, ?_, ?_, ?_, ?_⟩
  · exact hsound₂.allocate (by exact hrepresents) .nil
  · exact hsound₂.environment_allocate houter _ _ _
  · exact hclosed₂.cons hframe trivial
  · exact ((hstart.trans hlast).trans hpair).size_le

/-- The machine that is about to run a program is aligned with the evaluator before the evaluation
of the program. -/
theorem Machine.exists_aligned_ofModule {program : Module} {prelude : Option Prelude} {args : Value}
    (hprogram : program.usesPrelude = prelude.isSome) (hheld : base.Holds program.code)
    (hs : base.Extends s) (hclosed : s.Closed) (hargs : s.Contains args) (limits : Limits) :
    ∃ w : World, w.memory = Prelude.memory (Prelude.loaded prelude s) ∧
      Aligned base w (ofModule program args limits s).registers
        (Prelude.lexicalEnv (Prelude.loaded prelude s)) program.code ∧
      (ofModule program args limits s).stack = [args] ∧
      (ofModule program args limits s).dump = #[] := by
  have hcode : s.Contains program.code.value := hheld.contains.of_size_le hs.size_le
  cases prelude with
  | none =>
    have hregisters := registers_ofModule_of_not_usesPrelude hprogram args limits (s := s)
    refine ⟨⟨[], [], s⟩, rfl, ?_, congrArg Registers.stack hregisters,
      congrArg Registers.dump hregisters⟩
    rw [hregisters]
    exact {
      sound := sound_of_no_frames hs
      store := rfl
      closed := ⟨hclosed, List.forall_mem_singleton.2 hargs, trivial, hcode, by simp⟩
      held := hheld
      control := rfl
      env := rfl }
  | some p =>
    cases hstandard : Prelude.standard s with
    | mk callables s₁ =>
      cases hlist : s₁.list (callables.entries.map .callable) with
      | mk frame s₂ =>
        have hregisters :=
          registers_ofModule_of_usesPrelude hprogram args limits hstandard hlist
        have hloaded : Prelude.loaded (some p) s = some callables := by
          rw [Prelude.loaded, hstandard]
          rfl
        obtain ⟨w, hmemory, hstore, hsound, henv, hwclosed, hsize⟩ :=
          Prelude.exists_world hs hclosed hstandard hlist
        rw [hloaded]
        refine ⟨w, hmemory, ?_, congrArg Registers.stack hregisters,
          congrArg Registers.dump hregisters⟩
        rw [hregisters, ← hstore]
        have henvHeld : w.store.Contains (.pair s₂.size) := by
          rw [hstore]
          exact Store.contains_cons _ _ _
        exact {
          sound := hsound
          store := rfl
          closed := ⟨hwclosed, List.forall_mem_singleton.2 (hargs.of_size_le hsize), henvHeld,
            hcode.of_size_le hsize, by simp⟩
          held := hheld
          control := rfl
          env := henv }

/-- What the machine does with a compiled program: it halts with a value that represents that of the
program in a world with the memory of the evaluator, or it faults with the kind of the fault of the
evaluator, unless it exceeds a limit before that. The bound on the height holds of every expression
in a store whose addresses are machine integers (`Store.Holds.height_le_size`). -/
theorem Machine.preserves_of_compile {e : Sexp} {map : SourceMap} {prelude : Option Prelude}
    {program : Module} {s s₁ s₂ : Store} (hprelude : Prelude.IsStandard prelude)
    (he : s.Holds e) (hheight : e.height < Address.limit)
    (hcompile : Module.compile e map .expression prelude s = (.ok program, s₁))
    (hs : s₁.Extends s₂) (hclosed : s₂.Closed) {args : Value} (hargs : s₂.Contains args)
    (limits : Limits) (fuel : Nat) :
    (∀ x memory, e.evaluate (Prelude.loaded prelude s₂) fuel = .ok (x, memory) →
      ∃ steps outcome m, (ofModule program args limits s₂).run steps = some (outcome, m) ∧
        ((∃ v, outcome = .halted v ∧ m.stack = [v, args] ∧
          ∃ w : World, w.memory = memory ∧ w.store = m.store ∧ w.Sound s₁ ∧
            Represents s₁ w v x) ∨ limits.Exceeded fuel outcome)) ∧
    ∀ kind, e.evaluate (Prelude.loaded prelude s₂) fuel = .error (.fault kind) →
      ∃ steps outcome m, (ofModule program args limits s₂).run steps = some (outcome, m) ∧
        ((∃ f, outcome = .faulted f ∧ f.kind = kind) ∨ limits.Exceeded fuel outcome) := by
  obtain ⟨-, -, t, ending, hcompiled⟩ :=
    Module.exists_compiled_of_compile hprelude he hheight hcompile
  obtain ⟨w, hmemory, haligned, hstack, hdump⟩ :=
    exists_aligned_ofModule hcompiled.usesPrelude hcompiled.held hs hclosed hargs limits
  have hresolves := hcompiled.resolves
  rw [← hprelude.scopes_loaded s₂] at hresolves
  have hroom : (ofModule program args limits s₂).registers.dump.size + fuel ≤ fuel := by
    rw [show (ofModule program args limits s₂).registers.dump = #[] from hdump]
    exact Nat.le_of_eq (Nat.zero_add fuel)
  obtain ⟨_, hwritten⟩ := hcompiled.written
  have hleads := simulates_withFuel s₁ fuel fuel hresolves hwritten haligned hroom
  rw [hmemory] at hleads
  have hlimits := limits_ofModule program args limits s₂
  constructor
  · intro x memory hevaluate
    rw [Sexp.evaluate] at hevaluate
    rw [hevaluate] at hleads
    obtain ⟨w', r', hreaches, -, hsound, hmemory', -, hreturns⟩ := hleads
    have hnext := hreturns.next hsound hcompiled.ends
    obtain ⟨-, v, hv, rfl⟩ := hreturns
    obtain ⟨steps, outcome, m, hrun, hend⟩ :=
      exists_run_of_reaches hreaches (.stop hnext rfl) nofun
    refine ⟨steps, outcome, m, hrun, ?_⟩
    rcases hend with hend | hexceeded
    · generalize hfinal : m.registers = final at hend
      cases hend
      have hvalues : m.stack = [v, args] := by
        rw [← hstack]
        exact congrArg Registers.stack hfinal
      have hstore : w'.store = m.store := (congrArg Registers.store hfinal).symm
      exact .inl ⟨v, rfl, hvalues, w', hmemory', hstore, hsound, hv⟩
    · exact .inr (hlimits ▸ hexceeded)
  · intro kind hevaluate
    rw [Sexp.evaluate] at hevaluate
    rw [hevaluate] at hleads
    obtain ⟨r', f, hreaches, htransition, hkind⟩ := hleads
    obtain ⟨steps, outcome, m, hrun, hend⟩ :=
      exists_run_of_reaches hreaches htransition nofun
    refine ⟨steps, outcome, m, hrun, ?_⟩
    rcases hend with hend | hexceeded
    · cases hend
      exact .inl ⟨f, rfl, hkind⟩
    · exact .inr (hlimits ▸ hexceeded)

/-- Only that symbol is equal to a symbol. -/
theorem Meaning.eq_symbol_of_equal? {x : Meaning} {name : String}
    (h : x.equal? (.atom (.symbol name)) = some true) : x = .atom (.symbol name) := by
  cases x with
  | atom a =>
    cases a with
    | symbol other =>
      have hsame : (other == name) = true := Option.some.inj h
      rw [eq_of_beq hsame]
    | _ => cases h
  | _ => cases h

/-- The program `(LETREC ((F (LAMBDA (N) (IF (EQ N 0) F (F (SUB N 1)))))) (ATOM (F 1)))`. -/
def countdown : Datum :=
  let span : Span := ⟨0, 0⟩
  let symbol (name : String) : Datum := .symbol name span
  let list (items : List Datum) : Datum := .list items span
  let test := list [symbol "EQ", symbol "N", .int 0 span]
  let next := list [symbol "F", list [symbol "SUB", symbol "N", .int 1 span]]
  let function :=
    list [symbol "LAMBDA", list [symbol "N"], list [symbol "IF", test, symbol "F", next]]
  list [symbol "LETREC", list [list [symbol "F", function]],
    list [symbol "ATOM", list [symbol "F", .int 1 span]]]

/-- The machine counts down through the frame of the `LETREC` and finds that a closure is no atom,
as the evaluator does. -/
theorem Machine.preserves_of_compile_countdown :
    ∃ program s steps m,
      Module.compile (countdown.read .empty).1.expression .empty .expression none
          (countdown.read .empty).2 = (.ok program, s) ∧
        (ofModule program .nil {} s).run steps = some (.halted (.symbol "F"), m) := by
  have hread := countdown.builds_read .empty
  have hheight : (countdown.read .empty).1.expression.height < Address.limit := by decide
  have hcompiles : (Module.compile (countdown.read .empty).1.expression .empty .expression none
      (countdown.read .empty).2).1.isOk = true := by decide +kernel
  have hevaluates : ((countdown.read .empty).1.expression.evaluate none 10).toOption.bind
      (fun answer => answer.1.equal? (.truth false)) = some true := by decide +kernel
  obtain ⟨program, s, hcompile⟩ : ∃ program s,
      Module.compile (countdown.read .empty).1.expression .empty .expression none
        (countdown.read .empty).2 = (.ok program, s) := by
    rcases hcompile : Module.compile (countdown.read .empty).1.expression .empty .expression none
      (countdown.read .empty).2 with ⟨_ | program, s⟩
    · rw [hcompile] at hcompiles
      cases hcompiles
    · exact ⟨program, s, rfl⟩
  obtain ⟨-, hclosed, -⟩ :=
    Module.exists_compiled_of_compile Prelude.isStandard_none hread.held hheight hcompile
  have hempty : Store.empty.Closed := by decide
  obtain ⟨memory, hevaluate⟩ : ∃ memory,
      (countdown.read .empty).1.expression.evaluate none 10 = .ok (.truth false, memory) := by
    rcases hresult : (countdown.read .empty).1.expression.evaluate none 10 with _ | ⟨x, memory⟩
    · rw [hresult] at hevaluates
      cases hevaluates
    · rw [hresult] at hevaluates
      obtain rfl := Meaning.eq_symbol_of_equal? hevaluates
      exact ⟨memory, rfl⟩
  obtain ⟨hvalue, -⟩ := preserves_of_compile Prelude.isStandard_none hread.held hheight hcompile
    (.refl s) (hclosed (hread.closed hempty)) (show s.Contains .nil from trivial) {} 10
  obtain ⟨steps, outcome, m, hrun, ⟨v, rfl, -, w, -, -, -, hv⟩ | hexceeded⟩ :=
    hvalue _ memory hevaluate
  · obtain rfl := hv
    exact ⟨program, s, steps, m, hcompile, hrun⟩
  · cases hexceeded with
    | steps hlimit => cases hlimit
    | dump hfull => exact absurd hfull (by decide)

end Secd
