import Secd.Proofs.Machine.Parallel
import Secd.Proofs.Machine.Safety

/-!
# Sharing of code cells

A program may be built of cells in many ways: constants and blocks that are the same may be one tree
or several, and a program that has been saved and read back shares nothing. The machine does not
notice. Two machines with the same code and the same arguments, in whatever cells of one store,
execute the same instructions; after each step no path of heads and tails tells their registers
apart, and they end alike.
-/

namespace Secd

open Store

/-- Runs have ended alike: both with a result, and no path tells these apart, or both with a fault,
and these are of the same kind, whatever they carry. -/
inductive Outcome.Alike (s s' : Store) : Outcome → Outcome → Prop where
  | halted {v v' : Value} (h : s.Corresponds s' v v') : Alike s s' (.halted v) (.halted v')
  | faulted {f f' : Fault} (h : f.kind.ctorIdx = f'.kind.ctorIdx) :
      Alike s s' (.faulted f) (.faulted f')

namespace Machine

/-! ### What can be seen of a run -/

/-- A run after some steps: the instructions that have been executed, the outcome if it has ended,
and the machine. -/
structure Progress where
  executed : List Opcode
  outcome? : Option Outcome
  machine : Machine

/-- The instruction that has been executed between two states, unless the step faulted before an
instruction was counted. -/
def executed (before after : Machine) : List Opcode :=
  if after.stats.steps = before.stats.steps then [] else before.registers.opcode?.toList

/-- How far a run has come after at most `n` steps. -/
def progress : (n : Nat) → Machine → Progress
  | 0, m => ⟨[], none, m⟩
  | n + 1, m =>
    match step.run m with
    | .ok .proceed m' =>
      ⟨m.executed m' ++ (progress n m').executed, (progress n m').outcome?, (progress n m').machine⟩
    | .ok (.stop v) m' => ⟨m.executed m', some (.halted v), m'⟩
    | .error f m' => ⟨m.executed m', some (.faulted f), m'⟩

/-- A run has ended as soon as it has come to its outcome. -/
theorem run_eq_progress (n : Nat) (m : Machine) :
    m.run n = (m.progress n).outcome?.map fun outcome => (outcome, (m.progress n).machine) := by
  induction n generalizing m with
  | zero => rfl
  | succ n ih =>
    rw [run, progress]
    generalize step.run m = r
    cases r with
    | ok flow m₁ =>
      cases flow with
      | proceed => exact ih m₁
      | stop v => rfl
    | error f m₁ => rfl

/-- Two runs have come equally far: the same instructions have been executed, no path tells the
registers apart, the dumps are equally deep, the counters are the same, and if the runs have ended,
then alike. -/
structure Progress.Alike (p p' : Progress) : Prop where
  executed : p.executed = p'.executed
  stack : List.Forall₂ (p.machine.store.Corresponds p'.machine.store) p.machine.stack
    p'.machine.stack
  env : p.machine.store.Corresponds p'.machine.store p.machine.env p'.machine.env
  control : p.machine.store.Corresponds p'.machine.store p.machine.control p'.machine.control
  dump : p.machine.dump.size = p'.machine.dump.size
  stats : p.machine.stats = p'.machine.stats
  outcome : Option.Rel (Outcome.Alike p.machine.store p'.machine.store) p.outcome? p'.outcome?

/-! ### Machines side by side -/

variable {base : Bases} {m m' : Machine}

/-- The same instruction is next in machines side by side. -/
theorem Parallel.opcode?_eq (h : m.Parallel base m') :
    m.registers.opcode? = m'.registers.opcode? := by
  have hcontrol := h.control
  unfold Registers.opcode? registers
  dsimp only
  generalize m.control = v at hcontrol
  generalize m'.control = v' at hcontrol
  rcases hcontrol.atom_or_pair with ⟨a, rfl, rfl⟩ | ⟨c, c', rfl, rfl⟩
  · rfl
  · exact (h.store.parts hcontrol).1.eq_of_blind Opcode.ofValue? fun _ _ => rfl

/-- Machines side by side execute the same instruction on the way to machines side by side. -/
theorem Parallel.executed_eq (h : m.Parallel base m') {m₁ m₁' : Machine}
    (h₁ : m₁.Parallel base m₁') : m.executed m₁ = m'.executed m₁' := by
  rw [executed, executed, h.opcode?_eq, h.stats_eq, h₁.stats_eq]

/-- What can be seen of machines side by side is alike. -/
theorem Parallel.alike (h : m.Parallel base m') {executed executed' : List Opcode}
    (hexecuted : executed = executed') {outcome? outcome?' : Option Outcome}
    (houtcome : Option.Rel (Outcome.Alike m.store m'.store) outcome? outcome?') :
    Progress.Alike ⟨executed, outcome?, m⟩ ⟨executed', outcome?', m'⟩ where
  executed := hexecuted
  stack := h.stack.imp fun _ _ hv => h.store.corresponds hv
  env := h.store.corresponds h.env
  control := h.store.corresponds h.control
  dump := h.size_dump_eq.symm
  stats := h.stats_eq.symm
  outcome := houtcome

/-- Machines side by side run in step. -/
theorem Parallel.alike_progress (hbase : base.Closed) (h : m.Parallel base m') (n : Nat) :
    (m.progress n).Alike (m'.progress n) := by
  induction n generalizing m m' with
  | zero => exact h.alike rfl .none
  | succ n ih =>
    have hstep := Action.agree_step hbase m m' h (Nat.le_refl _)
    rw [progress, progress]
    simp only [EStateM.run]
    generalize step m = r at hstep
    generalize step m' = r' at hstep
    cases hstep with
    | ok hm hsize hflow =>
      cases hflow with
      | proceed =>
        have hrest := ih hm
        exact { hrest with executed := congrArg₂ (· ++ ·) (h.executed_eq hm) hrest.executed }
      | stop hv => exact hm.alike (h.executed_eq hm) (.some (.halted (hm.store.corresponds hv)))
    | error hm => exact hm.alike (h.executed_eq hm) (.some (.faulted rfl))

/-- Machines that are loaded with matching trees of two stores are side by side. -/
theorem parallel_load_of_matches {k k' args args' env env' : Sexp} (hk : base.first.Holds k)
    (hk' : base.second.Holds k') (hcode : k.Matches k') (hcodeSettled : k.AllAtoms Atom.Settled)
    (hargs : base.first.Holds args) (hargs' : base.second.Holds args')
    (hmatch : args.Matches args') (hargsSettled : args.AllAtoms Atom.Settled)
    (henv : base.first.Holds env) (henv' : base.second.Holds env') (hframes : env.Matches env')
    (henvSettled : env.AllAtoms Atom.Settled) (limits : Limits) :
    Parallel base ((idle base.first limits).load k.value args.value env.value)
      ((idle base.second limits).load k'.value args'.value env'.value) where
  store := parallel_refl base
  stack := .cons (linked_tree hargs hargs' hmatch hargsSettled) .nil
  env := linked_tree henv henv' hframes henvSettled
  control := linked_tree hk hk' hcode hcodeSettled
  dump := .nil
  limits_eq := rfl
  stats_eq := rfl
  pendingCalls_eq := rfl

/-- Machines that are loaded with matching trees of one store are side by side. -/
theorem parallel_load {s : Store} {k k' args args' env : Sexp} (hk : s.Holds k) (hk' : s.Holds k')
    (hcode : k.Matches k') (hcodeSettled : k.AllAtoms Atom.Settled) (hargs : s.Holds args)
    (hargs' : s.Holds args') (hmatch : args.Matches args')
    (hargsSettled : args.AllAtoms Atom.Settled) (henv : s.Holds env)
    (henvSettled : env.AllAtoms Atom.Settled) (limits : Limits) :
    Parallel ⟨s, s⟩ ((idle s limits).load k.value args.value env.value)
      ((idle s limits).load k'.value args'.value env.value) :=
  @parallel_load_of_matches ⟨s, s⟩ _ _ _ _ _ _ hk hk' hcode hcodeSettled hargs hargs' hmatch
    hargsSettled henv henv env.matches_refl henvSettled limits

/-- A run does not depend on how the cells of the code and of the arguments are shared. Let a closed
store hold code without callables, a value that is equal to the code, two lists of arguments that
are equal, and an environment; in none of them is the placeholder of a letrec frame. Callables of
the two lists that have the same identity are the very same one, with the same name, number of
parameters and primitive: the host makes each callable under an identity of its own, so this is so
for all lists that there are. Then the runs with the one and with the other are alike after any
number of steps, and with any number of steps allowed both end, or neither. -/
theorem alike_of_equal {s : Store} (hs : s.Closed) {k : Sexp} (hk : s.Holds k)
    (hplain : k.AllAtoms Atom.Plain) (hcodeSettled : k.AllAtoms Atom.Settled) {k' : Value}
    (hk' : s.Contains k') (hcode : s.equal k.value k' = true) {args args' : Sexp}
    (hargs : s.Holds args) (hargs' : s.Holds args')
    (hequal : s.equal args.value args'.value = true) (hidentified : args.Identified args')
    (hargsSettled : args.AllAtoms Atom.Settled) {env : Sexp} (henv : s.Holds env)
    (henvSettled : env.AllAtoms Atom.Settled) (limits : Limits) (n : Nat) :
    (progress n ((idle s limits).load k.value args.value env.value)).Alike
        (progress n ((idle s limits).load k' args'.value env.value)) ∧
      Option.Rel (fun r r' => Outcome.Alike r.2.store r'.2.store r.1 r'.1)
        (run n ((idle s limits).load k.value args.value env.value))
        (run n ((idle s limits).load k' args'.value env.value)) := by
  obtain ⟨e, he, rfl, hsame⟩ := hs.exists_same_of_equal hk hk' hcode
  have hmatches : k.Matches e := (Sexp.identified_of_plain hplain e).matches_of_same hsame
  have hmatchesArgs : args.Matches args' :=
    hidentified.matches_of_same (hs.same_of_equal hargs hargs' hequal)
  have hparallel := parallel_load hk he hmatches hcodeSettled hargs hargs' hmatchesArgs hargsSettled
    henv henvSettled limits
  have halike := hparallel.alike_progress ⟨hs, hs⟩ n
  refine ⟨halike, ?_⟩
  have houtcome := halike.outcome
  rw [run_eq_progress, run_eq_progress]
  generalize (progress n ((idle s limits).load k.value args.value env.value)).outcome? = x
    at houtcome
  generalize (progress n ((idle s limits).load e.value args'.value env.value)).outcome? = x'
    at houtcome
  cases houtcome with
  | none => exact .none
  | some h => exact .some h

/-- The code `(LDC (1) LDC (1) EQ STOP)` twice: from cell 6 on both constants are the list in cell
0, and from cell 14 on they are lists of their own. -/
def twoCodes : Store where
  cells := #[⟨.int 1, .nil⟩,
    ⟨Opcode.stop.value, .nil⟩, ⟨(Opcode.binary .eq).value, .pair 1⟩, ⟨.pair 0, .pair 2⟩,
    ⟨Opcode.ldc.value, .pair 3⟩, ⟨.pair 0, .pair 4⟩, ⟨Opcode.ldc.value, .pair 5⟩,
    ⟨.int 1, .nil⟩, ⟨.int 1, .nil⟩,
    ⟨Opcode.stop.value, .nil⟩, ⟨(Opcode.binary .eq).value, .pair 9⟩, ⟨.pair 7, .pair 10⟩,
    ⟨Opcode.ldc.value, .pair 11⟩, ⟨.pair 8, .pair 12⟩, ⟨Opcode.ldc.value, .pair 13⟩]

/-- The tree of the code in which both constants are the same cell. -/
def sharedCode : Sexp :=
  .pair 6 Opcode.ldc.sexp <| .pair 5 (.pair 0 (.int 1) .nil) <| .pair 4 Opcode.ldc.sexp <|
    .pair 3 (.pair 0 (.int 1) .nil) <| .pair 2 (Opcode.binary .eq).sexp <|
      .pair 1 Opcode.stop.sexp .nil

/-- One machine compares a cell with itself and the other one compares two cells; both execute the
same instructions and halt with equal results. -/
theorem alike_of_equal_twoCodes :
    twoCodes.Holds sharedCode ∧ twoCodes.equal (.pair 6) (.pair 14) = true ∧
      (progress 4 ((idle twoCodes {}).load (.pair 6) .nil .nil)).executed =
        (progress 4 ((idle twoCodes {}).load (.pair 14) .nil .nil)).executed ∧
      ∃ m v m', run 4 ((idle twoCodes {}).load (.pair 6) .nil .nil) =
          some (.halted (.truth true), m) ∧
        run 4 ((idle twoCodes {}).load (.pair 14) .nil .nil) = some (.halted v, m') ∧
          m.store.Corresponds m'.store (.truth true) v := by
  have hs : twoCodes.Closed := by decide
  have hshared : twoCodes.Holds sharedCode :=
    ⟨by decide, rfl, trivial, by decide, rfl, ⟨by decide, rfl, trivial, trivial⟩, by decide, rfl,
      trivial, by decide, rfl, ⟨by decide, rfl, trivial, trivial⟩, by decide, rfl, trivial,
      by decide, rfl, trivial, trivial⟩
  have hequal : twoCodes.equal (.pair 6) (.pair 14) = true := by decide +kernel
  have hnil : twoCodes.Holds .nil := trivial
  obtain ⟨halike, hrun⟩ := alike_of_equal hs hshared (by decide) (by decide)
    (show twoCodes.Contains (.pair 14) by decide) hequal hnil hnil rfl (fun _ => rfl) trivial hnil
    trivial {} 4
  refine ⟨hshared, hequal, halike.executed, ?_⟩
  obtain ⟨m, hhalts⟩ : ∃ m, run 4 ((idle twoCodes {}).load (.pair 6) .nil .nil) =
      some (.halted (.truth true), m) := ⟨_, rfl⟩
  have houtcome : Option.Rel (fun r r' => Outcome.Alike r.2.store r'.2.store r.1 r'.1)
      (run 4 ((idle twoCodes {}).load (.pair 6) .nil .nil))
      (run 4 ((idle twoCodes {}).load (.pair 14) .nil .nil)) := hrun
  rw [hhalts] at houtcome
  generalize run 4 ((idle twoCodes {}).load (.pair 14) .nil .nil) = r at houtcome ⊢
  cases houtcome with
  | @some _ r h =>
    obtain ⟨outcome, m'⟩ := r
    cases h with
    | halted hv => exact ⟨m, _, m', hhalts, rfl, hv⟩

end Machine

end Secd
