import Secd.Proofs.Machine.Turn

/-!
# A step limit only pauses a run

The limit on the steps is looked at before anything else happens in a step. So a run that gets to
its end before the limit gets there in the same way with every larger limit; and a run that is cut
off has changed nothing in the step that it could not take. Given a larger limit, it goes on as if
it had had that limit from the beginning.
-/

namespace Secd

namespace Machine

open Secd.Action

variable {m m' : Machine} {limit? : Option Nat}

/-- The machine with another limit on the steps, or with none. -/
def withMaxSteps (m : Machine) (limit? : Option Nat) : Machine :=
  m.withLimits { m.limits with maxSteps := limit? }

/-- A run with this limit may take `n` steps. -/
def Allows (limit? : Option Nat) (n : Nat) : Prop := ∀ limit, limit? = some limit → n ≤ limit

/-- The next step may be taken under a limit that allows for it. -/
theorem not_exhausted_of_allows (h : Allows limit? (m.stats.steps + 1)) :
    ¬ (m.withMaxSteps limit?).Exhausted := by
  rintro ⟨limit, hlimit, hle⟩
  have hlt : m.stats.steps < limit := h limit hlimit
  exact Nat.not_le.2 hlt hle

/-- A step does the same under two limits that allow for it. -/
theorem step_withMaxSteps (hallowed : ¬ m.Exhausted) (hother : Allows limit? (m.stats.steps + 1)) :
    step.run (m.withMaxSteps limit?) = leaving (withMaxSteps · limit?) (step.run m) := by
  have hsame := step_withLimits hallowed (not_exhausted_of_allows hother) Iff.rfl
  refine hsame.trans ?_
  cases hresult : step.run m with
  | ok flow m₁ =>
    obtain ⟨hlimits, -⟩ := measures_of_ok hresult
    simp only [leaving, withMaxSteps, hlimits]
  | error f m₁ =>
    obtain ⟨hlimits, -⟩ := sameDump_of_error hresult
    simp only [leaving, withMaxSteps, hlimits]

/-- How a run with a limit of `d` more steps ends, and what it has to do with a run under a limit
that allows for as many steps: it comes to its end, which is that of the other run, too; or it is
cut off after `d` steps, and then the other run has gone through them and goes on from there. -/
inductive Pauses (m other : Machine) (limit? : Option Nat) (d : Nat) : Prop where
  | ends {outcome : Outcome} {m' : Machine} (hrun : run (d + 1) m = some (outcome, m'))
      (hunlimited : ∀ limit, outcome ≠ .faulted (.stepLimit limit))
      (hother : run (d + 1) other = some (outcome, m'.withMaxSteps limit?)) :
      Pauses m other limit? d
  | cutOff {m' : Machine}
      (hrun : run (d + 1) m = some (.faulted (.stepLimit (m.stats.steps + d)), m'))
      (hsteps : m'.stats.steps = m.stats.steps + d)
      (hproceeds : ∀ i < d, step.run (other.after i) = .ok .proceed (other.after (i + 1)))
      (hafter : m'.withMaxSteps limit? = other.after d)
      (hresumes : ∀ more, run more (m'.withMaxSteps limit?) = run (d + more) other) :
      Pauses m other limit? d

/-- A run with a limit only pauses there. -/
theorem pauses (d : Nat) (hmax : m.limits.maxSteps = some (m.stats.steps + d))
    (hother : Allows limit? (m.stats.steps + d)) : Pauses m (m.withMaxSteps limit?) limit? d := by
  -- on the number of steps that are left; the rest of the run begins in another state
  induction d generalizing m with
  | zero =>
    have hexhausted : m.Exhausted := ⟨_, hmax, Nat.le_refl _⟩
    obtain ⟨limit, hlimit, hstep⟩ := hexhausted.step_eq
    obtain rfl : m.stats.steps + 0 = limit := Option.some.inj (hmax.symm.trans hlimit)
    refine .cutOff (by rw [run, hstep]) rfl (fun i hi => absurd hi (Nat.not_lt_zero i)) rfl ?_
    intro more
    rw [Nat.zero_add]
  | succ d ih =>
    have hallowed : ¬ m.Exhausted := by
      rintro ⟨limit, hlimit, hle⟩
      obtain rfl : m.stats.steps + (d + 1) = limit := Option.some.inj (hmax.symm.trans hlimit)
      omega
    have hnext : Allows limit? (m.stats.steps + 1) := by
      intro limit hlimit
      have hle := hother limit hlimit
      omega
    have hstep := step_withMaxSteps hallowed hnext
    cases hresult : step.run m with
    | error f m₁ =>
      rw [hresult] at hstep
      obtain ⟨-, -, hfault⟩ := sameDump_of_error hresult
      refine .ends (by rw [run, hresult]) ?_ (by rw [run, hstep]; rfl)
      intro limit h
      exact hfault hallowed limit (Outcome.faulted.inj h)
    | ok flow m₁ =>
      rw [hresult] at hstep
      cases flow with
      | stop v =>
        have hhalted (limit : Nat) : Outcome.halted v ≠ .faulted (.stepLimit limit) :=
          Outcome.noConfusion
        exact .ends (by rw [run, hresult]) hhalted (by rw [run, hstep]; rfl)
      | proceed =>
        obtain ⟨hlimits, hmeasures, -⟩ := measures_of_ok hresult
        have hsteps : m₁.stats.steps = m.stats.steps + 1 := congrArg Stats.steps hmeasures
        have hsum : m₁.stats.steps + d = m.stats.steps + (d + 1) := by omega
        have hrun (n : Nat) : run (n + 1) m = run n m₁ := by rw [run, hresult]
        have hrunOther (n : Nat) :
            run (n + 1) (m.withMaxSteps limit?) = run n (m₁.withMaxSteps limit?) := by
          rw [run, hstep]
          rfl
        have hafter (i : Nat) :
            (m.withMaxSteps limit?).after (i + 1) = (m₁.withMaxSteps limit?).after i := by
          rw [← after_next, next, hstep]
          rfl
        have hrest := ih (by rw [hlimits, hsum, hmax]) (by rw [hsum]; exact hother)
        cases hrest with
        | ends hends hunlimited hendsOther =>
          exact .ends ((hrun _).trans hends) hunlimited ((hrunOther _).trans hendsOther)
        | cutOff hcut hcount hproceeds hreached hresumes =>
          rw [hsum] at hcut hcount
          refine .cutOff ((hrun _).trans hcut) hcount ?_ (hreached.trans (hafter d).symm) ?_
          · intro i hi
            cases i with
            | zero =>
              rw [hafter]
              exact hstep
            | succ i =>
              rw [hafter, hafter]
              exact hproceeds i (Nat.lt_of_succ_lt_succ hi)
          · intro more
            rw [Nat.succ_add, hrunOther]
            exact hresumes more

/-- A run with the limit `n` on its steps ends. If it does not end at the limit, it ends in the same
way, in the same state and with the same counts under every limit that is no smaller, and without
any. If it ends at the limit, this is the limit `n`; exactly `n` steps have been counted, and the
machine is in the state in which a run with the other limit is after `n` steps, all of which have
succeeded; and when the limit is changed to the other one, the run goes on like that run after its
first `n` steps, so both end alike, or neither ends. Host callables are primitives and have no state
of their own, so a call gives the same in both runs. -/
theorem resumes_of_stepLimit (s : Store) (code args env : Value) (maxDump n : Nat)
    (hlimit : Allows limit? n) :
    let start (limit? : Option Nat) := (idle s ⟨limit?, maxDump⟩).load code args env
    ∃ outcome m', run (n + 1) (start (some n)) = some (outcome, m') ∧
      ((∀ limit, outcome ≠ .faulted (.stepLimit limit)) →
        run (n + 1) (start limit?) = some (outcome, m'.withMaxSteps limit?)) ∧
      ∀ limit, outcome = .faulted (.stepLimit limit) →
        limit = n ∧ m'.stats.steps = n ∧
          (∀ i < n, step.run ((start limit?).after i) =
            .ok .proceed ((start limit?).after (i + 1))) ∧
          m'.withMaxSteps limit? = (start limit?).after n ∧
          ∀ more, run more (m'.withMaxSteps limit?) = run (n + more) (start limit?) := by
  intro start
  have hzero : (start (some n)).stats.steps + n = n := Nat.zero_add n
  have hmax : (start (some n)).limits.maxSteps = some ((start (some n)).stats.steps + n) :=
    congrArg some hzero.symm
  have hpauses : Pauses (start (some n)) (start limit?) limit? n :=
    pauses n hmax (by rw [hzero]; exact hlimit)
  cases hpauses with
  | @ends outcome m' hrun hunlimited hother =>
    refine ⟨outcome, m', hrun, fun _ => hother, ?_⟩
    intro limit h
    exact absurd h (hunlimited limit)
  | @cutOff m' hrun hsteps hproceeds hafter hresumes =>
    refine ⟨_, m', hrun, fun h => absurd rfl (h _), ?_⟩
    intro limit h
    obtain rfl := Fault.stepLimit.inj (Outcome.faulted.inj h)
    rw [hzero] at hsteps
    exact ⟨hzero, hsteps, hproceeds, hafter, hresumes⟩

/-- The code `(LDC 7 STOP)` in cell 2. -/
def constantCode : Store where
  cells := #[⟨Opcode.stop.value, .nil⟩, ⟨.int 7, .pair 0⟩, ⟨Opcode.ldc.value, .pair 1⟩]

/-- A run that is cut off before its `STOP` halts when it goes on without a limit, as it does
without a limit from the beginning. -/
theorem resumes_of_stepLimit_constantCode :
    let start (limit? : Option Nat) := (idle constantCode ⟨limit?, 0⟩).load (.pair 2) .nil .nil
    ∃ paused, run 2 (start (some 1)) = some (.faulted (.stepLimit 1), paused) ∧
      paused.stack = [.int 7, .nil] ∧ paused.withMaxSteps none = (start none).after 1 ∧
      (run 1 (paused.withMaxSteps none)).map Prod.fst = some (.halted (.int 7)) ∧
      (run 2 (start none)).map Prod.fst = some (.halted (.int 7)) := by
  intro start
  obtain ⟨outcome, paused, hrun, -, hpaused⟩ :=
    resumes_of_stepLimit constantCode (.pair 2) .nil .nil 0 1
      (show Allows none 1 from fun _ h => nomatch h)
  obtain ⟨m, hcutOff, hstack⟩ :
      ∃ m, run 2 (start (some 1)) = some (.faulted (.stepLimit 1), m) ∧
        m.stack = [.int 7, .nil] := ⟨_, rfl, rfl⟩
  obtain ⟨rfl, rfl⟩ := Prod.mk.inj (Option.some.inj (hrun.symm.trans hcutOff))
  obtain ⟨-, -, -, hafter, hresumes⟩ := hpaused 1 rfl
  refine ⟨paused, hcutOff, hstack, hafter, ?_, rfl⟩
  rw [hresumes 1]
  rfl

end Machine

end Secd
