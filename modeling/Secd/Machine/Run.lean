import Secd.Machine.Step
import Secd.Module
import Secd.Text.Layout
import Secd.Transcript

/-!
# Runs of the machine

A run is a sequence of steps up to the first that stops or faults. Since a run need not end soon,
it is given a number of steps after which it is broken off without an outcome.
-/

namespace Secd

/-- How a run has ended. -/
inductive Outcome where
  | halted (result : Value)
  | faulted (fault : Fault)
deriving Repr

namespace Outcome

/-- The result of a run without a fault. -/
def value? : Outcome → Option Value
  | .halted v => some v
  | .faulted _ => none

/-- A run that has a result has halted with it. -/
theorem eq_halted_of_value? {o : Outcome} {v : Value} (h : o.value? = some v) : o = .halted v := by
  cases o with
  | halted w =>
    obtain rfl := Option.some.inj h
    rfl
  | faulted f => cases h

/-- Whether the run has ended without a fault. -/
def isHalted (o : Outcome) : Bool := o.value?.isSome

end Outcome

namespace Machine

/-- Runs for at most `fuel` steps; `none` if the run has not ended by then. -/
def run : (fuel : Nat) → Machine → Option (Outcome × Machine)
  | 0, _ => none
  | fuel + 1, m =>
    match step.run m with
    | .ok .proceed m => run fuel m
    | .ok (.stop v) m => some (.halted v, m)
    | .error f m => some (.faulted f, m)

/-- A run that has ended does not depend on how many more steps it was allowed. -/
theorem run_add {fuel : Nat} (extra : Nat) {m : Machine} {result : Outcome × Machine}
    (h : run fuel m = some result) : run (fuel + extra) m = some result := by
  induction fuel generalizing m with
  | zero => cases h
  | succ fuel ih =>
    rw [Nat.succ_add]
    rw [run] at h ⊢
    split at h
    · exact ih h
    · exact h
    · exact h

/-- How many characters of a register a trace shows. -/
def traceWidth : Nat := 40

/-- The line of a trace for a state: the number of steps so far, the registers as far as they fit,
and the depth of the dump. -/
def traceLine (m : Machine) : String :=
  let shown (text : String) := truncate text traceWidth
  Text.padLeft 6 (toString m.stats.steps) ++ "  S=" ++ shown (m.store.renderList m.stack) ++
    "  E=" ++ shown (m.store.render m.env) ++ "  C=" ++ shown (m.store.render m.control) ++
    "  D=" ++ toString m.dump.size

/-- Runs like `run`, and writes a line before every step and one for the outcome. -/
def runTraced : (fuel : Nat) → Machine → Transcript → Option (Outcome × Machine × Transcript)
  | 0, _, _ => none
  | fuel + 1, m, out =>
    let out := out.writeLine m.traceLine
    match step.run m with
    | .ok .proceed m => runTraced fuel m out
    | .ok (.stop v) m => some (.halted v, m, out.writeLine ("=> " ++ m.store.render v))
    | .error f m => some (.faulted f, m, out.writeLine ("!! " ++ f.message))

/-- A trace changes neither how a run ends nor the machine that it leaves. -/
theorem map_runTraced (fuel : Nat) (m : Machine) (out : Transcript) :
    (runTraced fuel m out).map (fun (outcome, machine, _) => (outcome, machine)) =
      run fuel m := by
  induction fuel generalizing m out with
  | zero => rfl
  | succ fuel ih =>
    simp only [runTraced, run]
    split
    · exact ih _ _
    · rfl
    · rfl

/-- A machine about to run a module on a list of arguments. A module that counts on the prelude
gets one of its own. -/
def ofModule (m : Module) (args : Value) (limits : Limits) (s : Store) : Machine :=
  let (env, s) :=
    if m.usesPrelude then
      let (prelude, s) := Prelude.standard s
      prelude.env s
    else
      (.nil, s)
  (idle s limits).load m.code.value args env

end Machine

end Secd
