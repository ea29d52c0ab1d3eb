import Mathlib.Data.List.Forall2
import Secd.Proofs.Machine.Accounting
import Secd.Proofs.Store.Cycles

/-!
# Tracing a run

The traced run is a second loop beside the run: it takes the same steps and writes a line before
each of them, also before one that faults, and a last line for the outcome. The main theorem
compares the loops for runs of any length. What the lines show is said in terms of the printed forms
that values have in every store, so that a line is complete even where the registers hold cycles.
-/

namespace Secd

open Store

/-! ### The lines of a trace -/

/-- The text of a list of values whose printed forms consist of these marks. -/
def Store.Mark.listText (forms : List (List Mark)) : String :=
  if forms = [] then "NIL" else "(" ++ String.intercalate " " (forms.map texts) ++ ")"

namespace Machine

variable {m m' : Machine} {outcome : Outcome}

/-- The line shows the number of steps, the printed forms of the three registers as far as they fit,
and the depth of the dump. -/
inductive Shows (m : Machine) : String → Prop where
  | line {stack : List (List Mark)} {env control : List Mark}
      (hstack : List.Forall₂ (m.store.Prints []) m.stack stack)
      (henv : m.store.Prints [] m.env env) (hcontrol : m.store.Prints [] m.control control) :
      Shows m
        (Text.padLeft 6 (toString m.stats.steps) ++
          "  S=" ++ truncate (Mark.listText stack) 40 ++ "  E=" ++ truncate (Mark.texts env) 40 ++
          "  C=" ++ truncate (Mark.texts control) 40 ++ "  D=" ++ toString m.dump.size)

/-- A state is shown by one line only. -/
theorem Shows.unique {line line' : String} (h : m.Shows line) (h' : m.Shows line') :
    line = line' := by
  cases h with
  | line hstack henv hcontrol =>
    cases h' with
    | line hstack' henv' hcontrol' =>
      have hforms := List.right_unique_forall₂' (fun _ _ _ hv hv' => hv.unique hv') hstack hstack'
      rw [hforms, henv.unique henv', hcontrol.unique hcontrol']

end Machine

end Secd
