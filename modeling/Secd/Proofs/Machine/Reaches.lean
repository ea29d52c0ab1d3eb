import Secd.Machine.Run
import Secd.Proofs.Machine.Closed

/-!
# Sequences of transitions

A sequence of transitions says how a run goes on as long as no limit cuts it off. With the greatest
size of the dump on the way it also says which limits can do so: the limit on the number of steps,
if there is one, and the limit on the dump if it is smaller than that size.
-/

namespace Secd

/-- Transitions lead from `r` to `r'`, and none of them leaves more than `bound` entries on the
dump. -/
inductive Reaches (bound : Nat) : (r r' : Registers) → Prop where
  | refl (r : Registers) : Reaches bound r r
  | step {r r' r'' : Registers} (hstep : Transition r (.proceed r'))
      (hdump : r'.dump.size ≤ bound) (hrest : Reaches bound r' r'') : Reaches bound r r''

namespace Reaches

variable {bound : Nat} {r r' r'' : Registers}

/-- One sequence of transitions after the other. -/
theorem trans (h : Reaches bound r r') (k : Reaches bound r' r'') : Reaches bound r r'' := by
  induction h with
  | refl _ => exact k
  | step hstep hdump _ ih => exact .step hstep hdump (ih k)

/-- Transitions leave closed registers closed. -/
theorem closed (h : Reaches bound r r') (hr : r.Closed) : r'.Closed := by
  induction h with
  | refl _ => exact hr
  | step hstep _ _ ih => exact ih (hr.of_transition hstep)

end Reaches

/-- A run with these limits may end like this although its dump never needs more than `bound`
entries. -/
inductive Limits.Exceeded (limits : Limits) (bound : Nat) : Outcome → Prop where
  | steps {limit : Nat} (hlimit : limits.maxSteps = some limit) :
      Exceeded limits bound (.faulted (.stepLimit limit))
  | dump (hfull : limits.maxDump < bound) : Exceeded limits bound (.faulted .dumpOverflow)

/-- A run that has come to its last step ends with this outcome and these registers. -/
inductive Effect.Ends : Effect → Outcome → Registers → Prop where
  | stop {v : Value} {r : Registers} : Ends (.stop v r) (.halted v) r
  | fault {f : Fault} {r : Registers} : Ends (.fault f) (.faulted f) r

namespace Machine

variable {bound : Nat}

/-- A run ends at once if its first step does. -/
theorem exists_run_of_transition {m : Machine} {e : Effect} (hend : Transition m.registers e)
    (hfinal : ∀ r, e ≠ .proceed r) :
    ∃ fuel outcome m', m.run fuel = some (outcome, m') ∧
      (e.Ends outcome m'.registers ∨ m.limits.Exceeded bound outcome) := by
  rcases obeys_of_transition hend with hcut | hobeys
  · cases hcut with
    | steps hlimit hstep => exact ⟨1, _, m, by rw [run, hstep], .inr (.steps hlimit)⟩
    | dump hfull hstep => exact absurd rfl (hfinal _)
  · cases e with
    | proceed r => exact absurd rfl (hfinal r)
    | stop v r =>
      obtain ⟨m', hstep, rfl⟩ := hobeys
      exact ⟨1, _, m', by rw [run, hstep], .inl .stop⟩
    | fault f =>
      obtain ⟨m', hstep⟩ := hobeys
      exact ⟨1, _, m', by rw [run, hstep], .inl .fault⟩

/-- A run goes through a sequence of transitions and ends with the last one, unless a limit is
exceeded on the way. -/
theorem exists_run_of_reaches {m : Machine} {r : Registers} {e : Effect}
    (h : Reaches bound m.registers r) (hend : Transition r e) (hfinal : ∀ r, e ≠ .proceed r) :
    ∃ fuel outcome m', m.run fuel = some (outcome, m') ∧
      (e.Ends outcome m'.registers ∨ m.limits.Exceeded bound outcome) := by
  generalize hstart : m.registers = start at h
  induction h generalizing m with
  | refl r =>
    subst hstart
    exact exists_run_of_transition hend hfinal
  | step hstep hdump _ ih =>
    subst hstart
    rcases obeys_of_transition hstep with hcut | ⟨m₁, hrun, hregisters, hlimits⟩
    · cases hcut with
      | steps hlimit hstep => exact ⟨1, _, m, by rw [run, hstep], .inr (.steps hlimit)⟩
      | @dump _ m' hfull hstep =>
        exact ⟨1, _, m', by rw [run, hstep], .inr (.dump (Nat.lt_of_lt_of_le hfull hdump))⟩
    · obtain ⟨fuel, outcome, m', hrest, hended⟩ := ih hend hregisters
      rw [hlimits] at hended
      exact ⟨fuel + 1, outcome, m', by rw [run, hrun]; exact hrest, hended⟩

/-- Without a limit on the steps, a run goes through a sequence of transitions if the dump has room
for it, and goes on from there. -/
theorem exists_run_add_of_reaches {m : Machine} {r : Registers} (h : Reaches bound m.registers r)
    (hsteps : m.limits.maxSteps = none) (hroom : bound ≤ m.limits.maxDump) :
    ∃ n m', m'.registers = r ∧ m'.limits = m.limits ∧ ∀ fuel, run (n + fuel) m = run fuel m' := by
  generalize hstart : m.registers = start at h
  induction h generalizing m with
  | refl r => exact ⟨0, m, hstart, rfl, fun fuel => by rw [Nat.zero_add]⟩
  | step hstep hdump _ ih =>
    subst hstart
    rcases obeys_of_transition hstep with hcut | ⟨m₁, hrun, hregisters, hlimits⟩
    · cases hcut with
      | steps hlimit _ => cases hsteps.symm.trans hlimit
      | dump hfull _ => omega
    · obtain ⟨n, m', hr, hkept, hrest⟩ :=
        ih (hlimits ▸ hsteps) (hlimits ▸ hroom) hregisters
      refine ⟨n + 1, m', hr, hkept.trans hlimits, fun fuel => ?_⟩
      rw [Nat.succ_add, run, hrun]
      exact hrest fuel

end Machine

end Secd
