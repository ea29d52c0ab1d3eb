import Secd.Proofs.Machine.Lockstep
import Secd.Proofs.Machine.Relabelled

/-!
# Runs in different stores

The store with which a run begins may hold all kinds of values besides the program, and the host
callables in it may have other identities. The run does not notice: with the same code and the same
environment, up to cells and identities, it ends with the same fault or with a result that no path
tells apart.
-/

namespace Secd

open Store

/-- Both runs have halted, and no path tells the results apart, or both have faulted with the same
fault. -/
inductive Outcome.Agrees (s s' : Store) : Outcome → Outcome → Prop where
  | halted {v v' : Value} (h : s.Corresponds s' v v') : Agrees s s' (.halted v) (.halted v')
  | faulted (f : Fault) : Agrees s s' (.faulted f) (.faulted f)

namespace Machine

variable {base : Bases} {m m' : Machine}

/-- Machines side by side end together, or neither does. -/
theorem Parallel.run_rel (hbase : base.Closed) (h : m.Parallel base m') (n : Nat) :
    Option.Rel (fun r r' => r.1.Agrees r.2.store r'.2.store r'.1) (m.run n) (m'.run n) := by
  induction n generalizing m m' with
  | zero => exact .none
  | succ n ih =>
    have hstep := Action.agree_step hbase m m' h (Nat.le_refl _)
    rw [run, run]
    simp only [EStateM.run]
    generalize step m = r at hstep
    generalize step m' = r' at hstep
    cases hstep with
    | ok hm _ hflow =>
      cases hflow with
      | proceed => exact ih hm
      | stop hv => exact .some (.halted (hm.store.corresponds hv))
    | error _ => exact .some (.faulted _)

/-- Two closed stores hold the same code, without callables, and environments that are the same once
the identities in the second one are replaced. Then the runs without arguments end together, with
the same fault or with results that are the same once the identities are replaced. -/
theorem agrees_of_matches {s s' : Store} (hs : s.Closed) (hs' : s'.Closed) {σ : Nat → Nat}
    (hσ : σ.Injective) {k k' env env' : Sexp} (hk : s.Holds k) (hk' : s'.Holds k')
    (hcode : k.Matches k') (hplain : k'.AllAtoms Atom.Plain)
    (hcodeSettled : k.AllAtoms Atom.Settled) (henv : s.Holds env) (henv' : s'.Holds env')
    (hframes : env.Matches (env'.relabel σ)) (henvSettled : env.AllAtoms Atom.Settled)
    (limits : Limits) (n : Nat) :
    Option.Rel
      (fun r r' => r.1.Agrees r.2.store (r'.2.store.relabel σ) (r'.1.relabel σ))
      (run n ((idle s limits).load k.value .nil env.value))
      (run n ((idle s' limits).load k'.value .nil env'.value)) := by
  have hcode' : (s'.relabel σ).Holds k' := by
    have hrelabelled := hk'.relabel (σ := σ)
    rwa [Sexp.relabel_eq_of_plain hplain] at hrelabelled
  have hparallel : ((idle s limits).load k.value .nil env.value).Parallel ⟨s, s'.relabel σ⟩
      ((idle (s'.relabel σ) limits).load k'.value .nil (env'.relabel σ).value) :=
    @parallel_load_of_matches ⟨s, s'.relabel σ⟩ _ _ .nil .nil _ _ hk hcode' hcode hcodeSettled
      trivial trivial rfl trivial henv henv'.relabel hframes henvSettled limits
  have hrun := hparallel.run_rel ⟨hs, hs'.relabel⟩ n
  have hload : (idle (s'.relabel σ) limits).load k'.value .nil (env'.relabel σ).value =
      ((idle s' limits).load k'.value .nil env'.value).relabel σ := by
    rw [load_relabel, ← Sexp.value_relabel, ← Sexp.value_relabel, Sexp.relabel_eq_of_plain hplain]
    rfl
  rw [hload, run_relabel hσ] at hrun
  generalize run n ((idle s' limits).load k'.value .nil env'.value) = x' at hrun ⊢
  cases x' with
  | none =>
    generalize run n ((idle s limits).load k.value .nil env.value) = x at hrun ⊢
    cases hrun
    exact .none
  | some r' =>
    generalize run n ((idle s limits).load k.value .nil env.value) = x at hrun ⊢
    cases hrun with
    | some h => exact .some h

end Machine

end Secd
