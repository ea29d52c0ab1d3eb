import Secd.Proofs.Machine.Accounting
import Secd.Proofs.Machine.Lockstep
import Mathlib.Order.Bounds.Basic

/-!
# The limit on the dump is exact

The limit on the dump matters only when an entry is saved. A run with a lower limit does the same as
one with a higher limit until the first state in which the latter has one entry more than the former
may have; and there the former faults. So what is noted as the greatest size of the dump is the
lowest limit that a run can do with.
-/

namespace Secd

namespace Machine

open Secd.Action

variable {m m' : Machine} {d n : Nat}

/-- The machine with another limit on the dump. -/
def withMaxDump (m : Machine) (d : Nat) : Machine :=
  m.withLimits { m.limits with maxDump := d }

/-- The same progress of a machine with another limit on the dump. -/
def Progress.withMaxDump (p : Progress) (d : Nat) : Progress :=
  { p with machine := p.machine.withMaxDump d }

/-! ### The progress of a run -/

/-- After a step that does not end the run, there is the rest of the run. -/
theorem progress_of_proceed (hstep : step.run m = .ok .proceed m') (n : Nat) :
    progress (n + 1) m =
      ⟨m.executed m' ++ (progress n m').executed, (progress n m').outcome?,
        (progress n m').machine⟩ := by
  rw [progress, hstep]

/-- A step goes on to the next state, or it ends the run there. -/
theorem proceeds_or_ends (m : Machine) :
    step.run m = .ok .proceed m.next ∨
      ∃ outcome, ∀ n, progress (n + 1) m = ⟨m.executed m.next, some outcome, m.next⟩ := by
  rw [next]
  cases hstep : step.run m with
  | ok flow m₁ =>
    cases flow with
    | proceed => exact .inl rfl
    | stop v => exact .inr ⟨.halted v, fun n => by rw [progress, hstep]⟩
  | error f m₁ => exact .inr ⟨.faulted f, fun n => by rw [progress, hstep]⟩

/-- After one step a run is in the next state. -/
theorem machine_progress_one (m : Machine) : (progress 1 m).machine = m.next := by
  rcases m.proceeds_or_ends with hstep | ⟨outcome, hends⟩
  · rw [progress_of_proceed hstep]
    rfl
  · rw [hends]

/-- A run that has ended is over. -/
theorem progress_add_of_ended {outcome : Outcome} (h : (progress n m).outcome? = some outcome)
    (extra : Nat) : progress (n + extra) m = progress n m := by
  induction n generalizing m with
  | zero => cases h
  | succ n ih =>
    rw [Nat.succ_add]
    rcases m.proceeds_or_ends with hstep | ⟨outcome, hends⟩
    · rw [progress_of_proceed hstep] at h
      rw [progress_of_proceed hstep, progress_of_proceed hstep, ih h]
    · rw [hends, hends]

/-! ### A lower limit -/

/-- A step with a lower limit, as long as this has not been passed: it does the same and does not
pass the limit, or it faults because there is no room for the entry that is saved with the higher
limit. -/
theorem step_withMaxDump (hd : d ≤ m.limits.maxDump) (hsize : m.dump.size ≤ d) :
    step.run (m.withMaxDump d) = leaving (withMaxDump · d) (step.run m) ∧ m.next.dump.size ≤ d ∨
      (∃ full, step.run (m.withMaxDump d) = .error .dumpOverflow full) ∧
        m.next.dump.size = d + 1 := by
  rw [next]
  by_cases hexhausted : m.Exhausted
  · obtain ⟨limit, hlimit, hstep⟩ := hexhausted.step_eq
    have hlower : (m.withMaxDump d).Exhausted := hexhausted
    obtain ⟨limit', hlimit', hstep'⟩ := hlower.step_eq
    obtain rfl : limit = limit' := Option.some.inj (hlimit.symm.trans hlimit')
    rw [hstep, hstep']
    exact .inl ⟨rfl, hsize⟩
  · have hlower : ¬ (m.withMaxDump d).Exhausted := hexhausted
    have hself : step.run m = step.run (m.withLimits m.limits) := rfl
    rw [hself]
    cases m.turn with
    | faults f m₁ hf hsame hstep =>
      rw [hstep m.limits hexhausted, withMaxDump, hstep _ hlower]
      refine .inl ⟨rfl, ?_⟩
      exact (congrArg Array.size hsame.dump).trans_le hsize
    | succeeds flow m₁ hle hmoves hmeasures hstep =>
      rw [hstep m.limits hexhausted, withMaxDump, hstep _ hlower]
      exact .inl ⟨rfl, Nat.le_trans hle hsize⟩
    | saves flow full room hsame hgrown hmoves hmeasures hstep =>
      rw [hstep m.limits hexhausted, withMaxDump, hstep _ hlower]
      dsimp only
      by_cases hfull : d ≤ m.dump.size
      -- no room with the lower limit: the higher one is the same, or there is room with it
      · rw [if_pos hfull]
        by_cases hhigh : m.limits.maxDump ≤ m.dump.size
        · rw [if_pos hhigh]
          refine .inl ⟨rfl, ?_⟩
          exact (congrArg Array.size hsame.dump).trans_le hsize
        · rw [if_neg hhigh]
          have hequal : m.dump.size = d := Nat.le_antisymm hsize hfull
          exact .inr ⟨⟨_, rfl⟩, hgrown.trans (by rw [hequal])⟩
      · have hhigh : ¬ m.limits.maxDump ≤ m.dump.size := fun h => hfull (Nat.le_trans hd h)
        rw [if_neg hfull, if_neg hhigh]
        refine .inl ⟨rfl, ?_⟩
        exact hgrown.trans_le (Nat.not_le.1 hfull)

/-- As long as the lower limit is not passed, the run with it does the same. -/
theorem progress_withMaxDump (hd : d ≤ m.limits.maxDump)
    (hsize : ∀ k ≤ n, (progress k m).machine.dump.size ≤ d) :
    progress n (m.withMaxDump d) = (progress n m).withMaxDump d := by
  induction n generalizing m with
  | zero => rfl
  | succ n ih =>
    have hnext : m.next.dump.size ≤ d := by
      rw [← machine_progress_one]
      exact hsize 1 (Nat.succ_pos n)
    rcases step_withMaxDump hd (hsize 0 (Nat.zero_le _)) with ⟨hsame, -⟩ | ⟨-, hover⟩
    · cases hresult : step.run m with
      | ok flow m₁ =>
        rw [hresult] at hsame
        cases flow with
        | proceed =>
          obtain ⟨hlimits, -⟩ := measures_of_ok hresult
          have hrest : progress n (m₁.withMaxDump d) = (progress n m₁).withMaxDump d := by
            refine ih (by rw [hlimits]; exact hd) fun k hk => ?_
            have hlater := hsize (k + 1) (Nat.succ_le_succ hk)
            rwa [progress_of_proceed hresult] at hlater
          rw [progress_of_proceed hresult, progress_of_proceed hsame, hrest]
          rfl
        | stop v =>
          rw [progress, progress, hsame, hresult]
          rfl
      | error f m₁ =>
        rw [hresult] at hsame
        rw [progress, progress, hsame, hresult]
        rfl
    · exact absurd (hover.symm.trans_le hnext) (Nat.not_succ_le_self d)

/-- In its first `k` steps the run neither ends nor passes the limit `d`. The next step passes it by
one entry, and makes the run with this limit fault. -/
structure PassesAfter (m : Machine) (d k : Nat) : Prop where
  within : ∀ i ≤ k, (progress i m).machine.dump.size ≤ d
  unended : ∀ i ≤ k, (progress i m).outcome? = none
  passes : (progress (k + 1) m).machine.dump.size = d + 1
  overflows : (progress (k + 1) (m.withMaxDump d)).outcome? = some (.faulted .dumpOverflow)

/-- The step that passes the limit may come after another one. -/
theorem PassesAfter.of_proceed {k : Nat} (hstep : step.run m = .ok .proceed m')
    (hlower : step.run (m.withMaxDump d) = .ok .proceed (m'.withMaxDump d))
    (hsize : m.dump.size ≤ d) (h : m'.PassesAfter d k) : m.PassesAfter d (k + 1) where
  within := by
    intro i hi
    cases i with
    | zero => exact hsize
    | succ i =>
      rw [progress_of_proceed hstep]
      exact h.within i (Nat.le_of_succ_le_succ hi)
  unended := by
    intro i hi
    cases i with
    | zero => rfl
    | succ i =>
      rw [progress_of_proceed hstep]
      exact h.unended i (Nat.le_of_succ_le_succ hi)
  passes := by
    rw [progress_of_proceed hstep]
    exact h.passes
  overflows := by
    rw [progress_of_proceed hlower]
    exact h.overflows

/-- When a run passes a lower limit, there is a step at which the run with this limit faults. -/
theorem exists_passesAfter (hd : d ≤ m.limits.maxDump) (hsize : m.dump.size ≤ d)
    (hpassed : d < (progress n m).machine.dump.size) : ∃ k < n, m.PassesAfter d k := by
  induction n generalizing m with
  | zero => exact absurd hpassed (Nat.not_lt.2 hsize)
  | succ n ih =>
    rcases step_withMaxDump hd hsize with ⟨hsame, hnext⟩ | ⟨⟨full, hfull⟩, hover⟩
    · rcases m.proceeds_or_ends with hstep | ⟨outcome, hends⟩
      · rw [hstep] at hsame
        rw [progress_of_proceed hstep] at hpassed
        obtain ⟨hlimits, -⟩ := measures_of_ok hstep
        obtain ⟨k, hk, hrest⟩ := ih (by rw [hlimits]; exact hd) hnext hpassed
        exact ⟨k + 1, Nat.succ_lt_succ hk, hrest.of_proceed hstep hsame hsize⟩
      · rw [hends] at hpassed
        exact absurd hpassed (Nat.not_lt.2 hnext)
    · refine ⟨0, Nat.succ_pos n, ?_, ?_, ?_, ?_⟩
      · intro i hi
        obtain rfl := Nat.le_zero.1 hi
        exact hsize
      · intro i hi
        obtain rfl := Nat.le_zero.1 hi
        rfl
      · rw [machine_progress_one]
        exact hover
      · rw [progress, hfull]

/-! ### The lowest limit -/

/-- The books are right along a run, and its limits do not change. -/
theorem balanced_progress (h : m.Balanced) (n : Nat) :
    (progress n m).machine.Balanced ∧ (progress n m).machine.limits = m.limits := by
  induction n generalizing m with
  | zero => exact ⟨h, rfl⟩
  | succ n ih =>
    have haccounts := h.accounts_next
    rcases m.proceeds_or_ends with hstep | ⟨outcome, hends⟩
    · obtain ⟨hbalanced, hlimits⟩ := ih haccounts.balanced
      rw [progress_of_proceed hstep]
      exact ⟨hbalanced, hlimits.trans haccounts.limits_eq⟩
    · rw [hends]
      exact ⟨haccounts.balanced, haccounts.limits_eq⟩

/-- What has been noted is bounded by the numbers that bound what was noted before and the size of
the dump in every state since then. -/
theorem maxDumpDepth_progress_le_iff (h : m.Balanced) :
    (progress n m).machine.stats.maxDumpDepth ≤ d ↔
      m.stats.maxDumpDepth ≤ d ∧ ∀ k ≤ n, (progress k m).machine.dump.size ≤ d := by
  induction n generalizing m with
  | zero =>
    refine ⟨fun hnoted => ⟨hnoted, fun k hk => ?_⟩, And.left⟩
    obtain rfl := Nat.le_zero.1 hk
    exact Nat.le_trans h.size_le hnoted
  | succ n ih =>
    have haccounts := h.accounts_next
    have hnoted : m.next.stats.maxDumpDepth ≤ d ↔
        m.stats.maxDumpDepth ≤ d ∧ m.next.dump.size ≤ d := by
      rw [haccounts.maxDumpDepth_eq]
      exact Nat.max_le
    have hsplit : (∀ k ≤ n + 1, (progress k m).machine.dump.size ≤ d) ↔
        m.dump.size ≤ d ∧ ∀ k ≤ n, (progress (k + 1) m).machine.dump.size ≤ d := by
      simp only [← Nat.lt_succ_iff, Nat.succ_eq_add_one]
      exact Nat.forall_lt_succ_left
    have hstart : m.stats.maxDumpDepth ≤ d → m.dump.size ≤ d := Nat.le_trans h.size_le
    rw [hsplit]
    rcases m.proceeds_or_ends with hstep | ⟨outcome, hends⟩
    · have hnext : (∀ k ≤ n, (progress k m.next).machine.dump.size ≤ d) → m.next.dump.size ≤ d :=
        fun hle => hle 0 (Nat.zero_le n)
      simp only [progress_of_proceed hstep]
      rw [ih haccounts.balanced, hnoted]
      tauto
    · have hnext : (∀ k ≤ n, m.next.dump.size ≤ d) ↔ m.next.dump.size ≤ d :=
        ⟨fun hle => hle 0 (Nat.zero_le n), fun hle _ _ => hle⟩
      simp only [hends]
      rw [hnoted, hnext]
      tauto

/-- What has been noted is the lowest limit with which the run is the same so far. -/
theorem isLeast_maxDumpDepth_progress (h : m.Balanced) (hempty : m.stats.maxDumpDepth = 0)
    (n : Nat) :
    IsLeast {d | ∀ k ≤ n, progress k (m.withMaxDump d) = (progress k m).withMaxDump d}
      (progress n m).machine.stats.maxDumpDepth := by
  have hlimits := (balanced_progress h n).2
  constructor
  · intro k hk
    obtain ⟨-, hsize⟩ := (maxDumpDepth_progress_le_iff h).1 (Nat.le_refl _)
    refine progress_withMaxDump ?_ fun i hi => hsize i (Nat.le_trans hi hk)
    rw [← hlimits]
    exact (balanced_progress h n).1.maxDumpDepth_le
  · intro d hsame
    have hlower : (m.withMaxDump d).Balanced := {
      pendingCalls_eq := h.pendingCalls_eq
      size_le := h.size_le
      openCalls_le := h.openCalls_le
      maxDumpDepth_le := hempty.trans_le (Nat.zero_le d)
      maxPendingCalls_le := h.maxPendingCalls_le }
    refine (maxDumpDepth_progress_le_iff h).2 ⟨hempty.trans_le (Nat.zero_le d), ?_⟩
    intro k hk
    obtain ⟨hbalanced, hlimit⟩ := balanced_progress hlower k
    have hsize := Nat.le_trans hbalanced.size_le hbalanced.maxDumpDepth_le
    rw [hlimit, hsame k hk] at hsize
    exact hsize

/-- What a run has noted when it has ended is the lowest limit with which all of it is the same. -/
theorem isLeast_maxDumpDepth_of_run (h : m.Balanced) (hempty : m.stats.maxDumpDepth = 0)
    {outcome : Outcome} (hrun : run n m = some (outcome, m')) :
    IsLeast {d | ∀ k, progress k (m.withMaxDump d) = (progress k m).withMaxDump d}
      m'.stats.maxDumpDepth := by
  rw [run_eq_progress, Option.map_eq_some_iff] at hrun
  obtain ⟨outcome, hended, hresult⟩ := hrun
  obtain ⟨rfl, rfl⟩ := Prod.mk.inj hresult
  constructor
  · intro k
    have hleast := isLeast_maxDumpDepth_progress h hempty (n + k)
    rw [progress_add_of_ended hended] at hleast
    exact hleast.1 k (Nat.le_add_left k n)
  · intro d hsame
    exact (isLeast_maxDumpDepth_progress h hempty n).2 fun k _ => hsame k

/-- A run is compared with one that has a lower limit `m₁` on the dump. If no state of the run has
more than `m₁` entries on the dump, both runs go through the same states, execute the same
instructions and end alike. Otherwise there is a first state with more entries, which has `m₁ + 1`;
up to the state before it both runs are the same and go on, and then the run with the lower limit
faults because of it. So the greatest size of the dump that a run has noted after some steps is the
lowest limit with which these steps are the same; and when the run has ended, it is the lowest limit
with which all of it is the same. Host callables are primitives and have no state of their own, so a
call gives the same in both runs. -/
theorem dumpLimit_exact (s : Store) (code args env : Value) (maxSteps : Option Nat) (m₁ m₂ : Nat)
    (hle : m₁ ≤ m₂) :
    let start (maxDump : Nat) := (idle s ⟨maxSteps, maxDump⟩).load code args env
    ((∀ n, (progress n (start m₂)).machine.dump.size ≤ m₁) →
        ∀ n, progress n (start m₁) = (progress n (start m₂)).withMaxDump m₁) ∧
      (∀ n, m₁ < (progress n (start m₂)).machine.dump.size →
        ∃ k < n,
          (∀ i ≤ k, (progress i (start m₂)).machine.dump.size ≤ m₁ ∧
            progress i (start m₁) = (progress i (start m₂)).withMaxDump m₁ ∧
            (progress i (start m₁)).outcome? = none) ∧
          (progress (k + 1) (start m₂)).machine.dump.size = m₁ + 1 ∧
          (progress (k + 1) (start m₁)).outcome? = some (.faulted .dumpOverflow)) ∧
      (∀ n, IsLeast
        {d | ∀ k ≤ n, progress k (start d) = (progress k (start m₂)).withMaxDump d}
        (progress n (start m₂)).machine.stats.maxDumpDepth) ∧
      ∀ n outcome m', run n (start m₂) = some (outcome, m') →
        IsLeast {d | ∀ k, progress k (start d) = (progress k (start m₂)).withMaxDump d}
          m'.stats.maxDumpDepth := by
  intro start
  have hlower : m₁ ≤ (start m₂).limits.maxDump := hle
  have hbalanced : (start m₂).Balanced := balanced_load _ code args env
  refine ⟨?_, ?_, ?_, ?_⟩
  · intro hsize n
    exact progress_withMaxDump hlower fun k _ => hsize k
  · intro n hpassed
    have hempty : (start m₂).dump.size ≤ m₁ := Nat.zero_le m₁
    obtain ⟨k, hk, hpasses⟩ := exists_passesAfter hlower hempty hpassed
    refine ⟨k, hk, ?_, hpasses.passes, hpasses.overflows⟩
    intro i hi
    have hsame : progress i (start m₁) = (progress i (start m₂)).withMaxDump m₁ :=
      progress_withMaxDump hlower fun j hj => hpasses.within j (Nat.le_trans hj hi)
    refine ⟨hpasses.within i hi, hsame, ?_⟩
    rw [hsame]
    exact hpasses.unended i hi
  · intro n
    exact isLeast_maxDumpDepth_progress hbalanced rfl n
  · intro n outcome m' hrun
    exact isLeast_maxDumpDepth_of_run hbalanced rfl hrun

/-- The code `(SEL (JOIN) (JOIN) LDC 5 STOP)` in cell 6. -/
def branchingCode : Store where
  cells := #[⟨Opcode.stop.value, .nil⟩, ⟨.int 5, .pair 0⟩, ⟨Opcode.ldc.value, .pair 1⟩,
    ⟨Opcode.join.value, .nil⟩, ⟨.pair 3, .pair 2⟩, ⟨.pair 3, .pair 4⟩,
    ⟨Opcode.sel.value, .pair 5⟩]

/-- Branching takes one entry on the dump: the run halts if it may have that one, and its first step
faults if it may not. -/
theorem dumpLimit_exact_branchingCode :
    let start (maxDump : Nat) := (idle branchingCode ⟨none, maxDump⟩).load (.pair 6) .nil .nil
    (run 4 (start 1)).map Prod.fst = some (.halted (.int 5)) ∧
      (progress 1 (start 0)).outcome? = some (.faulted .dumpOverflow) ∧
      IsLeast {d | ∀ k, progress k (start d) = (progress k (start 1)).withMaxDump d} 1 := by
  intro start
  obtain ⟨-, hpasses, -, hleast⟩ :=
    dumpLimit_exact branchingCode (.pair 6) .nil .nil none 0 1 (Nat.zero_le 1)
  obtain ⟨m, hhalts, hnoted⟩ :
      ∃ m, run 4 (start 1) = some (.halted (.int 5), m) ∧ m.stats.maxDumpDepth = 1 :=
    ⟨_, rfl, rfl⟩
  refine ⟨by rw [hhalts]; rfl, ?_, ?_⟩
  · have hsize : 0 < (progress 1 (start 1)).machine.dump.size := by decide
    obtain ⟨k, hk, -, -, hfaults⟩ := hpasses 1 hsize
    obtain rfl := Nat.lt_one_iff.1 hk
    exact hfaults
  · have hlowest := hleast 4 _ m hhalts
    rw [hnoted] at hlowest
    exact hlowest

end Machine

end Secd
