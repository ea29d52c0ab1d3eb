import Mathlib.Order.Bounds.Basic
import Secd.Proofs.Machine.Mutation
import Secd.Proofs.Machine.Turn

/-!
# The dump is accounted for

A machine counts the calls that have not returned, and notes how large this number and the dump have
grown. It does so in many places: where entries are saved, where they are taken, and at the end of
every step. This file proves that the counts are right in every state after loading, also if steps
have faulted on the way and the machine has been made to go on. A step that faults leaves the dump
and the number of calls as they were, although it may have changed registers; a step that does not
fault moves at most one entry, and notes the sizes afterwards. So the numbers noted are the maxima
over all states.
-/

namespace Secd

namespace Machine

open Secd.Action

variable {m m' : Machine}

/-- The number of entries on the dump that belong to calls. -/
def openCalls (m : Machine) : Nat := m.dump.countP DumpEntry.isCall

/-- One more entry on the dump. -/
theorem openCalls_of_push {entry : DumpEntry} (h : m'.dump = m.dump.push entry) :
    m'.openCalls = m.openCalls + entry.calls := by
  rw [openCalls, h, Array.countP_push]
  rfl

/-- No more entries belong to calls than there are. -/
theorem openCalls_le_size (m : Machine) : m.openCalls ≤ m.dump.size := Array.countP_le_size

/-- The books of the machine are right. -/
structure Balanced (m : Machine) : Prop where
  pendingCalls_eq : m.pendingCalls = m.openCalls
  size_le : m.dump.size ≤ m.stats.maxDumpDepth
  openCalls_le : m.openCalls ≤ m.stats.maxPendingCalls
  maxDumpDepth_le : m.stats.maxDumpDepth ≤ m.limits.maxDump
  maxPendingCalls_le : m.stats.maxPendingCalls ≤ m.stats.maxDumpDepth

/-- The books of a machine that has been loaded are right. -/
theorem balanced_load (m : Machine) (code args env : Value) :
    (m.load code args env).Balanced where
  pendingCalls_eq := rfl
  size_le := Nat.le_refl 0
  openCalls_le := Nat.le_refl 0
  maxDumpDepth_le := Nat.zero_le _
  maxPendingCalls_le := Nat.le_refl 0

/-- The books are right as long as nothing on the dump changes. -/
theorem Balanced.of_sameDump (h : m.Balanced) (hsame : m.SameDump m')
    (hlimits : m'.limits = m.limits) : m'.Balanced := by
  obtain ⟨hdump, hcalls, hdepth, hpending⟩ := hsame
  have hopen : m'.openCalls = m.openCalls := by rw [openCalls, hdump, openCalls]
  refine ⟨?_, ?_, ?_, ?_, ?_⟩
  · rw [hcalls, hopen, h.pendingCalls_eq]
  · rw [hdump, hdepth]
    exact h.size_le
  · rw [hopen, hpending]
    exact h.openCalls_le
  · rw [hdepth, hlimits]
    exact h.maxDumpDepth_le
  · rw [hdepth, hpending]
    exact h.maxPendingCalls_le

/-- The books are right after the sizes have been noted, if the number of calls is right and the
dump is no larger than it may be. -/
theorem Balanced.of_measures (h : m.Balanced) (hmeasures : m.Measures m')
    (hlimits : m'.limits = m.limits) (hcalls : m'.pendingCalls = m'.openCalls)
    (hsize : m'.dump.size ≤ m.limits.maxDump) : m'.Balanced := by
  have hdepth : m'.stats.maxDumpDepth = max m.stats.maxDumpDepth m'.dump.size :=
    congrArg Stats.maxDumpDepth hmeasures
  have hpending : m'.stats.maxPendingCalls = max m.stats.maxPendingCalls m'.openCalls :=
    (congrArg Stats.maxPendingCalls hmeasures).trans (by rw [hcalls])
  refine ⟨hcalls, ?_, ?_, ?_, ?_⟩
  · rw [hdepth]
    exact Nat.le_max_right _ _
  · rw [hpending]
    exact Nat.le_max_right _ _
  · rw [hdepth, hlimits]
    exact Nat.max_le.2 ⟨h.maxDumpDepth_le, hsize⟩
  · rw [hdepth, hpending]
    exact max_le_max h.maxPendingCalls_le m'.openCalls_le_size

/-- The machine `m'` is one that a step may leave: it has the same limits, its books are right if
those of `m` are, and the numbers noted are those of `m` or the sizes in `m'`, if these are larger.
-/
structure Accounts (m m' : Machine) : Prop where
  limits_eq : m'.limits = m.limits
  balanced : m'.Balanced
  maxDumpDepth_eq : m'.stats.maxDumpDepth = max m.stats.maxDumpDepth m'.dump.size
  maxPendingCalls_eq : m'.stats.maxPendingCalls = max m.stats.maxPendingCalls m'.openCalls

/-- Nothing on the dump has changed. -/
theorem Balanced.accounts_of_sameDump (h : m.Balanced) (hsame : m.SameDump m')
    (hlimits : m'.limits = m.limits) : m.Accounts m' := by
  have hbalanced := h.of_sameDump hsame hlimits
  refine ⟨hlimits, hbalanced, ?_, ?_⟩
  · rw [← hsame.maxDumpDepth, Nat.max_eq_left hbalanced.size_le]
  · rw [← hsame.maxPendingCalls, Nat.max_eq_left hbalanced.openCalls_le]

/-- The sizes have been noted. -/
theorem Balanced.accounts_of_measures (h : m.Balanced) (hmeasures : m.Measures m')
    (hlimits : m'.limits = m.limits) (hcalls : m'.pendingCalls = m'.openCalls)
    (hsize : m'.dump.size ≤ m.limits.maxDump) : m.Accounts m' := by
  refine ⟨hlimits, h.of_measures hmeasures hlimits hcalls hsize,
    congrArg Stats.maxDumpDepth hmeasures, ?_⟩
  rw [← hcalls]
  exact congrArg Stats.maxPendingCalls hmeasures

/-- A moved entry has been counted right. -/
theorem Balanced.pendingCalls_of_moves (h : m.Balanced) (hmoves : m.Moves m') :
    m'.pendingCalls = m'.openCalls := by
  cases hmoves with
  | keeps hdump hcalls => rw [hcalls, h.pendingCalls_eq, openCalls, openCalls, hdump]
  | saves entry hdump hcalls =>
    have hopen : m'.openCalls = m.openCalls + entry.calls := openCalls_of_push hdump
    rw [hcalls, hopen, h.pendingCalls_eq]
  | takes entry hdump hcalls =>
    have hopen : m.openCalls = m'.openCalls + entry.calls := openCalls_of_push hdump
    rw [hcalls, h.pendingCalls_eq, hopen, Nat.add_sub_cancel]

/-- A step that does not fault accounts for the entry that it moves. -/
theorem Balanced.accounts_of_ok (h : m.Balanced) {flow : Flow} (hok : step.run m = .ok flow m') :
    m.Accounts m' := by
  obtain ⟨hlimits, hmeasures, hmoves, hsize⟩ := measures_of_ok hok
  have hroom : m'.dump.size ≤ m.limits.maxDump := by
    rcases hsize with hle | hle
    · exact Nat.le_trans hle (Nat.le_trans h.size_le h.maxDumpDepth_le)
    · exact hle
  exact h.accounts_of_measures hmeasures hlimits (h.pendingCalls_of_moves hmoves) hroom

/-- Every step accounts for what it does. -/
theorem Balanced.accounts_next (h : m.Balanced) : m.Accounts m.next := by
  rw [next]
  cases hstep : step.run m with
  | ok flow m' => exact h.accounts_of_ok hstep
  | error f m' =>
    obtain ⟨hlimits, hsame, -⟩ := sameDump_of_error hstep
    exact h.accounts_of_sameDump hsame hlimits

/-- The books stay right. -/
theorem Balanced.after (h : m.Balanced) (n : Nat) : (m.after n).Balanced := by
  induction n with
  | zero => exact h
  | succ n ih => exact ih.accounts_next.balanced

/-- What is noted after each step as the larger one of what was noted before and what there is now,
is the maximum over all states. -/
theorem isGreatest_of_noted (noted size : Machine → Nat) (hstart : noted m = size m)
    (hnext : ∀ n, noted (m.after (n + 1)) = max (noted (m.after n)) (size (m.after (n + 1))))
    (n : Nat) : IsGreatest {k | ∃ i ≤ n, size (m.after i) = k} (noted (m.after n)) := by
  induction n with
  | zero =>
    refine ⟨⟨0, Nat.le_refl 0, hstart.symm⟩, ?_⟩
    rintro k ⟨i, hi, rfl⟩
    obtain rfl := Nat.le_zero.1 hi
    exact Nat.le_of_eq hstart.symm
  | succ n ih =>
    obtain ⟨⟨i, hi, hsize⟩, hupper⟩ := ih
    rw [hnext]
    constructor
    · rcases Nat.le_total (noted (m.after n)) (size (m.after (n + 1))) with hle | hle
      · rw [Nat.max_eq_right hle]
        exact ⟨n + 1, Nat.le_refl _, rfl⟩
      · rw [Nat.max_eq_left hle]
        exact ⟨i, Nat.le_succ_of_le hi, hsize⟩
    · rintro k ⟨j, hj, rfl⟩
      rcases Nat.le_succ_iff.1 hj with hj | rfl
      · exact Nat.le_trans (hupper ⟨j, hj, rfl⟩) (Nat.le_max_left _ _)
      · exact Nat.le_max_right _ _

/-- `RTN` takes the entry of a call. -/
theorem exists_call_of_rtn (h : rtn m = .ok () m') :
    ∃ stack env control, m.dump = m'.dump.push (.call stack env control) := by
  obtain ⟨s, S, E, C, D, limits, stats, calls⟩ := m
  cases S with
  | nil => cases h
  | cons v rest =>
    rw [rtn, bind_apply, pop_apply] at h
    dsimp only at h
    rw [bind_apply, top] at h
    dsimp only at h
    cases hback : D.back? with
    | none =>
      rw [hback] at h
      cases h
    | some entry =>
      rw [hback] at h
      cases entry with
      | join control => cases h
      | call stack env control =>
        cases h
        obtain ⟨xs, rfl⟩ := Array.back?_eq_some_iff.1 hback
        exact ⟨stack, env, control, by simp⟩

/-- A return that does not fault lowers the number of calls by one: there is one to be taken off. -/
theorem Balanced.pendingCalls_of_rtn (h : m.Balanced) (hrtn : m.executed m.next = [.rtn])
    {flow : Flow} (hok : step.run m = .ok flow m') : m.pendingCalls = m'.pendingCalls + 1 := by
  have hbalanced : m'.Balanced := (h.accounts_of_ok hok).balanced
  rcases m.step_cases with ⟨op, c, hcontrol, hopcode, hstep⟩ | ⟨f, hstep⟩ | ⟨f, c, -, hstep⟩
  · have hop : op = .rtn := by
      rw [executed, hopcode] at hrtn
      split at hrtn
      · cases hrtn
      · exact List.singleton_inj.1 hrtn
    subst hop
    rw [execute, bind_apply] at hstep
    cases hresult : rtn (m.fetched (m.store.cell c).tail) with
    | error f m₁ =>
      rw [hresult] at hstep
      cases hstep.symm.trans hok
    | ok a m₁ =>
      rw [hresult] at hstep
      cases hstep.symm.trans hok
      obtain ⟨stack, env, control, hdump⟩ := exists_call_of_rtn hresult
      have hopen : m.openCalls = m₁.measured.openCalls + 1 := openCalls_of_push hdump
      rw [h.pendingCalls_eq, hbalanced.pendingCalls_eq, hopen]
  · cases hstep.symm.trans hok
  · cases hstep.symm.trans hok

/-- In every state after loading, however many steps have been taken and whether they have faulted
or not: a step that faults leaves the dump and the number of calls as they are; this number is that
of the entries that belong to calls, and a return takes one off it; the dump is no larger than it
may be; and the numbers that have been noted are the greatest size of the dump and the greatest
number of calls in any state so far, so they are no larger than the dump may be, either. A host
callable is a primitive, and its call is over within its step. -/
theorem accounts_of_load (m₀ : Machine) (code args env : Value) (n : Nat) :
    let start := m₀.load code args env
    let m := start.after n
    (∀ f m', step.run m = .error f m' → m'.dump = m.dump ∧ m'.pendingCalls = m.pendingCalls) ∧
      m.pendingCalls = m.openCalls ∧
      (∀ flow m', m.executed m.next = [.rtn] → step.run m = .ok flow m' →
        m.pendingCalls = m'.pendingCalls + 1) ∧
      m.dump.size ≤ m₀.limits.maxDump ∧
      IsGreatest {size | ∃ i ≤ n, (start.after i).dump.size = size} m.stats.maxDumpDepth ∧
      IsGreatest {calls | ∃ i ≤ n, (start.after i).openCalls = calls} m.stats.maxPendingCalls ∧
      m.stats.maxPendingCalls ≤ m.stats.maxDumpDepth ∧
      m.stats.maxDumpDepth ≤ m₀.limits.maxDump := by
  intro start m
  have hstart : start.Balanced := m₀.balanced_load code args env
  have hbalanced : m.Balanced := hstart.after n
  have hlimits (i : Nat) : (start.after i).limits = m₀.limits := start.limits_after i
  have hdepth : m.stats.maxDumpDepth ≤ m₀.limits.maxDump := hlimits n ▸ hbalanced.maxDumpDepth_le
  refine ⟨?_, hbalanced.pendingCalls_eq, ?_, ?_, ?_, ?_, hbalanced.maxPendingCalls_le, hdepth⟩
  · intro f m' hstep
    obtain ⟨-, hsame, -⟩ := sameDump_of_error hstep
    exact ⟨hsame.dump, hsame.pendingCalls⟩
  · intro flow m' hrtn hok
    exact hbalanced.pendingCalls_of_rtn hrtn hok
  · exact Nat.le_trans hbalanced.size_le hdepth
  · refine isGreatest_of_noted (fun m => m.stats.maxDumpDepth) (fun m => m.dump.size) rfl
      (fun i => ?_) n
    exact (hstart.after i).accounts_next.maxDumpDepth_eq
  · refine isGreatest_of_noted (fun m => m.stats.maxPendingCalls) openCalls rfl (fun i => ?_) n
    exact (hstart.after i).accounts_next.maxPendingCalls_eq

end Machine

end Secd
