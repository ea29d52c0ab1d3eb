import Secd.Proofs.Machine.Books

/-!
# What a step does to the books

A step that is allowed finds an instruction, counts it, executes it, and notes the sizes of the dump
and of the number of calls if there was no fault. What it does depends on the limits in two places
only: where it begins, and where an entry is saved. So there are three kinds of steps, whatever the
limits are: those that fault, those that succeed without more room on the dump, and those that save
an entry.
-/

namespace Secd

namespace Machine

open Secd.Action

variable {m : Machine}

/-- The run may not take another step. -/
def Exhausted (m : Machine) : Prop :=
  ∃ limit, m.limits.maxSteps = some limit ∧ limit ≤ m.stats.steps

/-- A step that may not be taken does nothing. -/
theorem Exhausted.step_eq (h : m.Exhausted) :
    ∃ limit, m.limits.maxSteps = some limit ∧ step.run m = .error (.stepLimit limit) m := by
  obtain ⟨limit, hsome, hle⟩ := h
  refine ⟨limit, hsome, ?_⟩
  simp [step, checkLimit, EStateM.run, hsome, hle]

/-- The machine with one more step counted. -/
def counted (m : Machine) : Machine :=
  { m with stats := { m.stats with steps := m.stats.steps + 1 } }

/-- A step that may be taken finds an instruction, counts it, executes it, and notes the sizes. -/
theorem step_eq_of_not_exhausted (h : ¬ m.Exhausted) :
    step.run m =
      match decode m with
      | .error f m₁ => .error f m₁
      | .ok op m₁ =>
        match execute op m₁.counted with
        | .error f m₂ => .error f m₂
        | .ok flow m₂ => .ok flow m₂.measured := by
  have hcheck : checkLimit m = .ok () m := by
    rw [checkLimit]
    split
    · next limit hsome => rw [if_neg fun hle => h ⟨limit, hsome, hle⟩]
    · rfl
  have hstep : step.run m = step m := rfl
  rw [hstep, step, bind_apply, hcheck]
  dsimp only
  rw [bind_apply]
  cases decode m with
  | error f m₁ => rfl
  | ok op m₁ =>
    dsimp only
    rw [bind_apply, countStep]
    dsimp only
    rw [bind_apply, counted]
    cases execute op _ <;> rfl

/-- The dump and what has been noted of it are the same. -/
structure SameDump (m m' : Machine) : Prop where
  dump : m'.dump = m.dump
  pendingCalls : m'.pendingCalls = m.pendingCalls
  maxDumpDepth : m'.stats.maxDumpDepth = m.stats.maxDumpDepth
  maxPendingCalls : m'.stats.maxPendingCalls = m.stats.maxPendingCalls

/-- Equal books have the same dump. -/
theorem sameDump_of_books {m' : Machine} (h : m'.books = m.books) : m.SameDump m' where
  dump := congrArg Books.dump h
  pendingCalls := congrArg Books.pendingCalls h
  maxDumpDepth := congrArg (fun b => b.stats.maxDumpDepth) h
  maxPendingCalls := congrArg (fun b => b.stats.maxPendingCalls) h

/-- Counting a step does not matter for the dump. -/
theorem sameDump_counted (m : Machine) : m.SameDump m.counted := ⟨rfl, rfl, rfl, rfl⟩

/-- Nor do the limits. -/
theorem SameDump.withLimits {m' : Machine} (h : m.SameDump m') (limits : Limits) :
    m.SameDump (m'.withLimits limits) :=
  ⟨h.dump, h.pendingCalls, h.maxDumpDepth, h.maxPendingCalls⟩

/-- What is the same as in between is the same. -/
theorem SameDump.trans {m' m'' : Machine} (h : m.SameDump m') (k : m'.SameDump m'') :
    m.SameDump m'' where
  dump := k.dump.trans h.dump
  pendingCalls := k.pendingCalls.trans h.pendingCalls
  maxDumpDepth := k.maxDumpDepth.trans h.maxDumpDepth
  maxPendingCalls := k.maxPendingCalls.trans h.maxPendingCalls

/-- Between `m` and `m'` one step has been counted, and the sizes have been noted. -/
def Measures (m m' : Machine) : Prop :=
  m'.stats = ⟨m.stats.steps + 1, max m.stats.maxDumpDepth m'.dump.size,
    max m.stats.maxPendingCalls m'.pendingCalls⟩

/-- From `m` to `m'` at most one entry has been put on the dump or taken from it, and it has been
counted if it belongs to a call. -/
inductive Moves (m m' : Machine) : Prop where
  | keeps (hdump : m'.dump = m.dump) (hcalls : m'.pendingCalls = m.pendingCalls)
  | saves (entry : DumpEntry) (hdump : m'.dump = m.dump.push entry)
      (hcalls : m'.pendingCalls = m.pendingCalls + entry.calls)
  | takes (entry : DumpEntry) (hdump : m.dump = m'.dump.push entry)
      (hcalls : m'.pendingCalls = m.pendingCalls - entry.calls)

/-- The limits do not matter for what has been moved. -/
theorem Moves.withLimits {m' : Machine} (h : m.Moves m') (limits : Limits) :
    m.Moves (m'.withLimits limits) := by
  cases h with
  | keeps hdump hcalls => exact .keeps hdump hcalls
  | saves entry hdump hcalls => exact .saves entry hdump hcalls
  | takes entry hdump hcalls => exact .takes entry hdump hcalls

/-- What the next step does, under whatever limits that allow it: it faults, it succeeds and leaves
no more on the dump than there was, or it saves an entry if there is room for that. -/
inductive Turn (m : Machine) : Prop where
  | faults (f : Fault) (m' : Machine) (hf : ¬ f.IsLimit) (hsame : m.SameDump m')
      (hstep : ∀ limits, ¬ (m.withLimits limits).Exhausted →
        step.run (m.withLimits limits) = .error f (m'.withLimits limits))
  | succeeds (flow : Flow) (m' : Machine) (hle : m'.dump.size ≤ m.dump.size) (hmoves : m.Moves m')
      (hmeasures : m.Measures m')
      (hstep : ∀ limits, ¬ (m.withLimits limits).Exhausted →
        step.run (m.withLimits limits) = .ok flow (m'.withLimits limits))
  | saves (flow : Flow) (full room : Machine) (hsame : m.SameDump full)
      (hsize : room.dump.size = m.dump.size + 1) (hmoves : m.Moves room)
      (hmeasures : m.Measures room)
      (hstep : ∀ limits, ¬ (m.withLimits limits).Exhausted →
        step.run (m.withLimits limits) =
          if limits.maxDump ≤ m.dump.size then .error .dumpOverflow (full.withLimits limits)
          else .ok flow (room.withLimits limits))

/-- The sizes are noted after an instruction that has left these books. -/
theorem measures_measured {m₁ m₂ : Machine} (hcounted : m₁.stats = m.counted.stats)
    (hstats : m₂.stats = m₁.stats) : m.Measures m₂.measured := by
  rw [Measures, measured, hstats, hcounted]
  rfl

/-- Every step does one of these. -/
theorem turn (m : Machine) : m.Turn := by
  have hfound := books_left_of_commutes (detached_decode.commutes m)
  have hdecode := withLimits_of_commutes (detached_decode.commutes m)
  cases hresult : decode m with
  | error f m₁ =>
    rw [hresult] at hfound hdecode
    refine .faults f m₁ (detached_decode.unlimited hresult) (sameDump_of_books hfound)
      fun limits hallowed => ?_
    rw [step_eq_of_not_exhausted hallowed, hdecode]
    rfl
  | ok op m₁ =>
    rw [hresult] at hfound hdecode
    have hfetched : m.SameDump m₁.counted :=
      (sameDump_of_books hfound).trans m₁.sameDump_counted
    have hstats : m₁.counted.stats = m.counted.stats :=
      congrArg (fun b => { b.stats with steps := b.stats.steps + 1 }) hfound
    have hunder (limits : Limits) (hallowed : ¬ (m.withLimits limits).Exhausted) :
        step.run (m.withLimits limits) =
          match execute op (m₁.counted.withLimits limits) with
          | .error f m₂ => .error f m₂
          | .ok flow m₂ => .ok flow m₂.measured := by
      rw [step_eq_of_not_exhausted hallowed, hdecode]
      rfl
    have hsame {m₂ : Machine} (hbooks : m₂.books = m₁.counted.books) : m.SameDump m₂ :=
      hfetched.trans (sameDump_of_books hbooks)
    cases deals_execute op m₁.counted with
    | keeps hbooks hfault hx =>
      cases hexecute : execute op m₁.counted with
      | error f m₂ =>
        rw [hexecute] at hbooks hx
        refine .faults f m₂ (hfault f m₂ hexecute) (hsame hbooks) fun limits hallowed => ?_
        rw [hunder limits hallowed, hx]
        rfl
      | ok flow m₂ =>
        rw [hexecute] at hbooks hx
        have hkept : m.SameDump m₂ := hsame hbooks
        refine .succeeds flow m₂.measured ?_ (.keeps hkept.dump hkept.pendingCalls)
          (measures_measured hstats (congrArg Books.stats hbooks)) fun limits hallowed => ?_
        · exact Nat.le_of_eq (congrArg Array.size hkept.dump)
        · rw [hunder limits hallowed, hx]
          rfl
    | takes entry rest flow m₂ htop hbooks hx =>
      have hrest : m₂.dump = rest := congrArg Books.dump hbooks
      have hdump : m.dump = m₂.dump.push entry := by rw [hrest, ← htop, hfetched.dump]
      have hcalls : m₂.pendingCalls = m.pendingCalls - entry.calls :=
        (congrArg Books.pendingCalls hbooks).trans
          (congrArg (· - entry.calls) hfetched.pendingCalls)
      refine .succeeds flow m₂.measured ?_ (.takes entry hdump hcalls)
        (measures_measured hstats (congrArg Books.stats hbooks)) fun limits hallowed => ?_
      · rw [hdump, Array.size_push]
        exact Nat.le_succ _
      · rw [hunder limits hallowed, hx]
        rfl
    | saves entry flow full room hfull hroom hx =>
      have hdump : room.dump = m.dump.push entry :=
        (congrArg Books.dump hroom).trans (congrArg (Array.push · entry) hfetched.dump)
      have hcalls : room.pendingCalls = m.pendingCalls + entry.calls :=
        (congrArg Books.pendingCalls hroom).trans
          (congrArg (· + entry.calls) hfetched.pendingCalls)
      refine .saves flow full room.measured (hsame hfull) ?_ (.saves entry hdump hcalls)
        (measures_measured hstats (congrArg Books.stats hroom)) fun limits hallowed => ?_
      · exact (congrArg Array.size hdump).trans (Array.size_push entry)
      · rw [hunder limits hallowed, hx, hfetched.dump]
        by_cases hlow : limits.maxDump ≤ m.dump.size
        · rw [if_pos hlow, if_pos hlow]
        · rw [if_neg hlow, if_neg hlow]
          rfl

/-- A step does the same under other limits if both allow it, and both or neither leave room on the
dump. -/
theorem step_withLimits {limits : Limits} (hallowed : ¬ m.Exhausted)
    (hallowed' : ¬ (m.withLimits limits).Exhausted)
    (hroom : limits.maxDump ≤ m.dump.size ↔ m.limits.maxDump ≤ m.dump.size) :
    step.run (m.withLimits limits) = leaving (withLimits · limits) (step.run m) := by
  have hself : step.run m = step.run (m.withLimits m.limits) := rfl
  rw [hself]
  cases m.turn with
  | faults f m₁ hf hsame hstep =>
    rw [hstep _ hallowed', hstep m.limits hallowed]
    rfl
  | succeeds flow m₁ hle hmoves hmeasures hstep =>
    rw [hstep _ hallowed', hstep m.limits hallowed]
    rfl
  | saves flow full room hsame hsize hmoves hmeasures hstep =>
    rw [hstep _ hallowed', hstep m.limits hallowed]
    by_cases hfull : m.limits.maxDump ≤ m.dump.size
    · rw [if_pos (hroom.2 hfull), if_pos hfull]
      rfl
    · rw [if_neg fun h => hfull (hroom.1 h), if_neg hfull]
      rfl

/-- A step that succeeds is counted, moves at most one entry, and leaves the limits. The dump is no
larger than it was, unless it has grown and is no larger than it may be. -/
theorem measures_of_ok {m' : Machine} {flow : Flow} (hok : step.run m = .ok flow m') :
    m'.limits = m.limits ∧ m.Measures m' ∧ m.Moves m' ∧
      (m'.dump.size ≤ m.dump.size ∨ m'.dump.size ≤ m.limits.maxDump) := by
  have hallowed : ¬ m.Exhausted := by
    intro hexhausted
    obtain ⟨limit, -, hstep⟩ := hexhausted.step_eq
    cases hstep.symm.trans hok
  cases m.turn with
  | faults f m₁ hf hsame hstep => cases (hstep m.limits hallowed).symm.trans hok
  | succeeds flow' m₁ hle hmoves hmeasures hstep =>
    cases (hstep m.limits hallowed).symm.trans hok
    exact ⟨rfl, hmeasures, hmoves.withLimits m.limits, .inl hle⟩
  | saves flow' full room hsame hsize hmoves hmeasures hstep =>
    have hresult := (hstep m.limits hallowed).symm.trans hok
    by_cases hfull : m.limits.maxDump ≤ m.dump.size
    · rw [if_pos hfull] at hresult
      cases hresult
    · rw [if_neg hfull] at hresult
      cases hresult
      exact ⟨rfl, hmeasures, hmoves.withLimits m.limits, .inr (hsize.trans_le (Nat.not_le.1 hfull))⟩

/-- A step that faults leaves the dump, what has been noted of it, and the limits. If it was
allowed, then no limit on the steps is the fault. -/
theorem sameDump_of_error {m' : Machine} {f : Fault} (herror : step.run m = .error f m') :
    m'.limits = m.limits ∧ m.SameDump m' ∧
      (¬ m.Exhausted → ∀ limit, f ≠ .stepLimit limit) := by
  by_cases hallowed : m.Exhausted
  · obtain ⟨limit, -, hstep⟩ := hallowed.step_eq
    cases hstep.symm.trans herror
    exact ⟨rfl, ⟨rfl, rfl, rfl, rfl⟩, fun h => absurd hallowed h⟩
  · cases m.turn with
    | faults f' m₁ hf hsame hstep =>
      cases (hstep m.limits hallowed).symm.trans herror
      refine ⟨rfl, hsame.withLimits m.limits, ?_⟩
      rintro - limit rfl
      exact hf trivial
    | succeeds flow m₁ hle hmoves hmeasures hstep =>
      cases (hstep m.limits hallowed).symm.trans herror
    | saves flow full room hsame hsize hmoves hmeasures hstep =>
      have hresult := (hstep m.limits hallowed).symm.trans herror
      by_cases hfull : m.limits.maxDump ≤ m.dump.size
      · rw [if_pos hfull] at hresult
        cases hresult
        exact ⟨rfl, hsame.withLimits m.limits, nofun⟩
      · rw [if_neg hfull] at hresult
        cases hresult

end Machine

end Secd
