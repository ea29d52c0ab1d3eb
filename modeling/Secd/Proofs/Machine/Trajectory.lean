import Secd.Proofs.Machine.Lockstep

/-!
# The states that a machine goes through

A step leaves a machine behind whether it succeeds or not, and this machine can be made to take
another step. So every machine has a state after any number of steps, also after it has stopped or
faulted; the states of a run are the first ones of these.

Most steps only add cells to the store. The exception is a `RAP` that finds its pending frame: it
*patches* the first cell of the environment, whose head is the placeholder, with the list of
arguments that it takes from the stack.
-/

namespace Secd

/-- Only the placeholder is pending. -/
theorem Value.isPending_iff {v : Value} : v.isPending = true ↔ v = .pending := by
  constructor
  · intro h
    cases v with
    | pair c => cases h
    | atom a =>
      cases a with
      | symbol name => rw [beq_iff_eq.1 h, pending]
      | _ => cases h
  · rintro rfl
    exact beq_self_eq_true pendingName

namespace Machine

/-- The machine that a step leaves, with or without a fault. -/
def next (m : Machine) : Machine :=
  match step.run m with
  | .ok _ m' => m'
  | .error _ m' => m'

/-- The machine after a number of steps. -/
def after (m : Machine) : Nat → Machine
  | 0 => m
  | n + 1 => (m.after n).next

/-- The first of some steps may be taken beforehand. -/
theorem after_next (m : Machine) (n : Nat) : m.next.after n = m.after (n + 1) := by
  induction n with
  | zero => rfl
  | succ n ih => exact congrArg next ih

/-- The states of a machine after some steps are states of the machine. -/
theorem after_after (m : Machine) (j i : Nat) : (m.after j).after i = m.after (j + i) := by
  induction i with
  | zero => rfl
  | succ i ih => exact congrArg next ih

/-! ### Runs as sequences of states -/

variable {m m' : Machine} {n : Nat} {outcome : Outcome}

/-- A step that goes on leads to the next state. -/
theorem next_eq_of_proceed (h : step.run m = .ok .proceed m') : m.next = m' := by
  rw [next, h]

/-- The first `n` steps go on. -/
def Proceeds (m : Machine) (n : Nat) : Prop :=
  ∀ i < n, step.run (m.after i) = .ok .proceed (m.after (i + 1))

/-- One more step that goes on may be taken beforehand. -/
theorem Proceeds.cons (hstep : step.run m = .ok .proceed m.next) (h : m.next.Proceeds n) :
    m.Proceeds (n + 1) := by
  intro i hi
  cases i with
  | zero => exact hstep
  | succ i =>
    rw [← after_next, ← after_next]
    exact h i (Nat.lt_of_succ_lt_succ hi)

/-- After some of the steps the others are left. -/
theorem Proceeds.drop (h : m.Proceeds n) (j : Nat) : (m.after j).Proceeds (n - j) := by
  intro i hi
  rw [after_after, after_after]
  exact h (j + i) (by omega)

/-- The next step of `m` ends the run with this outcome, and leaves `m'`. -/
def Ends (m : Machine) (outcome : Outcome) (m' : Machine) : Prop :=
  step.run m =
    match outcome with
    | .halted v => .ok (.stop v) m'
    | .faulted f => .error f m'

/-- The last step of a run leads to the next state, too. -/
theorem Ends.next_eq (h : m.Ends outcome m') : m.next = m' := by
  unfold Ends at h
  cases outcome <;> rw [next, h]

/-- The run of `m` takes the steps from the states after `0`, `1`, …, `n` steps: those before the
last one go on to the next state, and the last one ends the run. -/
structure EndsAfter (m : Machine) (n : Nat) (outcome : Outcome) (m' : Machine) : Prop where
  proceeds : m.Proceeds n
  ends : (m.after n).Ends outcome m'

/-- A run of more than one step begins with one that goes on. -/
theorem EndsAfter.tail (h : m.EndsAfter (n + 1) outcome m') :
    step.run m = .ok .proceed m.next ∧ m.next.EndsAfter n outcome m' := by
  refine ⟨h.proceeds 0 (Nat.succ_pos n), h.proceeds.drop 1, ?_⟩
  rw [after_next]
  exact h.ends

/-- A run that ends has gone through a sequence of states. -/
theorem exists_endsAfter_of_run {fuel : Nat} (h : run fuel m = some (outcome, m')) :
    ∃ n < fuel, m.EndsAfter n outcome m' := by
  induction fuel generalizing m with
  | zero => cases h
  | succ fuel ih =>
    have hlast (hends : m.Ends outcome m') : ∃ n < fuel + 1, m.EndsAfter n outcome m' :=
      ⟨0, Nat.succ_pos fuel, fun i hi => absurd hi (Nat.not_lt_zero i), hends⟩
    rw [run] at h
    split at h
    · next m₁ hstep =>
      obtain ⟨n, hn, hrest⟩ := ih h
      obtain rfl := next_eq_of_proceed hstep
      refine ⟨n + 1, Nat.succ_lt_succ hn, hrest.proceeds.cons hstep, ?_⟩
      rw [← after_next]
      exact hrest.ends
    · next v m₁ hstep =>
      obtain ⟨rfl, rfl⟩ := Prod.mk.inj (Option.some.inj h)
      exact hlast hstep
    · next f m₁ hstep =>
      obtain ⟨rfl, rfl⟩ := Prod.mk.inj (Option.some.inj h)
      exact hlast hstep

/-- A run that has ended has gone through the states of its machine. -/
theorem exists_after_of_run {fuel : Nat} (h : run fuel m = some (outcome, m')) :
    ∃ n ≤ fuel, m' = m.after n := by
  obtain ⟨n, hn, hends⟩ := exists_endsAfter_of_run h
  exact ⟨n + 1, hn, hends.ends.next_eq.symm⟩

/-! ### The phases of a step -/

open Secd.Action

/-- Either the run may not take more steps, or checking this does nothing. -/
theorem checkLimit_cases (m : Machine) :
    checkLimit m = .ok () m ∨ ∃ f, checkLimit m = .error f m := by
  rw [checkLimit]
  split
  · split
    · exact .inr ⟨_, rfl⟩
    · exact .inl rfl
  · exact .inl rfl

/-- A step executes the instruction that it finds, or it faults before there is one to be counted.
Then at most an item of the control is gone. -/
theorem step_cases (m : Machine) :
    (∃ op c, m.control = .pair c ∧ m.registers.opcode? = some op ∧
      step.run m =
        match execute op (m.fetched (m.store.cell c).tail) with
        | .ok flow m' => .ok flow m'.measured
        | .error f m' => .error f m') ∨
    (∃ f, step.run m = .error f m) ∨
    ∃ f c, m.control = .pair c ∧
      step.run m = .error f { m with control := (m.store.cell c).tail } := by
  have hstep : step.run m = step m := rfl
  rw [hstep]
  unfold step
  rw [bind_apply]
  rcases checkLimit_cases m with hcheck | ⟨f, hcheck⟩
  · rw [hcheck]
    dsimp only
    rw [bind_apply]
    cases hcontrol : m.control with
    | atom a =>
      have hdecode : decode m = .error .missingStop m := by simp [decode, fetch, hcontrol]
      rw [hdecode]
      exact .inr (.inl ⟨_, rfl⟩)
    | pair c =>
      cases hop : Opcode.ofValue? (m.store.cell c).head with
      | none =>
        have hdecode : decode m = .error
            (.unknownInstruction (m.store.render (m.store.cell c).head))
            { m with control := (m.store.cell c).tail } := by
          simp [decode, fetch, hcontrol, hop]
        rw [hdecode]
        exact .inr (.inr ⟨_, c, rfl, rfl⟩)
      | some op =>
        have hdecode : decode m = .ok op { m with control := (m.store.cell c).tail } := by
          simp [decode, fetch, hcontrol, hop]
        have hopcode : m.registers.opcode? = some op := by
          simp only [Registers.opcode?, registers, hcontrol, hop]
        refine .inl ⟨op, c, rfl, hopcode, ?_⟩
        rw [hdecode]
        dsimp only
        rw [bind_apply, countStep]
        dsimp only
        rw [bind_apply, fetched]
        cases execute op _ <;> rfl
  · rw [hcheck]
    exact .inr (.inl ⟨f, rfl⟩)

/-! ### Patching a pending frame -/

/-- The next step is a `RAP` that gives the pending frame in the cell `c`, the first one of the
environment, the list of arguments that it takes from the stack, and changes no other cell. -/
structure Patches (m : Machine) (c : Nat) (args : Value) : Prop where
  executed : m.executed m.next = [.rap]
  env : m.env = .pair c
  pending : (m.store.cell c).head = .pending
  popped : ∃ f stack, m.stack = f :: args :: stack
  store : m.next.store = m.store.setHead c args

/-- The frame that is next in line for `RAP`: the function on top of the stack has captured the
environment, and its first cell is pending. -/
structure Awaits (m : Machine) (f c : Nat) (args : Value) (stack : List Value) : Prop where
  stack : m.stack = .pair f :: args :: stack
  env : m.env = .pair c
  pending : (m.store.cell c).head = .pending
  captured : (m.store.cell f).tail = .pair c

/-- A pending frame is patched, and the body of the function is entered unless the dump is full. -/
theorem Awaits.rap_apply {m : Machine} {f c : Nat} {args : Value} {stack : List Value}
    (h : m.Awaits f c args stack) :
    rap m =
      if m.limits.maxDump ≤ m.dump.size then
        .error .dumpOverflow
          { m with store := m.store.setHead c args, stack := [], control := .nil }
      else
        .ok () {
          m with
          store := m.store.setHead c args
          stack := []
          control := (m.store.cell f).head
          dump := m.dump.push (.call stack (m.store.cell c).tail m.control)
          pendingCalls := m.pendingCalls + 1 } := by
  obtain ⟨s, S, E, C, D, limits, stats, calls⟩ := m
  obtain ⟨rfl, rfl, hpending, hcaptured⟩ := h
  dsimp only at hpending hcaptured
  have hfound : pendingCell? s (.pair c) (.pair c) = some c := by
    rw [pendingCell?, if_pos ⟨Value.isPending_iff.2 hpending, rfl⟩]
  have htail : ((s.setHead c args).cell c).tail = (s.cell c).tail :=
    Store.tail_cell_setHead s c c args
  by_cases hfull : limits.maxDump ≤ D.size
  · simp [rap, Action.closure, hcaptured, hfound, save, hfull]
  · simp [rap, Action.closure, hfound, save, hfull, htail, hcaptured, openCall]

/-- If no frame is next in line, `RAP` faults, and it has done no more than to take values from the
stack. -/
theorem exists_rap_eq_error {m : Machine} (h : ∀ f c args stack, ¬ m.Awaits f c args stack) :
    ∃ fault k, rap m = .error fault { m with stack := m.stack.drop k } := by
  obtain ⟨s, S, E, C, D, limits, stats, calls⟩ := m
  match S with
  | [] => exact ⟨.stackUnderflow, 0, rfl⟩
  | [_] => exact ⟨.stackUnderflow, 1, rfl⟩
  | .atom a :: _ :: stack => exact ⟨.notAFunction a.kind, 2, rfl⟩
  | .pair f :: args :: stack =>
    have hnone : pendingCell? s E (s.cell f).tail = none := by
      unfold pendingCell?
      split
      · next c d htail =>
        rw [if_neg]
        rintro ⟨hpending, rfl⟩
        exact h f _ args stack ⟨rfl, rfl, Value.isPending_iff.1 hpending, htail⟩
      · rfl
    exact ⟨.unmatchedRap, 2, by simp [rap, Action.closure, hnone]⟩

/-- A step that executes `RAP` with a frame next in line patches this frame. -/
theorem patches_of_awaits {m : Machine} {k f c : Nat} {args : Value} {stack : List Value}
    (hopcode : m.registers.opcode? = some .rap)
    (hstep : step.run m =
      match execute .rap (m.fetched (m.store.cell k).tail) with
      | .ok flow m' => .ok flow m'.measured
      | .error f m' => .error f m')
    (h : (m.fetched (m.store.cell k).tail).Awaits f c args stack) : m.Patches c args := by
  have hsteps : m.next.stats.steps = m.stats.steps + 1 ∧
      m.next.store = m.store.setHead c args := by
    rw [next, hstep, execute, bind_apply, h.rap_apply]
    by_cases hfull : m.limits.maxDump ≤ m.dump.size
    · simp [fetched, hfull]
    · simp [fetched, measured, hfull]
  refine ⟨?_, h.env, h.pending, ⟨_, stack, h.stack⟩, hsteps.2⟩
  rw [executed, hsteps.1, if_neg (Nat.succ_ne_self _), hopcode]
  rfl

end Machine

end Secd
