import Secd.Proofs.Machine.Ending
import Secd.Proofs.Machine.Lockstep

/-!
# Callers get their registers back

A call and a conditional put an entry on the dump, and what the machine does until it takes this
entry is an excursion: the dump is larger than it was all the time. A step moves one entry at most,
at the top, and one that faults moves none. So all that lies below stays what it is, whatever the
code on the way does, and the step that ends the excursion takes the very entry with which it began.
Only `RTN` takes the entry of a call, and only `JOIN` that of a conditional.
-/

namespace Secd

/-! ### The rules that save an entry, and those that take one -/

/-- A rule that leaves a smaller dump is that of `RTN`, which takes the entry of a call, or that of
`JOIN`, which takes the entry of a conditional. -/
theorem Transition.takes_cases {r r' : Registers} (h : Transition r (.proceed r'))
    (hlt : r'.dump.size < r.dump.size) :
    (∃ v rest stack env control dump, r.opcode? = some .rtn ∧ r.stack = v :: rest ∧
      r.dump = dump.push (.call stack env control) ∧
      r' = ⟨r.store, v :: stack, env, control, dump⟩) ∨
    ∃ control dump, r.opcode? = some .join ∧ r.dump = dump.push (.join control) ∧
      r' = { r with control, dump } := by
  generalize he : Effect.proceed r' = e at h
  cases h <;> cases he
  case rtn hnext hstack hdump =>
    exact .inl ⟨_, _, _, _, _, _, Registers.opcode?_of_next hnext, hstack, hdump, rfl⟩
  case join hnext hdump =>
    exact .inr ⟨_, _, Registers.opcode?_of_next hnext, hdump, rfl⟩
  case apClosure | rap | sel =>
    rw [Array.size_push] at hlt
    omega
  all_goals exact absurd hlt (Nat.lt_irrefl _)

/-- `AP` with a closure saves the stack without the closure and its arguments, the environment and
the code that comes next. -/
theorem Transition.saves_of_ap {r r' : Registers} {f : Nat} {rest : List Value}
    (h : Transition r (.proceed r')) (hop : r.opcode? = some .ap)
    (hpair : r.stack = .pair f :: rest) :
    ∃ args stack k, r.Next .ap [] k ∧ rest = args :: stack ∧
      r'.dump = r.dump.push (.call stack r.env k) := by
  generalize he : Effect.proceed r' = e at h
  cases h <;> cases he
  case apClosure hnext hstack =>
    obtain ⟨-, rfl⟩ := List.cons.inj (hstack.symm.trans hpair)
    exact ⟨_, _, _, hnext, rfl, rfl⟩
  case apHost hstack _ _ _ => cases hstack.symm.trans hpair
  all_goals cases (Registers.opcode?_of_next ‹r.Next _ _ _›).symm.trans hop

/-- `RAP` saves the stack without the closure and its arguments, the environment without its first
frame, and the code that comes next. -/
theorem Transition.saves_of_rap {r r' : Registers} (h : Transition r (.proceed r'))
    (hop : r.opcode? = some .rap) :
    ∃ f args stack c k, r.Next .rap [] k ∧ r.stack = .pair f :: args :: stack ∧ r.env = .pair c ∧
      r'.dump = r.dump.push (.call stack (r.store.cell c).tail k) := by
  generalize he : Effect.proceed r' = e at h
  cases h <;> cases he
  case rap hnext hstack henv _ _ => exact ⟨_, _, _, _, _, hnext, hstack, henv, rfl⟩
  all_goals cases (Registers.opcode?_of_next ‹r.Next _ _ _›).symm.trans hop

/-- `SEL` saves the code that comes after its two branches. -/
theorem Transition.saves_of_sel {r r' : Registers} (h : Transition r (.proceed r'))
    (hop : r.opcode? = some .sel) :
    ∃ yes no k, r.Next .sel [yes, no] k ∧ r'.dump = r.dump.push (.join k) := by
  generalize he : Effect.proceed r' = e at h
  cases h <;> cases he
  case sel hnext _ => exact ⟨_, _, _, hnext, rfl⟩
  all_goals cases (Registers.opcode?_of_next ‹r.Next _ _ _›).symm.trans hop

namespace Machine

variable {m : Machine}

/-! ### What a step does to the dump -/

/-- An instruction that always goes on does not stop. -/
theorem proceed_ne_stop (x : Action Unit) (m m' : Machine) (v : Value) :
    (x >>= fun _ => pure .proceed : Action Flow) m ≠ .ok (.stop v) m' := by
  rw [bind_apply]
  cases x m <;> nofun

/-- A step that stops takes no entry. -/
theorem dump_eq_of_stop {m' : Machine} {v : Value} (h : step.run m = .ok (.stop v) m') :
    m'.dump = m.dump := by
  rcases m.step_cases with ⟨op, c, -, -, hstep⟩ | ⟨f, hstep⟩ | ⟨f, c, -, hstep⟩
  · rw [hstep] at h
    cases hexecute : Action.execute op (m.fetched (m.store.cell c).tail) with
    | error f m₁ =>
      rw [hexecute] at h
      cases h
    | ok flow m₁ =>
      rw [hexecute] at h
      cases h
      cases op with
      | stop =>
        rw [Action.execute, Action.stop] at hexecute
        split at hexecute
        · cases hexecute
          rfl
        · cases hexecute
      | _ => exact absurd hexecute (proceed_ne_stop _ _ _ _)
  · cases hstep.symm.trans h
  · cases hstep.symm.trans h

/-- Only a step that goes on leaves a smaller dump. -/
theorem proceeds_of_size_lt (hlt : m.next.dump.size < m.dump.size) :
    step.run m = .ok .proceed m.next := by
  have hsmaller : m.next.dump ≠ m.dump := fun heq => absurd (heq ▸ hlt) (Nat.lt_irrefl _)
  rw [next] at hsmaller ⊢
  cases hstep : step.run m with
  | ok flow m' =>
    rw [hstep] at hsmaller
    cases flow with
    | proceed => rfl
    | stop v => exact absurd (dump_eq_of_stop hstep) hsmaller
  | error f m' =>
    rw [hstep] at hsmaller
    exact absurd (sameDump_of_error hstep).2.1.dump hsmaller

/-- A step, whether it faults or not, moves one entry at most. -/
theorem dump_next_cases (m : Machine) :
    m.next.dump = m.dump ∨ (∃ entry, m.next.dump = m.dump.push entry) ∨
      ∃ entry, m.dump = m.next.dump.push entry := by
  rw [next]
  cases hstep : step.run m with
  | ok flow m' =>
    obtain ⟨-, -, hmoves, -⟩ := measures_of_ok hstep
    cases hmoves with
    | keeps hdump => exact .inl hdump
    | saves entry hdump => exact .inr (.inl ⟨entry, hdump⟩)
    | takes entry hdump => exact .inr (.inr ⟨entry, hdump⟩)
  | error f m' => exact .inl (sameDump_of_error hstep).2.1.dump

/-- A step takes one entry at most. -/
theorem size_dump_le_next (m : Machine) : m.dump.size ≤ m.next.dump.size + 1 := by
  rcases m.dump_next_cases with hdump | ⟨entry, hdump⟩ | ⟨entry, hdump⟩
  · rw [hdump]
    exact Nat.le_succ _
  · rw [hdump, Array.size_push]
    omega
  · rw [hdump, Array.size_push]

/-- An entry that is on the dump before and after a step is the same. -/
theorem dump_next_getElem? {j : Nat} (hbefore : j < m.dump.size) (hafter : j < m.next.dump.size) :
    m.next.dump[j]? = m.dump[j]? := by
  rcases m.dump_next_cases with hdump | ⟨entry, hdump⟩ | ⟨entry, hdump⟩
  · rw [hdump]
  · rw [hdump, Array.getElem?_push_lt hbefore, Array.getElem?_eq_getElem hbefore]
  · rw [hdump, Array.getElem?_push_lt hafter, Array.getElem?_eq_getElem hafter]

/-- An entry that stays on the dump for some steps is the same all the time. -/
theorem dump_after_getElem? {j n : Nat} (h : ∀ i ≤ n, j < (m.after i).dump.size) :
    (m.after n).dump[j]? = m.dump[j]? := by
  induction n with
  | zero => rfl
  | succ n ih =>
    have hstep := dump_next_getElem? (h n (Nat.le_succ n)) (h (n + 1) (Nat.le_refl _))
    exact hstep.trans (ih fun i hi => h i (Nat.le_succ_of_le hi))

/-! ### Taking an entry -/

/-- The next step is an `RTN` that gives a caller these registers back, with the result on top of
the stack. -/
structure ReturnsTo (m : Machine) (stack : List Value) (env control : Value) : Prop where
  executed : m.executed m.next = [.rtn]
  stack : ∃ v rest, m.stack = v :: rest ∧ m.next.stack = v :: stack
  env : m.next.env = env
  control : m.next.control = control

/-- The next step is a `JOIN` that goes on with this code. -/
structure JoinsAt (m : Machine) (control : Value) : Prop where
  executed : m.executed m.next = [.join]
  control : m.next.control = control

/-- The next step takes the entry in the way that is meant for it. -/
def Restores (m : Machine) : DumpEntry → Prop
  | .call stack env control => m.ReturnsTo stack env control
  | .join control => m.JoinsAt control

/-- The instruction of a step that goes on has been executed. -/
theorem executed_of_proceed {op : Opcode} (hstep : step.run m = .ok .proceed m.next)
    (hop : m.registers.opcode? = some op) : m.executed m.next = [op] := by
  obtain ⟨-, hmeasures, -⟩ := measures_of_ok hstep
  have hsteps : m.next.stats.steps = m.stats.steps + 1 := congrArg Stats.steps hmeasures
  rw [executed, hsteps, if_neg (Nat.succ_ne_self _), hop]
  rfl

/-- A step that leaves a smaller dump restores what it has taken. -/
theorem exists_restores_of_size_lt (hlt : m.next.dump.size < m.dump.size) :
    ∃ entry, m.dump = m.next.dump.push entry ∧ m.Restores entry := by
  have hstep := proceeds_of_size_lt hlt
  rcases (transition_of_proceed hstep).takes_cases hlt with
    ⟨v, rest, stack, env, control, dump, hop, hstack, hdump, hr⟩ | ⟨control, dump, hop, hdump, hr⟩
  · have hnext : m.next.dump = dump := congrArg Registers.dump hr
    refine ⟨.call stack env control, hnext ▸ hdump, executed_of_proceed hstep hop,
      ⟨v, rest, hstack, congrArg Registers.stack hr⟩, congrArg Registers.env hr,
      congrArg Registers.control hr⟩
  · have hnext : m.next.dump = dump := congrArg Registers.dump hr
    exact ⟨.join control, hnext ▸ hdump, executed_of_proceed hstep hop,
      congrArg Registers.control hr⟩

/-! ### Excursions -/

/-- The first one of `k + 1` steps goes on, the dump is larger than at the beginning after each of
the first `k` steps, and as large as at the beginning after the last one. -/
structure Excursion (m : Machine) (k : Nat) : Prop where
  proceeds : step.run m = .ok .proceed m.next
  above : ∀ i ≤ k, 0 < i → m.dump.size < (m.after i).dump.size
  back : (m.after (k + 1)).dump.size = m.dump.size

namespace Excursion

variable {k : Nat}

/-- In an excursion the dump is never smaller than at the beginning. -/
theorem size_le (h : m.Excursion k) {i : Nat} (hi : i ≤ k + 1) :
    m.dump.size ≤ (m.after i).dump.size := by
  rcases Nat.le_succ_iff.1 hi with hi | rfl
  · cases i with
    | zero => exact Nat.le_refl _
    | succ i => exact Nat.le_of_lt (h.above (i + 1) hi (Nat.succ_pos i))
  · exact Nat.le_of_eq h.back.symm

/-- In an excursion the entries that were on the dump at the beginning stay there. -/
theorem getElem?_dump (h : m.Excursion k) {i j : Nat} (hi : i ≤ k + 1) (hj : j < m.dump.size) :
    (m.after i).dump[j]? = m.dump[j]? :=
  dump_after_getElem? fun _ hle => Nat.lt_of_lt_of_le hj (h.size_le (Nat.le_trans hle hi))

/-- After an excursion the dump is that of the beginning. -/
theorem dump_eq (h : m.Excursion k) : (m.after (k + 1)).dump = m.dump := by
  refine Array.ext_getElem? fun j => ?_
  by_cases hj : j < m.dump.size
  · exact h.getElem?_dump (Nat.le_refl _) hj
  · have hle := Nat.not_lt.1 hj
    rw [Array.getElem?_eq_none hle, Array.getElem?_eq_none (by rw [h.back]; exact hle)]

/-- The last step of an excursion restores what the first one has saved. -/
theorem restores (h : m.Excursion k) {entry : DumpEntry}
    (hsaved : m.next.dump = m.dump.push entry) : (m.after k).Restores entry := by
  have hsize : m.next.dump.size = m.dump.size + 1 := by rw [hsaved, Array.size_push]
  have hfirst : m.after 1 = m.next := rfl
  -- The first step does not end the excursion.
  obtain ⟨k, rfl⟩ : ∃ n, k = n + 1 := by
    cases k with
    | zero =>
      have hback : m.next.dump.size = m.dump.size := h.back
      omega
    | succ n => exact ⟨n, rfl⟩
  have habove : m.dump.size < (m.after (k + 1)).dump.size :=
    h.above _ (Nat.le_refl _) (Nat.succ_pos k)
  have hback : (m.after (k + 1)).next.dump.size = m.dump.size := h.back
  obtain ⟨taken, hdump, hrestores⟩ := exists_restores_of_size_lt (hback ▸ habove)
  have hkept : (m.next.after k).dump[m.dump.size]? = m.next.dump[m.dump.size]? := by
    refine dump_after_getElem? fun i hi => ?_
    rw [after_next]
    exact h.above (i + 1) (Nat.succ_le_succ hi) (Nat.succ_pos i)
  have htop : (m.after (k + 1)).dump[m.dump.size]? = some taken := by
    rw [hdump, ← hback, Array.getElem?_push_size]
  rw [after_next, htop, hsaved, Array.getElem?_push_size] at hkept
  exact Option.some.inj hkept ▸ hrestores

end Excursion

/-- Whatever a called function or a branch does, and in whatever state it is entered: as long as the
dump is larger than before, the entries that were there do not change; and the step that brings it
back to its size is an `RTN` if the excursion began with a call, and a `JOIN` if it began with a
conditional. After the return of a function the stack is what was left of it after the closure and
its arguments had been taken, with the result on top, the code is that after the call, and the
environment is that of the call, for `RAP` without the frame of the `DUM`. After a branch the code
is that after the conditional. A host callable that is applied on the way is a primitive, which does
not touch the dump. -/
theorem restored_of_excursion (m : Machine) {k : Nat} (h : m.Excursion k) :
    (∀ i ≤ k + 1, ∀ j < m.dump.size, (m.after i).dump[j]? = m.dump[j]?) ∧
      (m.after (k + 1)).dump = m.dump ∧
      (∀ f rest, m.registers.opcode? = some .ap → m.stack = .pair f :: rest →
        ∃ args stack after, m.registers.Next .ap [] after ∧ rest = args :: stack ∧
          (m.after k).ReturnsTo stack m.env after) ∧
      (m.registers.opcode? = some .rap →
        ∃ f args stack c after, m.registers.Next .rap [] after ∧
          m.stack = .pair f :: args :: stack ∧ m.env = .pair c ∧
          (m.after k).ReturnsTo stack (m.store.cell c).tail after) ∧
      (m.registers.opcode? = some .sel →
        ∃ yes no after, m.registers.Next .sel [yes, no] after ∧ (m.after k).JoinsAt after) := by
  have hrule := transition_of_proceed h.proceeds
  refine ⟨fun i hi j hj => h.getElem?_dump hi hj, h.dump_eq, ?_, ?_, ?_⟩
  · intro f rest hop hstack
    obtain ⟨args, stack, after, hnext, hrest, hsaved⟩ := hrule.saves_of_ap hop hstack
    exact ⟨args, stack, after, hnext, hrest, h.restores hsaved⟩
  · intro hop
    obtain ⟨f, args, stack, c, after, hnext, hstack, henv, hsaved⟩ := hrule.saves_of_rap hop
    exact ⟨f, args, stack, c, after, hnext, hstack, henv, h.restores hsaved⟩
  · intro hop
    obtain ⟨yes, no, after, hnext, hsaved⟩ := hrule.saves_of_sel hop
    exact ⟨yes, no, after, hnext, h.restores hsaved⟩

/-- The code `(LDC NIL LDF (LDC T SEL (LDC 7 JOIN) (LDC 7 JOIN) RTN) AP STOP)` in cell 14. -/
def branchingCall : Store where
  cells := #[⟨Opcode.stop.value, .nil⟩, ⟨Opcode.ap.value, .pair 0⟩, ⟨Opcode.rtn.value, .nil⟩,
    ⟨Opcode.join.value, .nil⟩, ⟨.int 7, .pair 3⟩, ⟨Opcode.ldc.value, .pair 4⟩,
    ⟨.pair 5, .pair 2⟩, ⟨.pair 5, .pair 6⟩, ⟨Opcode.sel.value, .pair 7⟩, ⟨.truth true, .pair 8⟩,
    ⟨Opcode.ldc.value, .pair 9⟩, ⟨.pair 10, .pair 1⟩, ⟨Opcode.ldf.value, .pair 11⟩,
    ⟨.nil, .pair 12⟩, ⟨Opcode.ldc.value, .pair 13⟩]

/-- The machine is about to apply a function whose body branches. Six steps later it has returned:
the list of arguments of the program is still on the stack below the result, and `STOP` is next. -/
theorem restored_of_excursion_branchingCall :
    let m := ((idle branchingCall {}).load (.pair 14) .nil .nil).after 2
    m.Excursion 5 ∧ (m.after 3).dump.size = 2 ∧ (m.after 5).executed (m.after 6) = [.rtn] ∧
      (m.after 6).stack.tail = [.nil] ∧ (m.after 6).env = .nil ∧ (m.after 6).control = .pair 0 := by
  intro m
  have hexcursion : m.Excursion 5 := ⟨rfl, by decide +kernel, by decide +kernel⟩
  obtain ⟨-, -, hap, -, -⟩ := restored_of_excursion m hexcursion
  obtain ⟨args, stack, after, ⟨c, hcontrol, -, rfl⟩, hrest, hreturns⟩ :=
    hap 15 [.nil, .nil] (by decide +kernel) rfl
  obtain ⟨rfl, rfl⟩ := List.cons.inj hrest
  obtain rfl := Value.pair.inj hcontrol
  obtain ⟨v, rest, -, hstack⟩ := hreturns.stack
  exact ⟨hexcursion, by decide +kernel, hreturns.executed, congrArg List.tail hstack, hreturns.env,
    hreturns.control⟩

end Machine

end Secd
