import Secd.Proofs.Machine.Raised

/-!
# The outermost function of a program

The code of a program is typed, so as long as no function is being called, it never takes more
values from the stack than it has pushed, and the dump only holds what comes after conditionals.
This does not depend on what the functions do that it calls. They get an empty stack, they give one
result, and all that they can do to the store leaves the code as it is; their own code need not be
typed.

So the outermost function never comes upon a value that lies at the bottom of the stack when the
program begins, and a run with such a value is the same as one without it.
-/

namespace Secd

/-- The entries of the dump hold what comes after conditionals: typed code that goes on where the
code before it ends. -/
inductive Branching (base : Store) (sites : List CallSite) : Array DumpEntry → Ending → Prop where
  | stop : Branching base sites #[] .stop
  | join {rest : Array DumpEntry} {k : Sexp} {depth opened : Nat} {slots : List Slot}
      {ending : Ending} (hheld : base.Holds k) (hcode : Typed 0 sites depth opened slots ending k)
      (hrest : Branching base sites rest ending) :
      Branching base sites (rest.push (.join k.value)) (.join depth opened slots)

/-- The control is typed code for so many values on the stack, and ends where the dump goes on. -/
def Continues (base : Store) (sites : List CallSite) (count : Nat) (control : Value)
    (dump : Array DumpEntry) : Prop :=
  ∃ c depth opened slots ending, control = c.value ∧ base.Holds c ∧
    Typed 0 sites depth opened slots ending c ∧ slots.length = count ∧
      Branching base sites dump ending

/-- The registers are those of the outermost function. It is about to run typed code, or the `RAP`
after the instruction that has pushed its closure. -/
inductive Outermost (base : Store) (sites : List CallSite) (r : Registers) : Prop where
  | code (h : Continues base sites r.stack.length r.control r.dump)
  | rap {c k : Sexp} {f : Nat} {args : Value} {stack : List Value} (hcontrol : r.control = c.value)
      (hheld : base.Holds c) (hcode : c.Begins [Opcode.rap.sexp] k)
      (hstack : r.stack = .pair f :: args :: stack)
      (hrest : Continues base sites (stack.length + 1) k.value r.dump)

/-- After the effect, the outermost function goes on; or it waits for the result of a function that
has been called; or the run has ended. -/
inductive Effect.Stays (base : Store) (sites : List CallSite) (r : Registers) : Effect → Prop where
  | proceed {r' : Registers} (h : Outermost base sites r') : Stays base sites r (.proceed r')
  | call {s : Store} {env control home after : Value} {stack : List Value}
      (h : Continues base sites (stack.length + 1) after r.dump) :
      Stays base sites r (.proceed ⟨s, [], env, control, r.dump.push (.call stack home after)⟩)
  | stop {v : Value} {r' : Registers} : Stays base sites r (.stop v r')
  | fault {f : Fault} : Stays base sites r (.fault f)

variable {base : Store} {sites : List CallSite} {r : Registers}

/-- No call is on the dump of the outermost function. -/
theorem Branching.not_calls {dump : Array DumpEntry} {ending : Ending}
    (h : Branching base sites dump ending) (rest : Array DumpEntry) : ¬ Calls rest dump := by
  rintro ⟨stack, home, after, heq⟩
  cases h with
  | stop => exact Array.push_ne_empty heq.symm
  | join _ _ _ => cases (Array.push_eq_push.1 heq).1

/-- No call is on the dump of the outermost function. -/
theorem Outermost.not_calls (h : Outermost base sites r) (rest : Array DumpEntry) :
    ¬ Calls rest r.dump := by
  cases h with
  | code h =>
    obtain ⟨_, _, _, _, _, -, -, -, -, hdump⟩ := h
    exact hdump.not_calls rest
  | rap _ _ _ _ h =>
    obtain ⟨_, _, _, _, _, -, -, -, -, hdump⟩ := h
    exact hdump.not_calls rest

/-- Held code that is typed for the values on the stack continues the run. -/
theorem Typed.continues {depth opened count : Nat} {slots : List Slot} {ending : Ending} {k : Sexp}
    {dump : Array DumpEntry} (h : Typed 0 sites depth opened slots ending k) (hk : base.Holds k)
    (hlength : slots.length = count) (hdump : Branching base sites dump ending) :
    Continues base sites count k.value dump :=
  ⟨k, depth, opened, slots, ending, rfl, hk, h, hlength, hdump⟩

/-- Where there is a slot, there is a value. -/
theorem exists_cons_of_slot {slot : Slot} {slots : List Slot} {stack : List Value}
    (h : (slot :: slots).length = stack.length) :
    ∃ v rest, stack = v :: rest ∧ slots.length = rest.length := by
  cases stack with
  | nil => cases h
  | cons v rest => exact ⟨v, rest, rfl, Nat.succ.inj h⟩

/-- The outermost function goes on after an instruction that pushes a value. -/
theorem Continues.stays {k : Value} {stack : List Value}
    (h : Continues base sites (stack.length + 1) k r.dump) {e : Effect} (he : e.Pushes r stack k) :
    e.Stays base sites r := by
  cases he with
  | proceed _ => exact .proceed (.code h)
  | fault _ => exact .fault

/-- `LD` pushes a value, or faults. -/
theorem exists_transition_ld {operand k : Value} {a : Address} (hnext : r.Next .ld [operand] k)
    (haddress : Address.ofValue r.store operand = .ok a) : ∃ e, Transition r e ∧
      ((∃ v, e = .proceed { r with stack := v :: r.stack, control := k }) ∨ ∃ f, e = .fault f) := by
  cases hframe : r.store.nth r.env a.frame with
  | error _ => exact ⟨_, .ldNoFrame hnext haddress hframe, .inr ⟨_, rfl⟩⟩
  | ok frame =>
    cases hready : frame.isPending with
    | true => exact ⟨_, .ldPending hnext haddress hframe hready, .inr ⟨_, rfl⟩⟩
    | false =>
      cases hslot : r.store.nth frame a.slot with
      | error _ => exact ⟨_, .ldNoSlot hnext haddress hframe hready hslot, .inr ⟨_, rfl⟩⟩
      | ok v => exact ⟨_, .ld hnext haddress hframe hready hslot, .inl ⟨v, rfl⟩⟩

/-- `RAP` with a closure enters it, or does not find its pending frame. -/
theorem exists_transition_rap {f : Nat} {args k : Value} {stack : List Value}
    (hnext : r.Next .rap [] k) (hstack : r.stack = .pair f :: args :: stack) :
    ∃ e, Transition r e ∧ ((∃ s env control home,
      e = .proceed ⟨s, [], env, control, r.dump.push (.call stack home k)⟩) ∨
        ∃ f, e = .fault f) := by
  cases hcell : Action.pendingCell? r.store r.env (r.store.cell f).tail with
  | none => exact ⟨_, .rapUnmatched hnext hstack hcell, .inr ⟨_, rfl⟩⟩
  | some c =>
    unfold Action.pendingCell? at hcell
    split at hcell
    · next d e henv htail =>
      split at hcell
      · next h =>
        obtain ⟨hpending, rfl⟩ := h
        exact ⟨_, .rap hnext hstack henv hpending htail, .inl ⟨_, _, _, _, rfl⟩⟩
      · cases hcell
    · cases hcell

/-- A call enters a closure or pushes the result of a host callable, or it faults. -/
theorem exists_transition_call {f args k : Value} {stack : List Value} (hnext : r.Next .ap [] k)
    (hstack : r.stack = f :: args :: stack)
    (h : Continues base sites (stack.length + 1) k r.dump) :
    ∃ e, Transition r e ∧ e.Stays base sites r := by
  cases f with
  | pair c => exact ⟨_, .apClosure hnext hstack, .call h⟩
  | atom a =>
    obtain ⟨e, he, hpushes | ⟨name, expected, got, rfl⟩⟩ := exists_transition_ap hnext hstack
    · exact ⟨e, he, h.stays hpushes⟩
    · exact ⟨_, he, .fault⟩

/-- A rule applies to the outermost function, and this goes on after it. -/
theorem Outermost.exists_transition (h : Outermost base sites r) (hbase : base.Extends r.store) :
    ∃ e, Transition r e ∧ e.Stays base sites r := by
  cases h with
  | rap hcontrol hheld hcode hstack hrest =>
    obtain ⟨hnext, -, -⟩ := Registers.next_of_begins hbase hheld hcontrol hcode
    obtain ⟨e, he, ⟨s, env, control, home, rfl⟩ | ⟨f, rfl⟩⟩ := exists_transition_rap hnext hstack
    · exact ⟨_, he, .call hrest⟩
    · exact ⟨_, he, .fault⟩
  | code h =>
    obtain ⟨c, depth, opened, slots, ending, hcontrol, hheld, hcode, hlength, hdump⟩ := h
    have hnext {op : Opcode} {operands : List Sexp} {k : Sexp}
        (hbegins : c.Begins (op.sexp :: operands) k) :=
      Registers.next_of_begins hbase hheld hcontrol hbegins
    cases hcode with
    | ld hcode hoperand _ hrest | callee hcode hoperand _ _ _ hrest =>
      obtain ⟨hnext, hk, hoperands⟩ := hnext hcode
      have haddress := ((hoperands _ List.mem_cons_self).extends hbase).ofValue_eq hoperand
      obtain ⟨e, he, ⟨v, rfl⟩ | ⟨f, rfl⟩⟩ := exists_transition_ld hnext haddress
      · exact ⟨_, he, .proceed (.code (hrest.continues hk (congrArg (· + 1) hlength) hdump))⟩
      · exact ⟨_, he, .fault⟩
    | ldc hcode hrest | nil hcode hrest =>
      obtain ⟨hnext, hk, -⟩ := hnext hcode
      exact ⟨_, .ldc hnext, .proceed (.code (hrest.continues hk (congrArg (· + 1) hlength) hdump))⟩
    | ldf hcode _ hrest =>
      obtain ⟨hnext, hk, -⟩ := hnext hcode
      exact ⟨_, .ldf hnext, .proceed (.code (hrest.continues hk (congrArg (· + 1) hlength) hdump))⟩
    | push hcode hrest | binary hcode hrest =>
      obtain ⟨hnext, hk, -⟩ := hnext hcode
      obtain ⟨v, _, hstack, hlength⟩ := exists_cons_of_slot hlength
      obtain ⟨w, stack, rfl, hcount⟩ := exists_cons_of_slot hlength
      obtain ⟨e, he, hpushes⟩ := exists_transition_binary hnext hstack
      exact ⟨e, he, (hrest.continues hk (congrArg (· + 1) hcount) hdump).stays hpushes⟩
    | unary hcode hrest =>
      obtain ⟨hnext, hk, -⟩ := hnext hcode
      obtain ⟨v, stack, hstack, hlength⟩ := exists_cons_of_slot hlength
      obtain ⟨e, he, hpushes⟩ := exists_transition_unary hnext hstack
      exact ⟨e, he, (hrest.continues hk (congrArg (· + 1) hlength) hdump).stays hpushes⟩
    | ap hcode _ _ hrest | call hcode _ _ hrest =>
      obtain ⟨hnext, hk, -⟩ := hnext hcode
      obtain ⟨f, _, hstack, hlength⟩ := exists_cons_of_slot hlength
      obtain ⟨args, stack, rfl, hcount⟩ := exists_cons_of_slot hlength
      exact exists_transition_call hnext hstack (hrest.continues hk (congrArg (· + 1) hcount) hdump)
    | dum hcode hrest =>
      obtain ⟨hnext, hk, -⟩ := hnext hcode
      exact ⟨_, .dum hnext, .proceed (.code (hrest.continues hk hlength hdump))⟩
    | rap hcode hrap _ hrest =>
      obtain ⟨hnext, hd, -⟩ := hnext hcode
      obtain ⟨args, stack, hstack, hlength⟩ := exists_cons_of_slot hlength
      have hk := (hd.starts hrap).2.1
      exact ⟨_, .ldf hnext, .proceed (.rap rfl hd hrap (congrArg (List.cons _) hstack)
        (hrest.continues hk (congrArg (· + 1) hlength) hdump))⟩
    | sel hcode hyes hno hrest =>
      obtain ⟨hnext, hk, hoperands⟩ := hnext hcode
      obtain ⟨hheldYes, hheldNo⟩ := List.forall_mem_cons.1 hoperands
      obtain ⟨test, stack, hstack, hlength⟩ := exists_cons_of_slot hlength
      refine ⟨_, .sel hnext hstack, .proceed (.code ?_)⟩
      have hbranching := Branching.join hk hrest hdump
      cases test.isTrue with
      | true => exact hyes.continues hheldYes hlength hbranching
      | false => exact hno.continues (hheldNo _ List.mem_cons_self) hlength hbranching
    | stop hcode =>
      obtain ⟨hnext, -, -⟩ := hnext hcode
      obtain ⟨v, stack, hstack, -⟩ := exists_cons_of_slot hlength
      exact ⟨_, .stop hnext hstack, .stop⟩
    | rtn _ =>
      generalize r.dump = dump at hdump
      cases hdump
    | join hcode =>
      obtain ⟨hnext, -, -⟩ := hnext hcode
      generalize hD : r.dump = dump at hdump
      cases hdump with
      | join hk hrest hdump =>
        exact ⟨_, .join hnext hD, .proceed (.code (hrest.continues hk hlength hdump))⟩

namespace Machine

/-- The machine `m'` is like `m`, but for the value `x`: it is at the bottom of the stack of the
outermost function, either in the register or, while a function is being called, on the dump. -/
inductive Below (base : Store) (sites : List CallSite) (x : Value) (m m' : Machine) : Prop where
  | outermost (hraises : Raises x m m') (h : Outermost base sites m.registers)
  | called {low : Array DumpEntry} {stack : List Value} {home after : Value}
      (hburies : Buries x low stack home after m m')
      (h : Continues base sites (stack.length + 1) after low)

/-- A value below those of the outermost function makes no difference to a step, and it stays
there. -/
theorem Below.sameStep {x : Value} {m m' : Machine} (h : Below base sites x m m')
    (hbase : base.Extends m.store) (hsteps : m.limits.maxSteps = none)
    (hsize : m.dump.size ≤ m.limits.maxDump) :
    SameStep (Below base sites x) (step.run m) (step.run m') := by
  cases h with
  | outermost hraises h =>
    obtain ⟨e, he, hstays⟩ := h.exists_transition hbase
    refine (hraises.sameStep he h.not_calls hsteps hsize).imp ?_
    rintro m₁ m₁' ⟨rfl, ⟨hkept, hraises⟩ | ⟨stack, home, after, hdump, hburies⟩⟩
    · refine .outermost hraises ?_
      generalize hr : m₁.registers = r at hstays
      cases hstays with
      | proceed h => exact h
      | call _ => exact absurd ⟨_, _, _, congrArg Registers.dump hr⟩ hkept
    · refine .called hburies ?_
      generalize hr : m₁.registers = r at hstays
      cases hstays with
      | proceed h =>
        exact absurd ⟨_, _, _, (congrArg Registers.dump hr).symm.trans hdump⟩ (h.not_calls _)
      | call h =>
        have hpush := hdump.symm.trans (congrArg Registers.dump hr)
        obtain ⟨hentry, -⟩ := Array.push_eq_push.1 hpush
        cases hentry
        exact h
  | called hburies h =>
    refine (hburies.sameStep hsteps).imp ?_
    rintro m₁ m₁' (hburies | ⟨hraises, ⟨v, hstack⟩, hcontrol, hdump⟩)
    · exact .called hburies h
    · refine .outermost hraises (.code ?_)
      have hcontinues : Continues base sites m₁.stack.length m₁.control m₁.dump := by
        rw [hstack, hcontrol, hdump]
        exact h
      exact hcontinues

end Machine

end Secd
