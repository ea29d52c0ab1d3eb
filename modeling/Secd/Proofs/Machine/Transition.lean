import Secd.Machine.Step

/-!
# Transitions

What the next step does depends on the store and the registers alone, apart from the two limits of
a run. This file says it with one rule for each instruction and one for each fault that an
instruction may cause, and proves that `Machine.step` follows the rules: if a rule applies to a
machine, the step has the effect that the rule names, unless the run is cut off by a limit.

The rules leave out the faults of code and registers that are out of shape: an instruction without
its operands or without enough values on the stack, an address that is none, a dump entry of the
wrong kind.
-/

namespace Secd

/-- The store and the registers of a machine. -/
structure Registers where
  store : Store
  stack : List Value
  env : Value
  control : Value
  dump : Array DumpEntry

/-- The store and the registers of a machine. -/
def Machine.registers (m : Machine) : Registers := ⟨m.store, m.stack, m.env, m.control, m.dump⟩

/-- What a step does: it changes the registers, stops with a result, or faults. -/
inductive Effect where
  | proceed (r : Registers)
  | stop (result : Value) (r : Registers)
  | fault (f : Fault)

/-- The symbol of an instruction as a value. -/
def Opcode.value (op : Opcode) : Value := .symbol op.mnemonic

/-- An integer is the integer that it is. -/
@[simp] theorem Value.asInt_int (n : Int64) : (Value.int n).asInt = .ok n := rfl

/-- The list `v` begins with the given items, and `rest` comes after them. -/
def Store.Starts (s : Store) : (v : Value) → (items : List Value) → (rest : Value) → Prop
  | v, [], rest => v = rest
  | v, item :: items, rest =>
    ∃ c, v = .pair c ∧ (s.cell c).head = item ∧ s.Starts (s.cell c).tail items rest

/-- The control begins with an instruction and its operands, and `rest` comes after them. -/
def Registers.Next (r : Registers) (op : Opcode) (operands : List Value) (rest : Value) : Prop :=
  r.store.Starts r.control (op.value :: operands) rest

/-- The rules of the machine. -/
inductive Transition (r : Registers) : Effect → Prop where
  | ld {operand frame v k : Value} {a : Address} (hnext : r.Next .ld [operand] k)
      (haddress : Address.ofValue r.store operand = .ok a)
      (hframe : r.store.nth r.env a.frame = .ok frame) (hready : frame.isPending = false)
      (hslot : r.store.nth frame a.slot = .ok v) :
      Transition r (.proceed { r with stack := v :: r.stack, control := k })
  | ldNoFrame {operand k : Value} {a : Address} {e : ValueError} (hnext : r.Next .ld [operand] k)
      (haddress : Address.ofValue r.store operand = .ok a)
      (hframe : r.store.nth r.env a.frame = .error e) :
      Transition r (.fault (.noFrame a.frame))
  | ldPending {operand frame k : Value} {a : Address} (hnext : r.Next .ld [operand] k)
      (haddress : Address.ofValue r.store operand = .ok a)
      (hframe : r.store.nth r.env a.frame = .ok frame) (hpending : frame.isPending = true) :
      Transition r (.fault .pendingFrame)
  | ldNoSlot {operand frame k : Value} {a : Address} {e : ValueError}
      (hnext : r.Next .ld [operand] k) (haddress : Address.ofValue r.store operand = .ok a)
      (hframe : r.store.nth r.env a.frame = .ok frame) (hready : frame.isPending = false)
      (hslot : r.store.nth frame a.slot = .error e) :
      Transition r (.fault (.noSlot a.frame a.slot))
  | ldc {v k : Value} (hnext : r.Next .ldc [v] k) :
      Transition r (.proceed { r with stack := v :: r.stack, control := k })
  | ldf {block k : Value} (hnext : r.Next .ldf [block] k) :
      Transition r (.proceed { r with
        store := (r.store.cons block r.env).2
        stack := .pair r.store.size :: r.stack
        control := k })
  | apClosure {f : Nat} {args k : Value} {stack : List Value} (hnext : r.Next .ap [] k)
      (hstack : r.stack = .pair f :: args :: stack) :
      Transition r (.proceed {
        store := (r.store.cons args (r.store.cell f).tail).2
        stack := []
        env := .pair r.store.size
        control := (r.store.cell f).head
        dump := r.dump.push (.call stack r.env k) })
  | apAtom {a : Atom} {args k : Value} {stack : List Value} (hnext : r.Next .ap [] k)
      (hstack : r.stack = .atom a :: args :: stack) (hatom : ∀ c, a ≠ .callable c) :
      Transition r (.fault (.notAFunction a.kind))
  | apHost {c : Callable} {args v k : Value} {stack list : List Value} {s : Store}
      (hnext : r.Next .ap [] k) (hstack : r.stack = .callable c :: args :: stack)
      (hlist : r.store.toList args = .ok list) (harity : list.length = c.arity)
      (hcall : c.call r.store list = (.ok v, s)) :
      Transition r (.proceed { r with store := s, stack := v :: stack, control := k })
  | apHostError {c : Callable} {args k : Value} {stack list : List Value} {s : Store}
      {message : String} (hnext : r.Next .ap [] k)
      (hstack : r.stack = .callable c :: args :: stack) (hlist : r.store.toList args = .ok list)
      (harity : list.length = c.arity) (hcall : c.call r.store list = (.error message, s)) :
      Transition r (.fault (.host message))
  | apHostArity {c : Callable} {args k : Value} {stack list : List Value}
      (hnext : r.Next .ap [] k) (hstack : r.stack = .callable c :: args :: stack)
      (hlist : r.store.toList args = .ok list) (harity : list.length ≠ c.arity) :
      Transition r (.fault (.arity c.name c.arity list.length))
  | apHostImproper {c : Callable} {args k : Value} {stack : List Value} {e : ValueError}
      (hnext : r.Next .ap [] k) (hstack : r.stack = .callable c :: args :: stack)
      (hlist : r.store.toList args = .error e) :
      Transition r (.fault (.argumentList e))
  | rtn {v env control k : Value} {rest stack : List Value} {dump : Array DumpEntry}
      (hnext : r.Next .rtn [] k) (hstack : r.stack = v :: rest)
      (hdump : r.dump = dump.push (.call stack env control)) :
      Transition r (.proceed ⟨r.store, v :: stack, env, control, dump⟩)
  | dum {k : Value} (hnext : r.Next .dum [] k) :
      Transition r (.proceed { r with
        store := (r.store.cons .pending r.env).2, env := .pair r.store.size, control := k })
  | rap {f c : Nat} {args k : Value} {stack : List Value} (hnext : r.Next .rap [] k)
      (hstack : r.stack = .pair f :: args :: stack) (henv : r.env = .pair c)
      (hpending : (r.store.cell c).head.isPending = true)
      (hcaptured : (r.store.cell f).tail = .pair c) :
      Transition r (.proceed {
        store := r.store.setHead c args
        stack := []
        env := .pair c
        control := (r.store.cell f).head
        dump := r.dump.push (.call stack (r.store.cell c).tail k) })
  | rapUnmatched {f : Nat} {args k : Value} {stack : List Value} (hnext : r.Next .rap [] k)
      (hstack : r.stack = .pair f :: args :: stack)
      (hnone : Action.pendingCell? r.store r.env (r.store.cell f).tail = none) :
      Transition r (.fault .unmatchedRap)
  | sel {test yes no k : Value} {stack : List Value} (hnext : r.Next .sel [yes, no] k)
      (hstack : r.stack = test :: stack) :
      Transition r (.proceed { r with
        stack := stack, control := if test.isTrue then yes else no, dump := r.dump.push (.join k) })
  | join {control k : Value} {dump : Array DumpEntry} (hnext : r.Next .join [] k)
      (hdump : r.dump = dump.push (.join control)) :
      Transition r (.proceed { r with control := control, dump := dump })
  | car {c : Nat} {k : Value} {stack : List Value} (hnext : r.Next (.unary .car) [] k)
      (hstack : r.stack = .pair c :: stack) :
      Transition r (.proceed { r with stack := (r.store.cell c).head :: stack, control := k })
  | carAtom {a : Atom} {k : Value} {stack : List Value} (hnext : r.Next (.unary .car) [] k)
      (hstack : r.stack = .atom a :: stack) :
      Transition r (.fault (.notAPair .car (.notAPair a.kind)))
  | cdr {c : Nat} {k : Value} {stack : List Value} (hnext : r.Next (.unary .cdr) [] k)
      (hstack : r.stack = .pair c :: stack) :
      Transition r (.proceed { r with stack := (r.store.cell c).tail :: stack, control := k })
  | cdrAtom {a : Atom} {k : Value} {stack : List Value} (hnext : r.Next (.unary .cdr) [] k)
      (hstack : r.stack = .atom a :: stack) :
      Transition r (.fault (.notAPair .cdr (.notAPair a.kind)))
  | atom {v k : Value} {stack : List Value} (hnext : r.Next (.unary .atom) [] k)
      (hstack : r.stack = v :: stack) :
      Transition r (.proceed { r with stack := .truth (!v.isPair) :: stack, control := k })
  | arithmetic {op : Arithmetic} {a b n : Int64} {k : Value} {stack : List Value}
      (hnext : r.Next (.binary (.arithmetic op)) [] k)
      (hstack : r.stack = .int b :: .int a :: stack) (hdivisor : ¬ (op.divides ∧ b = 0))
      (hresult : op.compute? a b = some n) :
      Transition r (.proceed { r with stack := .int n :: stack, control := k })
  | arithmeticOverflow {op : Arithmetic} {a b : Int64} {k : Value} {stack : List Value}
      (hnext : r.Next (.binary (.arithmetic op)) [] k)
      (hstack : r.stack = .int b :: .int a :: stack) (hdivisor : ¬ (op.divides ∧ b = 0))
      (hresult : op.compute? a b = none) :
      Transition r (.fault (.overflow op a b))
  | arithmeticZero {op : Arithmetic} {a b : Int64} {k : Value} {stack : List Value}
      (hnext : r.Next (.binary (.arithmetic op)) [] k)
      (hstack : r.stack = .int b :: .int a :: stack) (hdivisor : op.divides ∧ b = 0) :
      Transition r (.fault .zeroDivision)
  | arithmeticFirst {op : Arithmetic} {a k : Value} {b : Int64} {stack : List Value}
      {e : ValueError} (hnext : r.Next (.binary (.arithmetic op)) [] k)
      (hstack : r.stack = .int b :: a :: stack) (ha : a.asInt = .error e) :
      Transition r (.fault (.notAnInt e))
  | arithmeticSecond {op : Arithmetic} {b k : Value} {stack : List Value} {e : ValueError}
      (hnext : r.Next (.binary (.arithmetic op)) [] k) (hstack : r.stack = b :: stack)
      (hb : b.asInt = .error e) :
      Transition r (.fault (.notAnInt e))
  | eq {a b k : Value} {stack : List Value} (hnext : r.Next (.binary .eq) [] k)
      (hstack : r.stack = a :: b :: stack) :
      Transition r (.proceed { r with
        stack := .truth (r.store.equal a b) :: stack, control := k })
  | leq {a b : Int64} {k : Value} {stack : List Value} (hnext : r.Next (.binary .leq) [] k)
      (hstack : r.stack = .int a :: .int b :: stack) :
      Transition r (.proceed { r with stack := .truth (a ≤ b) :: stack, control := k })
  | leqFirst {a k : Value} {stack : List Value} {e : ValueError}
      (hnext : r.Next (.binary .leq) [] k) (hstack : r.stack = a :: stack)
      (ha : a.asInt = .error e) :
      Transition r (.fault (.notAnInt e))
  | leqSecond {a : Int64} {b k : Value} {stack : List Value} {e : ValueError}
      (hnext : r.Next (.binary .leq) [] k) (hstack : r.stack = .int a :: b :: stack)
      (hb : b.asInt = .error e) :
      Transition r (.fault (.notAnInt e))
  | cons {a b k : Value} {stack : List Value} (hnext : r.Next (.binary .cons) [] k)
      (hstack : r.stack = a :: b :: stack) :
      Transition r (.proceed { r with
        store := (r.store.cons a b).2, stack := .pair r.store.size :: stack, control := k })
  | stop {v k : Value} {stack : List Value} (hnext : r.Next .stop [] k)
      (hstack : r.stack = v :: stack) :
      Transition r (.stop v { r with control := k })

namespace Machine

/-- The step has the effect, and leaves the limits as they are. -/
def Obeys (m : Machine) : Effect → Prop
  | .proceed r => ∃ m', step.run m = .ok .proceed m' ∧ m'.registers = r ∧ m'.limits = m.limits
  | .stop v r => ∃ m', step.run m = .ok (.stop v) m' ∧ m'.registers = r
  | .fault f => ∃ m', step.run m = .error f m'

/-- The step that should have the effect is cut off: the run may take no more steps, or the dump has
no room for the new entry. -/
inductive CutOff (m : Machine) : Effect → Prop where
  | steps {e : Effect} {limit : Nat} (hlimit : m.limits.maxSteps = some limit)
      (hstep : step.run m = .error (.stepLimit limit) m) : CutOff m e
  | dump {r : Registers} {m' : Machine} (hfull : m.limits.maxDump < r.dump.size)
      (hstep : step.run m = .error .dumpOverflow m') : CutOff m (.proceed r)

/-- The machine after the next instruction has been fetched and counted. -/
def fetched (m : Machine) (control : Value) : Machine :=
  { m with control, stats := { m.stats with steps := m.stats.steps + 1 } }

open Secd.Action

/-- One part of a step after the other. -/
@[simp] theorem bind_apply {α β : Type} (x : Action α) (f : α → Action β) (m : Machine) :
    (x >>= f) m =
      match x m with
      | .ok a m => f a m
      | .error e m => .error e m := by
  simp only [bind, EStateM.bind]
  cases x m <;> rfl

/-- A part of a step that only gives a value. -/
@[simp] theorem pure_apply {α : Type} (a : α) (m : Machine) :
    (pure a : Action α) m = .ok a m := rfl

/-- A part of a step that only faults. -/
@[simp] theorem throw_apply {α : Type} (f : Fault) (m : Machine) :
    (throw f : Action α) m = .error f m := rfl

section

variable (m : Machine) (s : Store) (stack : List Value) (env control : Value)
  (dump : Array DumpEntry) (limits : Limits) (stats : Stats) (calls : Nat)

/-- Looking at the machine does not change it. -/
@[simp] theorem read_apply {α : Type} (f : Machine → α) :
    Action.read f m = .ok (f m) m := rfl

/-- The operand is the head of the control. -/
@[simp] theorem operand_apply (op : Opcode) (c : Nat) :
    operand op ⟨s, stack, env, .pair c, dump, limits, stats, calls⟩ =
      .ok (s.cell c).head ⟨s, stack, env, (s.cell c).tail, dump, limits, stats, calls⟩ := rfl

/-- Pushing only changes the stack. -/
@[simp] theorem push_apply (v : Value) :
    push v m = .ok () { m with stack := v :: m.stack } := rfl

/-- The top of the stack is taken from it. -/
@[simp] theorem pop_apply (v : Value) :
    pop ⟨s, v :: stack, env, control, dump, limits, stats, calls⟩ =
      .ok v ⟨s, stack, env, control, dump, limits, stats, calls⟩ := rfl

/-- Jumping only changes the control. -/
@[simp] theorem jump_apply :
    jump control m = .ok () { m with control } := rfl

/-- Entering an environment changes nothing else. -/
@[simp] theorem enter_apply : enter env m = .ok () { m with env } := rfl

/-- A function on the store only changes the store. -/
@[simp] theorem withStore_apply {α : Type} (f : Store → α × Store) :
    withStore f m = .ok (f m.store).1 { m with store := (f m.store).2 } := rfl

/-- A new pair only changes the store. -/
@[simp] theorem cons_apply (head tail : Value) :
    Action.cons head tail m =
      .ok (.pair m.store.size) { m with store := (m.store.cons head tail).2 } := rfl

/-- Nothing can be put on a dump that is full. -/
theorem save_of_full {m : Machine} (entry : DumpEntry) (hfull : m.limits.maxDump ≤ m.dump.size) :
    save entry m = .error .dumpOverflow m := by
  rw [save, if_pos hfull]

/-- An entry is put on a dump that has room. -/
theorem save_of_room {m : Machine} (entry : DumpEntry)
    (hroom : ¬ m.limits.maxDump ≤ m.dump.size) :
    save entry m = .ok () { m with dump := m.dump.push entry } := by
  rw [save, if_neg hroom]

/-- Releasing empties the stack and the control. -/
@[simp] theorem release_apply :
    release m = .ok (m.stack, m.control) { m with stack := [], control := .nil } := rfl

/-- The last entry on the dump is its top. -/
@[simp] theorem top_apply (entry : DumpEntry) :
    top ⟨s, stack, env, control, dump.push entry, limits, stats, calls⟩ =
      .ok entry ⟨s, stack, env, control, dump.push entry, limits, stats, calls⟩ := by
  simp [top]

/-- Dropping removes the top of the dump. -/
@[simp] theorem drop_apply : drop m = .ok () { m with dump := m.dump.pop } := rfl

end

/-- The machine after the sizes have been noted. -/
def measured (m : Machine) : Machine :=
  { m with stats := {
    m.stats with
    maxDumpDepth := max m.stats.maxDumpDepth m.dump.size
    maxPendingCalls := max m.stats.maxPendingCalls m.pendingCalls } }

/-- Executing an instruction has the effect, and leaves the limits as they are. -/
def Executes (m : Machine) (op : Opcode) : Effect → Prop
  | .proceed r => ∃ m', execute op m = .ok .proceed m' ∧ m'.registers = r ∧ m'.limits = m.limits
  | .stop v r => ∃ m', execute op m = .ok (.stop v) m' ∧ m'.registers = r
  | .fault f => ∃ m', execute op m = .error f m'

/-- Executing an instruction fails because the dump has no room for the new entry. -/
def Overflows (m : Machine) (op : Opcode) : Effect → Prop
  | .proceed r => m.limits.maxDump < r.dump.size ∧ ∃ m', execute op m = .error .dumpOverflow m'
  | _ => False

/-- A step executes the instruction at the head of the control, unless the limit is reached. -/
theorem step_eq_execute {m : Machine} {op : Opcode} {c : Nat} (e : Effect)
    (hcontrol : m.control = .pair c) (hhead : (m.store.cell c).head = op.value) :
    m.CutOff e ∨ step.run m =
      match execute op (m.fetched (m.store.cell c).tail) with
      | .ok flow m' => .ok flow m'.measured
      | .error f m' => .error f m' := by
  by_cases hlimit : ∃ limit, m.limits.maxSteps = some limit ∧ limit ≤ m.stats.steps
  · obtain ⟨limit, hsome, hle⟩ := hlimit
    refine .inl (.steps hsome ?_)
    simp [step, checkLimit, EStateM.run, hsome, hle]
  · right
    have hcheck : checkLimit m = .ok () m := by
      rw [checkLimit]
      split
      · next limit hsome =>
        split
        · next hle => exact absurd ⟨limit, hsome, hle⟩ hlimit
        · rfl
      · rfl
    have hvalue : Opcode.ofValue? op.value = some op := Opcode.ofName?_mnemonic op
    have hdecode : decode m = .ok op { m with control := (m.store.cell c).tail } := by
      simp [decode, fetch, hcontrol, hhead, hvalue]
    rw [step, EStateM.run, bind_apply, hcheck]
    dsimp only
    rw [bind_apply, hdecode]
    dsimp only
    rw [bind_apply, countStep]
    dsimp only
    rw [bind_apply, fetched]
    cases execute op _ <;> rfl

/-- A step has the effect of the instruction that is next, unless the dump has no room. -/
theorem obeys_of_overflows_or_executes {m : Machine} {op : Opcode}
    {operands : List Value} {k : Value} {e : Effect} (hnext : m.registers.Next op operands k)
    (hexecute : ∀ rest, m.store.Starts rest operands k →
      (m.fetched rest).Overflows op e ∨ (m.fetched rest).Executes op e) :
    m.CutOff e ∨ m.Obeys e := by
  obtain ⟨c, hcontrol, hhead, hrest⟩ := hnext
  rcases step_eq_execute e hcontrol hhead with hcut | hstep
  · exact .inl hcut
  rcases hexecute (m.store.cell c).tail hrest with hoverflow | hexecute
  · cases e with
    | proceed r =>
      obtain ⟨hfull, m', hoverflow⟩ := hoverflow
      rw [hoverflow] at hstep
      exact .inl (.dump hfull hstep)
    | _ => cases hoverflow
  · right
    cases e with
    | proceed r =>
      obtain ⟨m', hok, hr, hlimits⟩ := hexecute
      rw [hok] at hstep
      exact ⟨_, hstep, hr, hlimits⟩
    | stop v r =>
      obtain ⟨m', hok, hr⟩ := hexecute
      rw [hok] at hstep
      exact ⟨_, hstep, hr⟩
    | fault f =>
      obtain ⟨m', herror⟩ := hexecute
      rw [herror] at hstep
      exact ⟨_, hstep⟩

/-- A step has the effect of the instruction that is next. -/
theorem obeys_of_executes {m : Machine} {op : Opcode} {operands : List Value} {k : Value}
    {e : Effect} (hnext : m.registers.Next op operands k)
    (hexecute : ∀ rest, m.store.Starts rest operands k → (m.fetched rest).Executes op e) :
    m.CutOff e ∨ m.Obeys e :=
  obeys_of_overflows_or_executes hnext fun rest hrest => .inr (hexecute rest hrest)

/-- A step has the effect of the instruction that is next, if that has no operands. -/
theorem obeys_of_executes_bare {m : Machine} {op : Opcode} {k : Value} {e : Effect}
    (hnext : m.registers.Next op [] k) (hexecute : (m.fetched k).Executes op e) :
    m.CutOff e ∨ m.Obeys e := by
  refine obeys_of_executes hnext fun rest hrest => ?_
  obtain rfl := hrest
  exact hexecute

/-- A step has the effect of the instruction that is next, if that has one operand. -/
theorem obeys_of_executes_operand {m : Machine} {op : Opcode} {operand k : Value} {e : Effect}
    (hnext : m.registers.Next op [operand] k)
    (hexecute : ∀ c, (m.store.cell c).head = operand → (m.store.cell c).tail = k →
      (m.fetched (.pair c)).Executes op e) :
    m.CutOff e ∨ m.Obeys e := by
  refine obeys_of_executes hnext fun rest hrest => ?_
  obtain ⟨c, rfl, hhead, htail⟩ := hrest
  exact hexecute c hhead htail

/-- The machine follows the rules, up to its limits. -/
theorem obeys_of_transition {m : Machine} {e : Effect} (h : Transition m.registers e) :
    m.CutOff e ∨ m.Obeys e := by
  obtain ⟨s, S, E, C, D, limits, stats, calls⟩ := m
  simp only [registers] at h
  cases h with
  | ld hnext haddress hframe hready hslot =>
    refine obeys_of_executes_operand hnext ?_
    rintro c rfl rfl
    dsimp only at haddress hframe hslot
    simp [Executes, execute, ld, fetched, registers, haddress, hframe, hready, hslot]
  | ldNoFrame hnext haddress hframe =>
    refine obeys_of_executes_operand hnext ?_
    rintro c rfl rfl
    dsimp only at haddress hframe
    simp [Executes, execute, ld, fetched, haddress, hframe]
  | ldPending hnext haddress hframe hpending =>
    refine obeys_of_executes_operand hnext ?_
    rintro c rfl rfl
    dsimp only at haddress hframe
    simp [Executes, execute, ld, fetched, haddress, hframe, hpending]
  | ldNoSlot hnext haddress hframe hready hslot =>
    refine obeys_of_executes_operand hnext ?_
    rintro c rfl rfl
    dsimp only at haddress hframe hslot
    simp [Executes, execute, ld, fetched, haddress, hframe, hready, hslot]
  | ldc hnext =>
    refine obeys_of_executes_operand hnext ?_
    rintro c rfl rfl
    simp [Executes, execute, ldc, fetched, registers]
  | ldf hnext =>
    refine obeys_of_executes_operand hnext ?_
    rintro c rfl rfl
    simp [Executes, execute, ldf, fetched, registers]
  | apClosure hnext hstack =>
    refine obeys_of_overflows_or_executes hnext ?_
    intro rest hrest
    obtain rfl := hrest
    subst hstack
    by_cases hfull : limits.maxDump ≤ D.size
    · left
      simp [Overflows, execute, ap, Action.closure, fetched, save_of_full, hfull,
        Nat.lt_add_one_of_le hfull]
    · right
      simp [Executes, execute, ap, Action.closure, fetched, save_of_room, openCall, registers,
        hfull]
  | @apAtom a _ _ _ hnext hstack hatom =>
    refine obeys_of_executes_bare hnext ?_
    subst hstack
    cases a with
    | callable c => exact absurd rfl (hatom c)
    | _ => simp [Executes, execute, ap, Action.closure, fetched]
  | apHost hnext hstack hlist harity hcall =>
    refine obeys_of_executes_bare hnext ?_
    dsimp only at hlist hcall
    subst hstack
    simp [Executes, execute, ap, callHost, fetched, registers, hlist, harity, hcall]
  | apHostError hnext hstack hlist harity hcall =>
    refine obeys_of_executes_bare hnext ?_
    dsimp only at hlist hcall
    subst hstack
    simp [Executes, execute, ap, callHost, fetched, hlist, harity, hcall]
  | apHostArity hnext hstack hlist harity =>
    refine obeys_of_executes_bare hnext ?_
    dsimp only at hlist
    subst hstack
    simp [Executes, execute, ap, callHost, fetched, hlist, harity]
  | apHostImproper hnext hstack hlist =>
    refine obeys_of_executes_bare hnext ?_
    dsimp only at hlist
    subst hstack
    simp [Executes, execute, ap, callHost, fetched, hlist]
  | rtn hnext hstack hdump =>
    refine obeys_of_executes_bare hnext ?_
    subst hstack hdump
    simp [Executes, execute, rtn, fetched, restore, closeCall, registers]
  | dum hnext =>
    refine obeys_of_executes_bare hnext ?_
    simp [Executes, execute, dum, fetched, registers]
  | rap hnext hstack henv hpending hcaptured =>
    refine obeys_of_overflows_or_executes hnext ?_
    intro rest hrest
    dsimp only at hpending hcaptured
    obtain rfl := hrest
    subst hstack henv
    by_cases hfull : limits.maxDump ≤ D.size
    · left
      simp [Overflows, execute, rap, Action.closure, pendingCell?, fetched, save_of_full, hpending,
        hcaptured, hfull, Nat.lt_add_one_of_le hfull]
    · right
      simp [Executes, execute, rap, Action.closure, pendingCell?, fetched, save_of_room, openCall,
        registers, hpending, hcaptured, hfull, Store.tail_cell_setHead]
  | rapUnmatched hnext hstack hnone =>
    refine obeys_of_executes_bare hnext ?_
    dsimp only at hnone
    subst hstack
    simp [Executes, execute, rap, Action.closure, fetched, hnone]
  | sel hnext hstack =>
    refine obeys_of_overflows_or_executes hnext ?_
    intro rest hrest
    obtain ⟨c, rfl, rfl, d, htail, rfl, rfl⟩ := hrest
    subst hstack
    by_cases hfull : limits.maxDump ≤ D.size
    · left
      simp [Overflows, execute, sel, fetched, save_of_full, htail, hfull,
        Nat.lt_add_one_of_le hfull]
    · right
      simp [Executes, execute, sel, fetched, save_of_room, registers, htail, hfull]
  | join hnext hdump =>
    refine obeys_of_executes_bare hnext ?_
    subst hdump
    simp [Executes, execute, join, fetched, registers]
  | car hnext hstack =>
    refine obeys_of_executes_bare hnext ?_
    subst hstack
    simp [Executes, execute, unary, part, fetched, registers, Store.head, Store.asPair, Except.map]
  | carAtom hnext hstack =>
    refine obeys_of_executes_bare hnext ?_
    subst hstack
    simp [Executes, execute, unary, part, fetched, Store.head, Store.asPair, Except.map]
  | cdr hnext hstack =>
    refine obeys_of_executes_bare hnext ?_
    subst hstack
    simp [Executes, execute, unary, part, fetched, registers, Store.tail, Store.asPair, Except.map]
  | cdrAtom hnext hstack =>
    refine obeys_of_executes_bare hnext ?_
    subst hstack
    simp [Executes, execute, unary, part, fetched, Store.tail, Store.asPair, Except.map]
  | atom hnext hstack =>
    refine obeys_of_executes_bare hnext ?_
    subst hstack
    simp [Executes, execute, unary, fetched, registers]
  | arithmetic hnext hstack hdivisor hresult =>
    refine obeys_of_executes_bare hnext ?_
    subst hstack
    simp [Executes, execute, binary, Action.arithmetic, popInt, fetched, registers, hdivisor,
      hresult]
  | arithmeticOverflow hnext hstack hdivisor hresult =>
    refine obeys_of_executes_bare hnext ?_
    subst hstack
    simp [Executes, execute, binary, Action.arithmetic, popInt, fetched, hdivisor, hresult]
  | arithmeticZero hnext hstack hdivisor =>
    refine obeys_of_executes_bare hnext ?_
    subst hstack
    simp [Executes, execute, binary, Action.arithmetic, popInt, fetched, hdivisor]
  | arithmeticFirst hnext hstack ha =>
    refine obeys_of_executes_bare hnext ?_
    subst hstack
    simp [Executes, execute, binary, Action.arithmetic, popInt, fetched, ha]
  | arithmeticSecond hnext hstack hb =>
    refine obeys_of_executes_bare hnext ?_
    subst hstack
    simp [Executes, execute, binary, Action.arithmetic, popInt, fetched, hb]
  | eq hnext hstack =>
    refine obeys_of_executes_bare hnext ?_
    subst hstack
    simp [Executes, execute, binary, fetched, registers]
  | leq hnext hstack =>
    refine obeys_of_executes_bare hnext ?_
    subst hstack
    simp [Executes, execute, binary, popInt, fetched, registers]
  | leqFirst hnext hstack ha =>
    refine obeys_of_executes_bare hnext ?_
    subst hstack
    simp [Executes, execute, binary, popInt, fetched, ha]
  | leqSecond hnext hstack hb =>
    refine obeys_of_executes_bare hnext ?_
    subst hstack
    simp [Executes, execute, binary, popInt, fetched, hb]
  | cons hnext hstack =>
    refine obeys_of_executes_bare hnext ?_
    subst hstack
    simp [Executes, execute, binary, fetched, registers]
  | stop hnext hstack =>
    refine obeys_of_executes_bare hnext ?_
    subst hstack
    simp [Executes, execute, stop, fetched, registers]

/-! ### The effect behind a result -/

/-- A step that goes on has the effect of the rule that applies. -/
theorem effect_of_proceed {m m' : Machine} {e : Effect} (h : Transition m.registers e)
    (hstep : step.run m = .ok .proceed m') : e = .proceed m'.registers := by
  rcases obeys_of_transition h with hcut | hobeys
  · cases hcut with
    | steps _ hfault => cases hfault.symm.trans hstep
    | dump _ hfault => cases hfault.symm.trans hstep
  · cases e with
    | proceed r =>
      obtain ⟨m'', hrun, rfl, -⟩ := hobeys
      cases hrun.symm.trans hstep
      rfl
    | stop v r =>
      obtain ⟨m'', hrun, -⟩ := hobeys
      cases hrun.symm.trans hstep
    | fault f =>
      obtain ⟨m'', hrun⟩ := hobeys
      cases hrun.symm.trans hstep

/-- A step that stops has the effect of the rule that applies. -/
theorem effect_of_stop {m m' : Machine} {e : Effect} {v : Value} (h : Transition m.registers e)
    (hstep : step.run m = .ok (.stop v) m') : e = .stop v m'.registers := by
  rcases obeys_of_transition h with hcut | hobeys
  · cases hcut with
    | steps _ hfault => cases hfault.symm.trans hstep
    | dump _ hfault => cases hfault.symm.trans hstep
  · cases e with
    | proceed r =>
      obtain ⟨m'', hrun, -⟩ := hobeys
      cases hrun.symm.trans hstep
    | stop w r =>
      obtain ⟨m'', hrun, rfl⟩ := hobeys
      cases hrun.symm.trans hstep
      rfl
    | fault f =>
      obtain ⟨m'', hrun⟩ := hobeys
      cases hrun.symm.trans hstep

/-- A step that faults has the effect of the rule that applies, or is cut off. -/
theorem effect_of_fault {m m' : Machine} {e : Effect} {f : Fault} (h : Transition m.registers e)
    (hstep : step.run m = .error f m') : m.CutOff e ∨ e = .fault f := by
  refine (obeys_of_transition h).imp_right fun hobeys => ?_
  cases e with
  | proceed r =>
    obtain ⟨m'', hrun, -⟩ := hobeys
    cases hrun.symm.trans hstep
  | stop v r =>
    obtain ⟨m'', hrun, -⟩ := hobeys
    cases hrun.symm.trans hstep
  | fault f' =>
    obtain ⟨m'', hrun⟩ := hobeys
    cases hrun.symm.trans hstep
    rfl

end Machine

end Secd
