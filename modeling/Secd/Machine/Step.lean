import Secd.Machine
import Secd.Scope
import Secd.Store.Equality
import Secd.Store.Printer

/-!
# One step of the machine

A step fetches the next instruction and executes it. Executing takes the operands from the control
and the stack one after the other, and a fault leaves the machine as it is at that moment: what has
been taken stays taken. The store is only ever extended, except by `RAP`, which gives the pending
frame at the head of the environment its values.
-/

namespace Secd

/-- Whether the machine goes on after a step, or has stopped with a result. -/
inductive Flow where
  | proceed
  | stop (result : Value)
deriving Repr

/-- A part of a step: it may change the machine, and may fault. -/
abbrev Action := EStateM Fault Machine

namespace Action

/-! ## Registers -/

/-- Lets a function work on the store. -/
@[inline] def withStore {α : Type} (f : Store → α × Store) : Action α := fun
  | ⟨store, stack, env, control, dump, limits, stats, calls⟩ =>
    match f store with
    | (a, store) => .ok a ⟨store, stack, env, control, dump, limits, stats, calls⟩

/-- A value computed from the machine. -/
@[inline] def read {α : Type} (f : Machine → α) : Action α := fun m => .ok (f m) m

/-- The next item of the control, which is then gone from it. -/
def fetch : Action (Option Value) := fun m =>
  match m.control with
  | .pair c =>
    let cell := m.store.cell c
    .ok (some cell.head) { m with control := cell.tail }
  | .atom _ => .ok none m

/-- The next operand of an instruction. -/
def operand (op : Opcode) : Action Value := do
  match ← fetch with
  | some v => pure v
  | none => throw (.missingOperand op)

/-- Puts a value on the stack. -/
def push (v : Value) : Action Unit := fun m => .ok () { m with stack := v :: m.stack }

/-- Takes the top of the stack. -/
def pop : Action Value := fun m =>
  match m.stack with
  | v :: rest => .ok v { m with stack := rest }
  | [] => .error .stackUnderflow m

/-- Takes the top of the stack, which has to be an integer. -/
def popInt : Action Int64 := do
  match (← pop).asInt with
  | .ok n => pure n
  | .error e => throw (.notAnInt e)

/-- Makes `control` the code to be executed next. -/
def jump (control : Value) : Action Unit := fun m => .ok () { m with control := control }

/-- Makes `env` the environment. -/
def enter (env : Value) : Action Unit := fun m => .ok () { m with env := env }

/-- A new pair. -/
def cons (head tail : Value) : Action Value := withStore fun s => s.cons head tail

/-! ## The dump -/

/-- Puts an entry on the dump, unless that is full. -/
def save (entry : DumpEntry) : Action Unit := fun
  | ⟨store, stack, env, control, dump, limits, stats, calls⟩ =>
    if limits.maxDump ≤ dump.size then
      .error .dumpOverflow ⟨store, stack, env, control, dump, limits, stats, calls⟩
    else
      .ok () ⟨store, stack, env, control, dump.push entry, limits, stats, calls⟩

/-- The top entry of the dump. -/
def top : Action DumpEntry := fun m =>
  match m.dump.back? with
  | some entry => .ok entry m
  | none => .error .dumpUnderflow m

/-- Removes the top entry of the dump. -/
def drop : Action Unit := fun
  | ⟨store, stack, env, control, dump, limits, stats, calls⟩ =>
    .ok () ⟨store, stack, env, control, dump.pop, limits, stats, calls⟩

/-- Empties the stack and the control, and gives what they held. -/
def release : Action (List Value × Value) := fun
  | ⟨store, stack, env, control, dump, limits, stats, calls⟩ =>
    .ok (stack, control) ⟨store, [], env, .nil, dump, limits, stats, calls⟩

/-- Puts back the registers of a caller. -/
def restore (stack : List Value) (env control : Value) : Action Unit := fun m =>
  .ok () { m with stack := stack, env := env, control := control }

/-- Notes one more call that has not returned. -/
def openCall : Action Unit := fun m => .ok () { m with pendingCalls := m.pendingCalls + 1 }

/-- Notes one call less that has not returned. -/
def closeCall : Action Unit := fun m => .ok () { m with pendingCalls := m.pendingCalls - 1 }

/-! ## Instructions -/

/-- `LD (i . j)` pushes slot `j` of frame `i` of the environment. -/
def ld : Action Unit := do
  let operand ← operand .ld
  match ← read fun m => Address.ofValue m.store operand with
  | .error e => throw (.address e)
  | .ok a =>
    match ← read fun m => m.store.nth m.env a.frame with
    | .error _ => throw (.noFrame a.frame)
    | .ok frame =>
      if frame.isPending then
        throw .pendingFrame
      else
        match ← read fun m => m.store.nth frame a.slot with
        | .error _ => throw (.noSlot a.frame a.slot)
        | .ok v => push v

/-- `LDC x` pushes the constant `x`. -/
def ldc : Action Unit := do push (← operand .ldc)

/-- `LDF c` pushes the closure of the block `c`: the pair of the block and the environment. -/
def ldf : Action Unit := do
  let body ← operand .ldf
  push (← cons body (← read Machine.env))

/-- The block and the environment of a closure. -/
def closure (f : Value) : Action Cell := do
  match f with
  | .pair c => read fun m => m.store.cell c
  | .atom a => throw (.notAFunction a.kind)

/-- Applies a host callable to a list of arguments. -/
def callHost (c : Callable) (args : Value) : Action Unit := do
  match ← read fun m => m.store.toList args with
  | .error e => throw (.argumentList e)
  | .ok args =>
    if args.length = c.arity then
      match ← withStore fun s => c.call s args with
      | .ok v => push v
      | .error message => throw (.host message)
    else
      throw (.arity c.name c.arity args.length)

/-- `AP` takes a function and a list of arguments. A closure runs in its own environment with the
arguments as a new frame; the registers of the caller go to the dump. -/
def ap : Action Unit := do
  let f ← pop
  let args ← pop
  match f with
  | .callable c => callHost c args
  | f =>
    let parts ← closure f
    let env ← read Machine.env
    let (stack, control) ← release
    enter .nil
    save (.call stack env control)
    enter (← cons args parts.tail)
    jump parts.head
    openCall

/-- `RTN` takes the result and restores the registers of the caller, with the result on the
stack. -/
def rtn : Action Unit := do
  let result ← pop
  match ← top with
  | .join _ => throw .returnFromBranch
  | .call stack env control =>
    drop
    restore (result :: stack) env control
    closeCall

/-- `DUM` puts a pending frame in front of the environment. -/
def dum : Action Unit := do enter (← cons .pending (← read Machine.env))

/-- The cell of the environment `env` if its first frame is pending and a closure has captured this
very cell. -/
def pendingCell? (s : Store) (env captured : Value) : Option Nat :=
  match env, captured with
  | .pair c, .pair d => if (s.cell c).head.isPending ∧ c = d then some c else none
  | _, _ => none

/-- `RAP` takes a function and a list of arguments. The environment of the function has to be that
of the machine, with the pending frame of a `DUM` at its head: the arguments become that frame, so
that closures among them see each other. The caller gets back the environment before the `DUM`. -/
def rap : Action Unit := do
  let f ← pop
  let args ← pop
  let parts ← closure f
  let env ← read Machine.env
  match ← read fun m => pendingCell? m.store env parts.tail with
  | none => throw .unmatchedRap
  | some c =>
    withStore fun s => ((), s.setHead c args)
    let outer ← read fun m => (m.store.cell c).tail
    let (stack, control) ← release
    save (.call stack outer control)
    enter parts.tail
    jump parts.head
    openCall

/-- `SEL c d` takes a truth value and goes on with the branch `c` or `d`; the code after the
instruction goes to the dump. -/
def sel : Action Unit := do
  let yes ← operand .sel
  let no ← operand .sel
  let test ← pop
  let rest ← read Machine.control
  jump .nil
  save (.join rest)
  jump (if test.isTrue then yes else no)

/-- `JOIN` goes on with the code after the conditional. -/
def join : Action Unit := do
  match ← top with
  | .call _ _ _ => throw .joinFromCall
  | .join control =>
    drop
    jump control

/-- Replaces the pair on top of the stack by a part of it. -/
def part (op : Unary) (select : Store → Value → Except ValueError Value) : Action Unit := do
  let v ← pop
  match ← read fun m => select m.store v with
  | .ok v => push v
  | .error e => throw (.notAPair op e)

/-- The operations with one operand replace the top of the stack. -/
def unary : Unary → Action Unit
  | .car => part .car Store.head
  | .cdr => part .cdr Store.tail
  | .atom => do push (.truth !(← pop).isPair)

/-- The operations on integers take the second operand from the top of the stack and the first one
from below it. -/
def arithmetic (op : Arithmetic) : Action Unit := do
  let b ← popInt
  let a ← popInt
  if op.divides ∧ b = 0 then
    throw .zeroDivision
  else
    match op.compute? a b with
    | some n => push (.int n)
    | none => throw (.overflow op a b)

/-- The other operations take the first operand from the top of the stack. -/
def binary : Binary → Action Unit
  | .arithmetic op => arithmetic op
  | .eq => do
    let a ← pop
    let b ← pop
    push (.truth (← read fun m => m.store.equal a b))
  | .leq => do
    let a ← popInt
    let b ← popInt
    push (.truth (a ≤ b))
  | .cons => do
    let head ← pop
    let tail ← pop
    push (← cons head tail)

/-- `STOP` shows the top of the stack as the result. -/
def stop : Action Flow := fun m =>
  match m.stack with
  | v :: _ => .ok (.stop v) m
  | [] => .error .stackUnderflow m

/-- Executes an instruction. -/
def execute (op : Opcode) : Action Flow :=
  match op with
  | .stop => stop
  | .ld => do ld; pure .proceed
  | .ldc => do ldc; pure .proceed
  | .ldf => do ldf; pure .proceed
  | .ap => do ap; pure .proceed
  | .rtn => do rtn; pure .proceed
  | .dum => do dum; pure .proceed
  | .rap => do rap; pure .proceed
  | .sel => do sel; pure .proceed
  | .join => do join; pure .proceed
  | .unary op => do unary op; pure .proceed
  | .binary op => do binary op; pure .proceed

/-! ## The step -/

/-- Faults if the run has taken as many steps as it may. -/
def checkLimit : Action Unit := fun m =>
  match m.limits.maxSteps with
  | some limit => if limit ≤ m.stats.steps then .error (.stepLimit limit) m else .ok () m
  | none => .ok () m

/-- Counts a step. -/
def countStep : Action Unit := fun m =>
  .ok () { m with stats := { m.stats with steps := m.stats.steps + 1 } }

/-- Notes how large the dump and the number of calls have grown. -/
def countDepth : Action Unit := fun m =>
  .ok () { m with stats := {
    m.stats with
    maxDumpDepth := max m.stats.maxDumpDepth m.dump.size
    maxPendingCalls := max m.stats.maxPendingCalls m.pendingCalls } }

/-- The instruction that is next in the control. -/
def decode : Action Opcode := do
  match ← fetch with
  | none => throw .missingStop
  | some v =>
    match Opcode.ofValue? v with
    | some op => pure op
    | none => throw (.unknownInstruction (← read fun m => m.store.render v))

end Action

/-- Executes one instruction. An instruction is counted as soon as it is known; the sizes are noted
after it has been executed without a fault. -/
def Machine.step : Action Flow := do
  Action.checkLimit
  let op ← Action.decode
  Action.countStep
  let flow ← Action.execute op
  Action.countDepth
  pure flow

end Secd
