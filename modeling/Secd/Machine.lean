import Secd.Machine.Fault

/-!
# The state of the machine

The machine has four registers: the stack of intermediate values, the environment (a list of
frames, each of them a list of values), the control (the list of instructions still to be executed),
and the dump, which holds what is to be restored when a function returns or a branch ends. Values
live in the store that the machine carries along.
-/

namespace Secd

/-- What is restored later. -/
inductive DumpEntry where
  /-- The registers of the caller, restored by `RTN`. -/
  | call (stack : List Value) (env control : Value)
  /-- The code after a conditional, restored by `JOIN`. -/
  | join (control : Value)
deriving Repr

/-- Whether the entry belongs to a call. -/
def DumpEntry.isCall : DumpEntry → Bool
  | .call _ _ _ => true
  | .join _ => false

/-- The limits of a run: how many steps it may take, if that is limited, and how many entries the
dump may hold. -/
structure Limits where
  maxSteps : Option Nat := none
  maxDump : Nat := 1000000
deriving DecidableEq, Repr, Inhabited

/-- What is counted during a run. -/
structure Stats where
  steps : Nat := 0
  maxDumpDepth : Nat := 0
  /-- The largest number of calls that had not returned. -/
  maxPendingCalls : Nat := 0
deriving DecidableEq, Repr, Inhabited

/-- A machine. The last entry of the dump is its top. -/
structure Machine where
  store : Store
  stack : List Value
  env : Value
  control : Value
  dump : Array DumpEntry
  limits : Limits
  stats : Stats
  pendingCalls : Nat
deriving Inhabited

namespace Machine

/-- A machine with nothing to do. -/
def idle (store : Store) (limits : Limits) : Machine :=
  ⟨store, [], .nil, .nil, #[], limits, {}, 0⟩

/-- Begins a run: the list of arguments is the only value on the stack, the dump is empty, and the
counters are reset. -/
def load (m : Machine) (code args env : Value) : Machine :=
  match m with
  | ⟨store, _, _, _, _, limits, _, _⟩ => ⟨store, [args], env, code, #[], limits, {}, 0⟩

end Machine

end Secd
