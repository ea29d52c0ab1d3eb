import Secd.Store

/-!
# Host primitives

The functions that the host offers to programs. Each has a fixed number of parameters, at most
four. A *prelude* makes callables out of them: their names are the outermost frame of the scopes
when a program is compiled, and the callables, in the same order, are the outermost frame of the
environment when it runs.
-/

namespace Secd

namespace Primitive

/-- All primitives, in the order of the prelude. -/
def all : List Primitive :=
  [.zero, .neg, .abs, .null, .length, .max, .min, .list, .sum]

/-- The name under which programs call the primitive. -/
def name : Primitive → String
  | .zero => "ZERO"
  | .neg => "NEG"
  | .abs => "ABS"
  | .null => "NULL"
  | .length => "LENGTH"
  | .max => "MAX"
  | .min => "MIN"
  | .list => "LIST3"
  | .sum => "SUM4"

/-- The names of the parameters, as the description of the primitive shows them. -/
def params : Primitive → List String
  | .zero => []
  | .neg | .abs | .null => ["x"]
  | .length => ["list"]
  | .max | .min => ["a", "b"]
  | .list => ["a", "b", "c"]
  | .sum => ["a", "b", "c", "d"]

/-- The number of parameters. -/
def arity (p : Primitive) : Nat := p.params.length

/-- The primitive with a given name. -/
def ofName? (name : String) : Option Primitive :=
  all.find? fun p => p.name == name

/-- How the primitive is described to a user. -/
def describe (p : Primitive) : String :=
  "  " ++ p.name ++ "/" ++ toString p.arity ++ "  (" ++ String.intercalate " " p.params ++ ")"

/-! ## What they compute -/

/-- An argument that has to be an integer. -/
def intArg (p : Primitive) (v : Value) : Except String Int64 :=
  v.asInt.mapError fun e => p.name ++ ": " ++ e.message

/-- A result that has to be a machine integer. -/
def intResult (p : Primitive) : Option Int64 → Except String Value
  | some n => .ok (.int n)
  | none => .error (p.name ++ ": integer overflow")

/-- Adds integers from left to right; the first argument that is none, or the first sum that is too
large, is the fault. -/
def sumFrom (p : Primitive) (total : Int64) : List Value → Except String Value
  | [] => .ok (.int total)
  | v :: vs => do
    let n ← p.intArg v
    match Integer.add? total n with
    | some total => p.sumFrom total vs
    | none => p.intResult none

/-- The message for a wrong number of arguments. -/
def arityMessage (name : String) (expected got : Nat) : String :=
  name ++ " expects " ++ toString expected ++ " argument(s), got " ++ toString got

/-- The result of a primitive that makes no list. -/
def compute (p : Primitive) (s : Store) (args : List Value) : Except String Value :=
  match p, args with
  | .zero, [] => .ok (.int 0)
  | .neg, [x] => do p.intResult (Integer.neg? (← p.intArg x))
  | .abs, [x] => do p.intResult (Integer.abs? (← p.intArg x))
  | .null, [x] => .ok (.truth x.isNil)
  | .length, [x] =>
    match s.length x with
    | .ok n => .ok (.int (Int64.ofNat n))
    | .error e => .error (p.name ++ ": " ++ e.message)
  | .max, [x, y] => do
    let m ← p.intArg x
    let n ← p.intArg y
    .ok (.int (if m ≤ n then n else m))
  | .min, [x, y] => do
    let m ← p.intArg x
    let n ← p.intArg y
    .ok (.int (if m ≤ n then m else n))
  | .sum, [w, x, y, z] => p.sumFrom 0 [w, x, y, z]
  | p, args => .error (arityMessage p.name p.arity args.length)

/-- The result of a primitive; only the list of the arguments takes new cells. -/
def apply (p : Primitive) (s : Store) (args : List Value) : Except String Value × Store :=
  match p with
  | .list =>
    match s.list args with
    | (v, s) => (.ok v, s)
  | p => (p.compute s args, s)

end Primitive

/-- Calls a host callable. -/
def Callable.call (c : Callable) (s : Store) (args : List Value) : Except String Value × Store :=
  if args.length = c.arity then
    c.primitive.apply s args
  else
    (.error (Primitive.arityMessage c.name c.arity args.length), s)

/-- A new callable of a primitive, under the name of the primitive. -/
def Store.primitive (s : Store) (p : Primitive) : Callable × Store :=
  s.callable p.name p.arity p

/-- The callables of the outermost frame. -/
structure Prelude where
  entries : List Callable
deriving Repr

namespace Prelude

/-- New callables of the given primitives. -/
def ofList (s : Store) : List Primitive → Prelude × Store
  | [] => (⟨[]⟩, s)
  | p :: ps =>
    match s.primitive p with
    | (c, s) =>
      match ofList s ps with
      | (prelude, s) => (⟨c :: prelude.entries⟩, s)

/-- A prelude of all primitives. -/
def standard (s : Store) : Prelude × Store := ofList s Primitive.all

/-- The names of the outermost frame. -/
def names (p : Prelude) : List String := p.entries.map Callable.name

/-- The number of parameters of the callable with a given name. -/
def arityOf? (p : Prelude) (name : String) : Option Nat :=
  (p.entries.find? fun c => c.name == name).map Callable.arity

/-- The environment that consists of the outermost frame alone. -/
def env (p : Prelude) (s : Store) : Value × Store :=
  match s.list (p.entries.map Value.callable) with
  | (frame, s) => s.list [frame]

end Prelude

end Secd
