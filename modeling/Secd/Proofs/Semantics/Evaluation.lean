import Secd.Machine.Fault
import Secd.Proofs.Sexp.Phrase

/-!
# The meaning of expressions

A reference evaluator for the language, which knows nothing of code and machines. Values are trees
over atoms and closures; a closure is a function with its lexical environment. An environment is a
list of frames, each with the names that it binds and the place of its values in a memory. There is
a memory because the frame of a `LETREC` gets its values after closures have captured it.

An evaluation is given some fuel, for the depth to which evaluations may be nested. It may be
interrupted by a fault, or because it does what the language leaves open: it takes a closure apart,
compares a closure with something that is no atom, or applies a pair.
-/

namespace Secd

/-- A frame of a lexical environment: its names, and where the memory has its values. -/
structure LexicalFrame where
  names : List String
  index : Nat

/-- The frames in scope, the innermost one first. -/
abbrev LexicalEnv := List LexicalFrame

/-- The values of expressions. -/
inductive Meaning where
  | atom (a : Atom)
  | pair (head tail : Meaning)
  | closure (params : List String) (body : Sexp) (env : LexicalEnv)

namespace Meaning

/-- The empty list. -/
@[match_pattern] abbrev nil : Meaning := .atom .nil

/-- An integer. -/
@[match_pattern] abbrev int (n : Int64) : Meaning := .atom (.int n)

/-- A truth value. -/
def truth (b : Bool) : Meaning := .atom (.symbol (if b then "T" else "F"))

/-- Only the symbol `T` is true. -/
def isTrue : Meaning → Bool
  | .atom (.symbol name) => name == "T"
  | _ => false

/-- Only the empty list is the empty list. -/
def isNil : Meaning → Bool
  | .nil => true
  | _ => false

/-- Closures cannot be told from pairs. -/
def kind : Meaning → Kind
  | .atom a => a.kind
  | _ => .pair

/-- The datum that an expression is. -/
def ofSexp : Sexp → Meaning
  | .atom a => .atom a
  | .pair _ head tail => .pair (ofSexp head) (ofSexp tail)

/-- The list of the given values. -/
def list : List Meaning → Meaning
  | [] => .nil
  | x :: xs => .pair x (list xs)

/-- The number of items of a list, and the atom in which it ends, unless it ends in a closure. -/
def spine : Meaning → Nat × Option Atom
  | .atom a => (0, some a)
  | .pair _ tail => (tail.spine.1 + 1, tail.spine.2)
  | .closure _ _ _ => (0, none)

/-- Whether two values are equal. There is no answer if a closure would have to be compared with a
closure or a pair. -/
def equal? : Meaning → Meaning → Option Bool
  | .atom a, .atom b => some (a.same b)
  | .atom _, _ => some false
  | _, .atom _ => some false
  | .pair a b, .pair c d =>
    match equal? a c with
    | some true => equal? b d
    | answer => answer
  | _, _ => none

end Meaning

/-- Why an evaluation has no value. -/
inductive Interruption where
  | fault (kind : FaultKind)
  /-- A closure is taken apart or compared, or a pair is applied. -/
  | outside
  /-- Evaluations are nested more deeply than there is fuel for. -/
  | fuel
  /-- The expression is none of the language. -/
  | malformed

/-- The values of all frames, where those of a pending `LETREC` frame are missing. -/
abbrev Memory := List (Option (List Meaning))

/-- Computations that may change the memory. -/
abbrev Evaluation := StateT Memory (Except Interruption)

/-- The computation is interrupted by a fault. -/
def Interruption.because {α : Type} (kind : FaultKind) : Except Interruption α :=
  .error (.fault kind)

open Interruption (because)

/-- The value in a slot of a frame. -/
def Memory.value (memory : Memory) (index slot : Nat) : Except Interruption Meaning :=
  match memory[index]? with
  | some (some xs) =>
    match xs[slot]? with
    | some x => .ok x
    | none => because .environmentUnderflow
  | some none => because .pendingFrame
  | none => .error .malformed

namespace Evaluation

/-- Takes a result that does not depend on the memory. -/
def of {α : Type} (result : Except Interruption α) : Evaluation α := fun memory =>
  result.map fun a => (a, memory)

/-- A frame gets a new place in the memory, which is the result. -/
def allocate (values : Option (List Meaning)) : Evaluation Nat := fun memory =>
  .ok (memory.length, memory ++ [values])

/-- A pending frame gets its values. -/
def fill (index : Nat) (values : List Meaning) : Evaluation Unit := fun memory =>
  .ok ((), memory.set index (some values))

/-- The value in a slot of a frame. -/
def read (index slot : Nat) : Evaluation Meaning := fun memory =>
  of (memory.value index slot) memory

end Evaluation

open Evaluation

/-- The value of a variable: the innermost frame with its name has it, at the first place of the
name there. -/
def LexicalEnv.lookup (name : String) : LexicalEnv → Evaluation Meaning
  | [] => throw .malformed
  | frame :: outer =>
    match frame.names.idxOf? name with
    | some slot => read frame.index slot
    | none => lookup name outer

/-! ### Operations -/

/-- A value that has to be an integer. -/
def Meaning.asInt : Meaning → Except Interruption Int64
  | .int n => .ok n
  | _ => because (.typeError .int)

/-- The result of an operation with one operand. -/
def Unary.denote : Unary → Meaning → Except Interruption Meaning
  | .atom, .atom _ => .ok (.truth true)
  | .atom, _ => .ok (.truth false)
  | .car, .pair head _ => .ok head
  | .cdr, .pair _ tail => .ok tail
  | _, .atom _ => because (.typeError .pair)
  | _, .closure _ _ _ => .error .outside

/-- The result of an arithmetic operation. -/
def Arithmetic.denote (op : Arithmetic) (x y : Meaning) : Except Interruption Meaning := do
  let b ← y.asInt
  let a ← x.asInt
  if op.divides ∧ b = 0 then
    because .zeroDivision
  else
    match op.compute? a b with
    | some n => .ok (.int n)
    | none => because .overflow

/-- The result of an operation with two operands. -/
def Binary.denote : Binary → (x y : Meaning) → Except Interruption Meaning
  | .arithmetic op, x, y => op.denote x y
  | .eq, x, y =>
    match x.equal? y with
    | some b => .ok (.truth b)
    | none => .error .outside
  | .leq, x, y => do
    let a ← x.asInt
    let b ← y.asInt
    .ok (.truth (a ≤ b))
  | .cons, x, y => .ok (.pair x y)

namespace Primitive

/-- A primitive is interrupted by a fault of the host. -/
def refuse {α : Type} (message : String) : Except Interruption α := because (.hostError message)

/-- An argument that has to be an integer. -/
def denoteInt (p : Primitive) : Meaning → Except Interruption Int64
  | .int n => .ok n
  | x => refuse (p.name ++ ": " ++ (ValueError.notAnInt x.kind).message)

/-- A result that has to be a machine integer. -/
def denoteResult (p : Primitive) : Option Int64 → Except Interruption Meaning
  | some n => .ok (.int n)
  | none => refuse (p.name ++ ": integer overflow")

/-- The sum of integers, added from left to right. -/
def denoteSum (p : Primitive) (total : Int64) : List Meaning → Except Interruption Meaning
  | [] => .ok (.int total)
  | x :: xs => do
    let n ← p.denoteInt x
    match Integer.add? total n with
    | some total => p.denoteSum total xs
    | none => p.denoteResult none

/-- What a primitive makes of its arguments. -/
def denote (p : Primitive) (args : List Meaning) : Except Interruption Meaning :=
  match p, args with
  | .zero, [] => .ok (.int 0)
  | .neg, [x] => do p.denoteResult (Integer.neg? (← p.denoteInt x))
  | .abs, [x] => do p.denoteResult (Integer.abs? (← p.denoteInt x))
  | .null, [x] => .ok (.truth x.isNil)
  | .length, [x] =>
    match x.spine with
    | (n, some .nil) => .ok (.int (Int64.ofNat n))
    | (_, some a) => refuse (p.name ++ ": " ++ (ValueError.improperList a.kind).message)
    | (_, none) => .error .outside
  | .max, [x, y] => do
    let m ← p.denoteInt x
    let n ← p.denoteInt y
    .ok (.int (if m ≤ n then n else m))
  | .min, [x, y] => do
    let m ← p.denoteInt x
    let n ← p.denoteInt y
    .ok (.int (if m ≤ n then m else n))
  | .sum, [w, x, y, z] => p.denoteSum 0 [w, x, y, z]
  | .list, args => .ok (.list args)
  | p, args => refuse (arityMessage p.name p.arity args.length)

end Primitive

/-- The result of a host callable. -/
def Callable.denote (c : Callable) (args : List Meaning) : Except Interruption Meaning :=
  if args.length = c.arity then
    c.primitive.denote args
  else
    because (.arityError c.arity args.length)

/-! ### Expressions -/

/-- A way of evaluating the parts of an expression. -/
abbrev Evaluator := LexicalEnv → Sexp → Evaluation Meaning

namespace Evaluator

variable (ev : Evaluator)

/-- The values of expressions, the last of which is evaluated first. -/
def all (env : LexicalEnv) : List Sexp → Evaluation (List Meaning)
  | [] => pure []
  | e :: es => do
    let xs ← all env es
    let x ← ev env e
    pure (x :: xs)

/-- The value of the body of a function for the given arguments. The names are bound by position:
arguments for which there is no name are not used, and a name for which there is no argument has no
value. -/
def enter (params : List String) (body : Sexp) (env : LexicalEnv) (args : List Meaning) :
    Evaluation Meaning := do
  let index ← allocate (some args)
  ev (⟨params, index⟩ :: env) body

/-- The result of a function for the given arguments. -/
def apply : Meaning → (args : List Meaning) → Evaluation Meaning
  | .closure params body env, args => ev.enter params body env args
  | .atom (.callable c), args => of (c.denote args)
  | .atom _, _ => of (because (.typeError .closure))
  | .pair _ _, _ => throw .outside

/-- The value of a form. -/
def form (env : LexicalEnv) : Keyword → (operands : List Sexp) → Evaluation Meaning
  | .quote, [x] => pure (.ofSexp x)
  | .unary op, [x] => do
    let x ← ev env x
    of (op.denote x)
  | .binary (.arithmetic op), [x, y] => do
    let x ← ev env x
    let y ← ev env y
    of (op.denote x y)
  | .binary op, [x, y] => do
    let y ← ev env y
    let x ← ev env x
    of (op.denote x y)
  | .if, [test, yes, no] => do
    let test ← ev env test
    if test.isTrue then ev env yes else ev env no
  | .lambda, [params, body] =>
    match params.params? with
    | some names => pure (.closure names body env)
    | none => throw .malformed
  | .let, [bindings, body] =>
    match bindings.arms? with
    | some arms => do
      let xs ← ev.all env (arms.map Prod.snd)
      ev.enter (arms.map Prod.fst) body env xs
    | none => throw .malformed
  | .letrec, [bindings, body] =>
    match bindings.arms? with
    | some arms => do
      let index ← allocate none
      let env := ⟨arms.map Prod.fst, index⟩ :: env
      let xs ← ev.all env (arms.map Prod.snd)
      fill index xs
      ev env body
    | none => throw .malformed
  | _, _ => throw .malformed

/-- The value of an expression. -/
def phrase (env : LexicalEnv) : Phrase → Evaluation Meaning
  | .constant a => pure (.atom a)
  | .variable name => env.lookup name
  | .form keyword operands => ev.form env keyword operands
  | .call function args => do
    let xs ← ev.all env args
    let f ← ev env function
    ev.apply f xs
  | .improper => throw .malformed

/-- The evaluator with the given fuel. -/
def withFuel : (fuel : Nat) → Evaluator
  | 0, _, _ => throw .fuel
  | fuel + 1, env, e => (withFuel fuel).phrase env e.phrase

end Evaluator

/-! ### Programs -/

namespace Prelude

/-- The environment outside a program: the names of the prelude are its only frame. -/
def lexicalEnv : Option Prelude → LexicalEnv
  | some p => [⟨p.names, 0⟩]
  | none => []

/-- The memory before a program is evaluated, with the callables of the prelude. -/
def memory : Option Prelude → Memory
  | some p => [some (p.entries.map fun c => .atom (.callable c))]
  | none => []

end Prelude

/-- The value of a program, and the memory to which the environments of closures in it refer. -/
def Sexp.evaluate (e : Sexp) (prelude : Option Prelude) (fuel : Nat) :
    Except Interruption (Meaning × Memory) :=
  Evaluator.withFuel fuel (Prelude.lexicalEnv prelude) e (Prelude.memory prelude)

end Secd
