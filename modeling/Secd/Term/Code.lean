import Secd.Opcode
import Secd.Term

/-!
# From terms to code

The code of a term is written in front of the code that runs after it. Nothing is ever appended: the
code of a whole program is put together from its end, and what comes after a term is never looked
at. A block is a list of code of its own: the body of a function ends in `RTN`, and each branch of a
conditional ends in `JOIN`. The blocks of the functions that a `LETREC` binds are noted under their
names, in the order in which they are finished.
-/

namespace Secd

/-- A block of code and the name under which a `LETREC` binds its function. -/
structure NamedBlock where
  name : String
  body : Sexp
deriving Repr

/-- What grows while code is written: the store, and the named blocks, the last one first. -/
structure Assembly where
  store : Store
  named : List NamedBlock

/-- Steps of writing code. -/
abbrev Assembler := StateM Assembly

namespace Assembler

/-- A new pair. -/
def cons (head tail : Sexp) : Assembler Sexp :=
  modifyGet fun
    | ⟨store, named⟩ =>
      match store.consTree head tail with
      | (e, store) => (e, ⟨store, named⟩)

/-- Notes a block under a name. -/
def record (name : String) (body : Sexp) : Assembler Unit :=
  modify fun
    | ⟨store, named⟩ => ⟨store, ⟨name, body⟩ :: named⟩

/-- The given items in front of the code `c`. -/
def prepend : List Sexp → (c : Sexp) → Assembler Sexp
  | [], c => pure c
  | item :: items, c => do cons item (← prepend items c)

/-- An instruction and its operands in front of the code `c`. -/
def instruction (op : Opcode) (operands : List Sexp) (c : Sexp) : Assembler Sexp :=
  prepend (op.sexp :: operands) c

/-- The operand that holds the address of a variable. -/
def address (a : Address) : Assembler Sexp :=
  cons (.int (Int64.ofNat a.frame)) (.int (Int64.ofNat a.slot))

end Assembler

namespace Term

open Assembler

mutual

/-- Writes the code of a term in front of the code `c`. -/
def code : Term → (c : Sexp) → Assembler Sexp
  | .constant value, c => instruction .ldc [value] c
  | .variable a, c => do instruction .ld [← address a] c
  | .unary op operand, c => do operand.code (← instruction (.unary op) [] c)
  | .binary op earlier later, c => do
    earlier.code (← later.code (← instruction (.binary op) [] c))
  | .conditional test yes no, c => do
    let yes ← yes.code (← instruction .join [] .nil)
    let no ← no.code (← instruction .join [] .nil)
    test.code (← instruction .sel [yes, no] c)
  | .lambda _ body, c => do
    let block ← body.code (← instruction .rtn [] .nil)
    instruction .ldf [block] c
  | .apply function args, c => do
    let c ← function.code (← instruction .ap [] c)
    instruction .ldc [.nil] (← codeArgs args c)
  | .letrec names inits body, c => do
    let block ← body.code (← instruction .rtn [] .nil)
    let c ← instruction .ldf [block] (← instruction .rap [] c)
    let c ← codeArms names inits c
    instruction .dum [] (← instruction .ldc [.nil] c)

/-- Writes the code that puts the values of terms in front of the list on the stack, the value of
the last term first. -/
def codeArgs : List Term → (c : Sexp) → Assembler Sexp
  | [], c => pure c
  | t :: ts, c => do codeArgs ts (← t.code (← instruction (.binary .cons) [] c))

/-- Does the same for the arms of a `LETREC`, and notes the blocks of its functions. -/
def codeArms : List String → List Term → (c : Sexp) → Assembler Sexp
  | name :: names, t :: ts, c => do
    let c ← t.code (← instruction (.binary .cons) [] c)
    match t, c with
    | .lambda _ _, .pair _ _ (.pair _ block _) => record name block
    | _, _ => pure ()
    codeArms names ts c
  | _, _, c => pure c

end

end Term

end Secd
