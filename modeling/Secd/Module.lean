import Secd.Primitive
import Secd.Term.Analysis
import Secd.Term.Code

/-!
# Modules

A module is a compiled program: its code, what the code expects to find on the stack, whether it
counts on the prelude as the outermost frame, and the blocks of the functions that the program binds
by `LETREC`, with their names.
-/

namespace Secd

/-- What a program makes of the list of arguments on the stack. -/
inductive Shape where
  /-- The program is an expression, and ignores the arguments. -/
  | expression
  /-- The program is a function, and is applied to the arguments. -/
  | applied
deriving DecidableEq, Repr

/-- A compiled program. -/
structure Module where
  code : Sexp
  shape : Shape
  usesPrelude : Bool
  named : List NamedBlock
deriving Repr

namespace Module

/-- The name of a block: that of the entry with the very cell of the block, or else of the first
entry with the same code. -/
def closureName? (m : Module) (block : Sexp) : Option String :=
  let sameCell := m.named.find? fun n => n.body.cell?.isSome && n.body.cell? == block.cell?
  let sameCode := m.named.find? fun n => n.body.same block
  (sameCell.or sameCode).map NamedBlock.name

/-- Whether two modules are equal, whatever cells they are made of. -/
def same (m n : Module) : Bool :=
  m.code.same n.code && m.shape == n.shape && m.usesPrelude == n.usesPrelude &&
    m.named.length == n.named.length &&
    (m.named.zip n.named).all fun (a, b) => a.name == b.name && a.body.same b.body

/-- The code that ends a program of a given shape. -/
def ending : Shape → Assembler Sexp
  | .expression => Assembler.instruction .stop [] .nil
  | .applied => do Assembler.instruction .ap [] (← Assembler.instruction .stop [] .nil)

/-- The term of a program; the names of the prelude are its outermost frame. -/
def analyse (e : Sexp) (map : SourceMap) (prelude : Option Prelude) : Checked Term :=
  let scopes : Scopes := match prelude with
    | some p => [p.names]
    | none => []
  (Term.ofSexp ⟨map, prelude⟩ scopes map.root e).mapError CompileError.sort

/-- The module of a term. -/
def ofTerm (t : Term) (shape : Shape) (usesPrelude : Bool) (s : Store) : Module × Store :=
  match (do t.code (← ending shape) : Assembler Sexp).run ⟨s, []⟩ with
  | (code, ⟨s, named⟩) => (⟨code, shape, usesPrelude, named.reverse⟩, s)

/-- Compiles an expression. The errors are in the order of the text. -/
def compile (e : Sexp) (map : SourceMap) (shape : Shape) (prelude : Option Prelude) (s : Store) :
    Checked Module × Store :=
  match analyse e map prelude with
  | .ok t =>
    match ofTerm t shape prelude.isSome s with
    | (m, s) => (.ok m, s)
  | .error errors => (.error errors, s)

end Module

end Secd
