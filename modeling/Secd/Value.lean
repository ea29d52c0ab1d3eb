import Secd.Integer
import Secd.Text.Quoted

/-!
# Values

Programs, their data and their compiled code are all values: atoms, and pairs. A pair is known by
the address of its cell; what the cell holds is in the store (`Secd.Store`). The atoms are the
empty list `NIL`, symbols, machine integers and the callables that the host supplies.
-/

namespace Secd

/-- What a host callable computes. -/
inductive Primitive where
  | zero | neg | abs | null | length | max | min | list | sum
deriving DecidableEq, Repr

/-- A function supplied by the host. Two callables are the same one exactly if their identities
agree; the other fields say how it is shown and what it does. The host supplies no other functions
than the primitives: what a call gives depends on nothing but the arguments, and a call does nothing
besides. What is stated about arbitrary values and machines is stated for these callables. -/
structure Callable where
  identity : Nat
  name : String
  arity : Nat
  primitive : Primitive
deriving Repr

namespace Callable

/-- The text of a callable shows its name and its number of parameters. -/
def text (c : Callable) : String :=
  "#<" ++ c.name ++ "/" ++ toString c.arity ++ ">"

end Callable

/-- A value without parts. -/
inductive Atom where
  | nil
  | symbol (name : String)
  | int (n : Int64)
  | callable (c : Callable)
deriving Repr, Inhabited

namespace Atom

/-- Atoms are equal if they are of one kind and agree in what they hold; callables are compared by
identity. -/
def same : Atom → Atom → Bool
  | .nil, .nil => true
  | .symbol a, .symbol b => a == b
  | .int a, .int b => a == b
  | .callable a, .callable b => a.identity == b.identity
  | _, _ => false

/-- Every atom is equal to itself. -/
theorem same_refl (a : Atom) : a.same a = true := by
  cases a <;> simp [same]

/-- The order of two atoms does not matter for their equality. -/
theorem same_comm (a b : Atom) : a.same b = b.same a := by
  cases a <;> cases b <;> simp only [same] <;> rw [Bool.beq_comm]

/-- Atoms that are equal to the same atom are equal. -/
theorem same_trans {a b c : Atom} (h : a.same b = true) (k : b.same c = true) :
    a.same c = true := by
  cases a <;> cases b <;> cases c <;> simp_all [same]

/-- The printed form of an atom. -/
def text : Atom → String
  | .nil => "NIL"
  | .symbol name => name
  | .int n => Integer.text n
  | .callable c => c.text

/-- The symbol called `name`, except that the name `NIL` belongs to the empty list. -/
def ofName (name : String) : Atom :=
  if name = "NIL" then .nil else .symbol name

end Atom

/-- The kinds of values, as messages name them. -/
inductive Kind where
  | nil | pair | symbol | integer | callable
deriving DecidableEq, Repr

/-- The word that messages use for a kind. -/
def Kind.text : Kind → String
  | .nil => "nil"
  | .pair => "pair"
  | .symbol => "symbol"
  | .integer => "integer"
  | .callable => "callable"

/-- The kind of an atom. -/
def Atom.kind : Atom → Kind
  | .nil => .nil
  | .symbol _ => .symbol
  | .int _ => .integer
  | .callable _ => .callable

/-- A value: an atom, or the pair in the cell at an address of the store. -/
inductive Value where
  | atom (a : Atom)
  | pair (cell : Nat)
deriving Repr, Inhabited

namespace Value

/-- The empty list. -/
@[match_pattern] abbrev nil : Value := .atom .nil

/-- The value of a symbol, with any name. -/
@[match_pattern] abbrev symbol (name : String) : Value := .atom (.symbol name)

/-- The value of an integer. -/
@[match_pattern] abbrev int (n : Int64) : Value := .atom (.int n)

/-- The value of a host callable. -/
@[match_pattern] abbrev callable (c : Callable) : Value := .atom (.callable c)

/-- The symbol called `name`, or the empty list if the name is `NIL`. -/
def ofName (name : String) : Value := .atom (Atom.ofName name)

/-- Truth values are the symbols `T` and `F`. -/
def truth (b : Bool) : Value := .symbol (if b then "T" else "F")

/-- Only the symbol `T` counts as true. -/
def isTrue : Value → Bool
  | .symbol name => name == "T"
  | _ => false

/-- Whether the value is the empty list. -/
def isNil : Value → Bool
  | .nil => true
  | _ => false

/-- Whether the value is a pair. -/
def isPair : Value → Bool
  | .pair _ => true
  | .atom _ => false

/-- The name of the symbol that stands in a letrec frame until its values are there. No symbol in a
source text begins with this character. -/
def pendingName : String := "#pending"

/-- The placeholder of a letrec frame whose values are not there yet. -/
def pending : Value := .symbol pendingName

/-- Whether the value is the placeholder of a letrec frame. -/
def isPending : Value → Bool
  | .symbol name => name == pendingName
  | _ => false

/-- The kind of a value. -/
def kind : Value → Kind
  | .atom a => a.kind
  | .pair _ => .pair

end Value

/-- Why a value could not be taken apart as asked. -/
inductive ValueError where
  | notAPair (found : Kind)
  | notAnInt (found : Kind)
  | notASymbol (found : Kind)
  | improperList (ending : Kind)
  | indexOutOfRange (index : Nat)
deriving DecidableEq, Repr

/-- The message for each error. -/
def ValueError.message : ValueError → String
  | .notAPair found => "expected a pair, found " ++ found.text
  | .notAnInt found => "expected an integer, found " ++ found.text
  | .notASymbol found => "expected a symbol, found " ++ found.text
  | .improperList ending => "improper list ending in " ++ ending.text
  | .indexOutOfRange index => "list index " ++ toString index ++ " out of range"

/-- The name of the error with what it carries. -/
def ValueError.describe : ValueError → String
  | .notAPair found => "NotAPair(" ++ Text.quote found.text ++ ")"
  | .notAnInt found => "NotAnInt(" ++ Text.quote found.text ++ ")"
  | .notASymbol found => "NotASymbol(" ++ Text.quote found.text ++ ")"
  | .improperList ending => "ImproperList(" ++ Text.quote ending.text ++ ")"
  | .indexOutOfRange index => "IndexOutOfRange(" ++ toString index ++ ")"

namespace Value

/-- The integer that the value is. -/
def asInt : Value → Except ValueError Int64
  | .int n => .ok n
  | v => .error (.notAnInt v.kind)

/-- The name of the symbol that the value is. -/
def asSymbol : Value → Except ValueError String
  | .symbol name => .ok name
  | v => .error (.notASymbol v.kind)

end Value

end Secd
