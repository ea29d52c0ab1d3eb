import Secd.Value

/-!
# The store

All pairs live in one store of cells, which only grows. A cell is written once, when it is
allocated; the only later write is `setHead`, with which a letrec frame receives its values. A list
is a chain of cells linked by their tails, so the walks along a list (`spine`, `nth`) follow tails
only. The cells are numbered in the order in which they were allocated.
-/

namespace Secd

/-- What a pair holds. -/
structure Cell where
  head : Value
  tail : Value
deriving Repr, Inhabited

/-- The cells of all pairs, and how many host callables have been made. -/
structure Store where
  cells : Array Cell := #[]
  callables : Nat := 0
deriving Inhabited

namespace Store

/-- A store without cells. -/
def empty : Store := {}

/-- How many cells the store holds. -/
def size (s : Store) : Nat := s.cells.size

/-- The cell at an address. An address that was never handed out reads as a cell of empty lists. -/
def cell (s : Store) (address : Nat) : Cell :=
  s.cells.getD address ⟨.nil, .nil⟩

/-! ## Allocation -/

/-- A new pair. -/
def cons (s : Store) (head tail : Value) : Value × Store :=
  match s with
  | ⟨cells, callables⟩ => (.pair cells.size, ⟨cells.push ⟨head, tail⟩, callables⟩)

/-- The list of the given items in front of `tail`. -/
def dotted (s : Store) : List Value → Value → Value × Store
  | [], tail => (tail, s)
  | item :: items, tail =>
    match s.dotted items tail with
    | (rest, s) => s.cons item rest

/-- The list of the given items. -/
def list (s : Store) (items : List Value) : Value × Store :=
  s.dotted items .nil

/-- A new host callable, different from all others. -/
def callable (s : Store) (name : String) (arity : Nat) (primitive : Primitive) :
    Callable × Store :=
  match s with
  | ⟨cells, callables⟩ => (⟨callables, name, arity, primitive⟩, ⟨cells, callables + 1⟩)

/-- Writes the head of the cell at an address. -/
def setHead (s : Store) (address : Nat) (head : Value) : Store :=
  match s with
  | ⟨cells, callables⟩ => ⟨cells.modify address fun c => ⟨head, c.tail⟩, callables⟩

/-! ## What allocation and writing do to the cells -/

/-- The cells are numbered in the order of their allocation. -/
theorem cons_fst (s : Store) (head tail : Value) : (s.cons head tail).1 = .pair s.size := rfl

/-- A new pair takes one cell. -/
theorem size_cons (s : Store) (head tail : Value) : (s.cons head tail).2.size = s.size + 1 := by
  simp [cons, size]

/-- The cell of a new pair holds its head and its tail. -/
theorem cell_cons_size (s : Store) (head tail : Value) :
    (s.cons head tail).2.cell s.size = ⟨head, tail⟩ := by
  simp [cons, size, cell, Array.getD]

/-- A new pair leaves the cells before it as they were. -/
theorem cell_cons_of_lt (s : Store) (head tail : Value) {address : Nat} (h : address < s.size) :
    (s.cons head tail).2.cell address = s.cell address := by
  have old : address < s.cells.size := h
  have new : address < s.cells.size + 1 := by omega
  simp [cons, cell, Array.getD, old, new, Array.getElem_push]

/-- Writing a head takes no cell. -/
theorem size_setHead (s : Store) (address : Nat) (head : Value) :
    (s.setHead address head).size = s.size := by
  simp [setHead, size]

/-- The cell whose head was written keeps its tail. -/
theorem cell_setHead_self (s : Store) {address : Nat} (head : Value) (h : address < s.size) :
    (s.setHead address head).cell address = ⟨head, (s.cell address).tail⟩ := by
  have lt : address < s.cells.size := h
  simp [setHead, cell, Array.getD, lt, Array.getElem_modify]

/-- Writing a head leaves all other cells as they were. -/
theorem cell_setHead_of_ne (s : Store) {address other : Nat} (head : Value)
    (h : other ≠ address) : (s.setHead address head).cell other = s.cell other := by
  have ne : address ≠ other := fun e => h e.symm
  by_cases lt : other < s.cells.size <;>
    simp [setHead, cell, Array.getD, lt, Array.getElem_modify, ne]

/-- Writing a head changes no tail. -/
theorem tail_cell_setHead (s : Store) (address other : Nat) (head : Value) :
    ((s.setHead address head).cell other).tail = (s.cell other).tail := by
  by_cases lt : other < s.cells.size
  · by_cases e : address = other <;> simp [setHead, cell, Array.getD, lt, Array.getElem_modify, e]
  · simp [setHead, cell, Array.getD, lt]

/-! ## Access -/

/-- The cell of a pair. -/
def asPair (s : Store) : Value → Except ValueError Cell
  | .pair address => .ok (s.cell address)
  | .atom a => .error (.notAPair a.kind)

/-- The head of a pair. -/
def head (s : Store) (v : Value) : Except ValueError Value :=
  (s.asPair v).map Cell.head

/-- The tail of a pair. -/
def tail (s : Store) (v : Value) : Except ValueError Value :=
  (s.asPair v).map Cell.tail

/-- The tail of the tail. -/
def tailTail (s : Store) (v : Value) : Except ValueError Value :=
  (s.tail v).bind s.tail

/-- The second item of a list. -/
def second (s : Store) (v : Value) : Except ValueError Value :=
  (s.tail v).bind s.head

/-- The third item of a list. -/
def third (s : Store) (v : Value) : Except ValueError Value :=
  (s.tailTail v).bind s.head

/-- Walks over `steps` cells and takes the head of the next one. -/
def nthFrom (s : Store) (index : Nat) : (steps : Nat) → Value → Except ValueError Value
  | 0, .pair c => .ok (s.cell c).head
  | steps + 1, .pair c => s.nthFrom index steps (s.cell c).tail
  | _, .nil => .error (.indexOutOfRange index)
  | _, .atom a => .error (.improperList a.kind)

/-- The item of a list at an index from zero. -/
def nth (s : Store) (v : Value) (index : Nat) : Except ValueError Value :=
  s.nthFrom index index v

/-! ## Lists -/

/-- Follows tails for at most `fuel` cells, and puts the addresses of the cells in front of `seen`,
the last one first. -/
def spineFrom (s : Store) : (fuel : Nat) → Value → (seen : List Nat) → List Nat × Atom
  | _, .atom a, seen => (seen.reverse, a)
  | 0, .pair _, seen => (seen.reverse, .nil)
  | fuel + 1, .pair c, seen => s.spineFrom fuel (s.cell c).tail (c :: seen)

/-- The addresses of the cells of a list in order, and the atom in which the list ends. A chain of
tails that never ends in an atom is cut after as many cells as the store holds. -/
def spine (s : Store) (v : Value) : List Nat × Atom :=
  s.spineFrom s.size v []

/-- The items of a list, and the atom in which it ends. -/
def items (s : Store) (v : Value) : List Value × Atom :=
  match s.spine v with
  | (cells, ending) => (cells.map fun c => (s.cell c).head, ending)

/-- The items of a list that ends in the empty list. -/
def toList (s : Store) (v : Value) : Except ValueError (List Value) :=
  match s.items v with
  | (items, .nil) => .ok items
  | (_, ending) => .error (.improperList ending.kind)

/-- The number of items of a list that ends in the empty list. -/
def length (s : Store) (v : Value) : Except ValueError Nat :=
  (s.toList v).map List.length

end Store

end Secd
