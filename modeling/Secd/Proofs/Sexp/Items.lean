import Secd.Sexp

/-!
# The items of a list

How `Sexp.items?` reads a list cell by cell, and the list of the items without their cells.
-/

namespace Secd.Sexp

/-- The items of a pair are its head and the items of its tail. -/
@[simp] theorem items?_pair (cell : Nat) (head tail : Sexp) :
    (pair cell head tail).items? = tail.items?.map ((cell, head) :: ·) := by
  simp only [items?, items]
  rcases tail.items with ⟨rest, ending⟩
  cases ending <;> rfl

/-- The empty list has no items. -/
@[simp] theorem items?_nil : Sexp.nil.items? = some [] := rfl

/-- An atom that is a list is the empty list. -/
theorem items?_atom {a : Atom} {items : List (Nat × Sexp)} (h : (atom a).items? = some items) :
    a = .nil ∧ items = [] := by
  cases a with
  | nil => exact ⟨rfl, (Option.some.inj h).symm⟩
  | symbol name => cases h
  | int n => cases h
  | callable c => cases h

/-- A pair that is a list has a list of one item less as its tail. -/
theorem items?_pair_eq_some {cell : Nat} {head tail : Sexp} {items : List (Nat × Sexp)}
    (h : (pair cell head tail).items? = some items) :
    ∃ rest, tail.items? = some rest ∧ items = (cell, head) :: rest := by
  rw [items?_pair] at h
  obtain ⟨rest, hrest, rfl⟩ := Option.map_eq_some_iff.1 h
  exact ⟨rest, hrest, rfl⟩

/-- The items of a list that ends in the empty list, without the cells that hold them. -/
def list? (e : Sexp) : Option (List Sexp) := e.items?.map (List.map Prod.snd)

/-- The list of a pair is its head and the list of its tail. -/
@[simp] theorem list?_pair (cell : Nat) (head tail : Sexp) :
    (pair cell head tail).list? = tail.list?.map (head :: ·) := by
  rw [list?, items?_pair, list?]
  cases tail.items? <;> rfl

/-- The empty list has no items. -/
@[simp] theorem list?_nil : Sexp.nil.list? = some [] := rfl

/-- An atom that is a list is the empty list. -/
theorem list?_atom {a : Atom} {list : List Sexp} (h : (atom a).list? = some list) :
    a = .nil ∧ list = [] := by
  obtain ⟨items, hitems, rfl⟩ := Option.map_eq_some_iff.1 h
  obtain ⟨ha, rfl⟩ := items?_atom hitems
  exact ⟨ha, rfl⟩

/-- A pair that is a list has a list of one item less as its tail. -/
theorem list?_pair_eq_some {cell : Nat} {head tail : Sexp} {list : List Sexp}
    (h : (pair cell head tail).list? = some list) :
    ∃ rest, tail.list? = some rest ∧ list = head :: rest := by
  rw [list?_pair] at h
  obtain ⟨rest, hrest, rfl⟩ := Option.map_eq_some_iff.1 h
  exact ⟨rest, hrest, rfl⟩

/-- The only item of a pair is its head. -/
theorem eq_singleton_of_list? {a : Nat} {x rest : Sexp} {list : List Sexp}
    (h : (pair a x rest).list? = some list) (hlength : list.length = 1) : list = [x] := by
  obtain ⟨others, -, rfl⟩ := list?_pair_eq_some h
  rw [List.length_eq_zero_iff.1 (Nat.succ.inj hlength)]

/-- The only two items of a pair are its head and the head of its tail. -/
theorem eq_pair_of_list? {a b : Nat} {x y rest : Sexp} {list : List Sexp}
    (h : (pair a x (pair b y rest)).list? = some list) (hlength : list.length = 2) :
    list = [x, y] := by
  obtain ⟨others, hothers, rfl⟩ := list?_pair_eq_some h
  rw [eq_singleton_of_list? hothers (Nat.succ.inj hlength)]

/-- The only three items of a pair are its head and those of its tail. -/
theorem eq_triple_of_list? {a b c : Nat} {x y z rest : Sexp} {list : List Sexp}
    (h : (pair a x (pair b y (pair c z rest))).list? = some list) (hlength : list.length = 3) :
    list = [x, y, z] := by
  obtain ⟨others, hothers, rfl⟩ := list?_pair_eq_some h
  rw [eq_pair_of_list? hothers (Nat.succ.inj hlength)]

/-- A list of two items has a cell for each of them. -/
theorem exists_eq_of_list?_eq_pair {e x y : Sexp} (h : e.list? = some [x, y]) :
    ∃ a b rest, e = pair a x (pair b y rest) := by
  cases e with
  | atom a =>
    obtain ⟨-, heq⟩ := list?_atom h
    cases heq
  | pair a first tail =>
    obtain ⟨others, hothers, heq⟩ := list?_pair_eq_some h
    obtain ⟨rfl, rfl⟩ := List.cons.inj heq
    cases tail with
    | atom last =>
      obtain ⟨-, heq⟩ := list?_atom hothers
      cases heq
    | pair b second rest =>
      obtain ⟨ending, -, heq⟩ := list?_pair_eq_some hothers
      obtain ⟨rfl, -⟩ := List.cons.inj heq
      exact ⟨a, b, rest, rfl⟩

/-- The items with their cells are as many as the items. -/
theorem list?_eq_some_of_items? {e : Sexp} {items : List (Nat × Sexp)}
    (h : e.items? = some items) : e.list? = some (items.map Prod.snd) := by
  rw [list?, h]
  rfl

end Secd.Sexp
