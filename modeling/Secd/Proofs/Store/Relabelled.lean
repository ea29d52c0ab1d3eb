import Secd.Machine.Step
import Secd.Proofs.Sexp.Atoms
import Secd.Proofs.Store.Correspondence

/-!
# Identities of host callables

A host callable is known by its identity, and nothing but the comparison of values looks at it. So
the identities in a store may be replaced, all at once, by others that are different as well: what
can be computed from values of the one store is what can be computed from those of the other, and
results that are values are the same up to the identities in them.
-/

namespace Secd

/-- The same callable under another identity. -/
def Callable.relabel (σ : Nat → Nat) (c : Callable) : Callable :=
  { c with identity := σ c.identity }

/-- The atom with the identities replaced. -/
def Atom.relabel (σ : Nat → Nat) : Atom → Atom
  | .callable c => .callable (c.relabel σ)
  | a => a

/-- The value with the identities replaced. -/
def Value.relabel (σ : Nat → Nat) : Value → Value
  | .atom a => .atom (a.relabel σ)
  | .pair c => .pair c

/-- The cell with the identities replaced. -/
def Cell.relabel (σ : Nat → Nat) (c : Cell) : Cell := ⟨c.head.relabel σ, c.tail.relabel σ⟩

/-- The store with the identities in all cells replaced. -/
def Store.relabel (σ : Nat → Nat) (s : Store) : Store := ⟨s.cells.map (Cell.relabel σ), s.callables⟩

variable {σ : Nat → Nat}

namespace Atom

@[simp] theorem relabel_nil : Atom.nil.relabel σ = .nil := rfl

/-- An atom stays of its kind. -/
@[simp] theorem kind_relabel (a : Atom) : (a.relabel σ).kind = a.kind := by cases a <;> rfl

/-- Atoms other than callables have no identity to be replaced. -/
theorem Plain.relabel_eq {a : Atom} (h : a.Plain) : a.relabel σ = a := by
  cases a with
  | callable c => exact h.elim
  | _ => rfl

/-- Different identities stay different. -/
theorem same_relabel (hσ : σ.Injective) (a b : Atom) :
    (a.relabel σ).same (b.relabel σ) = a.same b := by
  cases a <;> cases b <;> simp [relabel, same, Callable.relabel, hσ.eq_iff, Bool.beq_eq_decide_eq]

end Atom

namespace Value

@[simp] theorem relabel_atom (a : Atom) : (Value.atom a).relabel σ = .atom (a.relabel σ) := rfl

@[simp] theorem relabel_pair (c : Nat) : (Value.pair c).relabel σ = .pair c := rfl

@[simp] theorem isPair_relabel (v : Value) : (v.relabel σ).isPair = v.isPair := by cases v <;> rfl

@[simp] theorem isNil_relabel (v : Value) : (v.relabel σ).isNil = v.isNil := by
  rcases v with (_ | _ | _ | _) | _ <;> rfl

@[simp] theorem isTrue_relabel (v : Value) : (v.relabel σ).isTrue = v.isTrue := by
  rcases v with (_ | _ | _ | _) | _ <;> rfl

@[simp] theorem isPending_relabel (v : Value) : (v.relabel σ).isPending = v.isPending := by
  rcases v with (_ | _ | _ | _) | _ <;> rfl

@[simp] theorem asInt_relabel (v : Value) : (v.relabel σ).asInt = v.asInt := by
  rcases v with (_ | _ | _ | _) | _ <;> rfl

@[simp] theorem ofValue?_relabel (v : Value) :
    Opcode.ofValue? (v.relabel σ) = Opcode.ofValue? v := by
  rcases v with (_ | _ | _ | _) | _ <;> rfl

end Value

namespace Store

variable (s : Store)

/-- There are as many cells. -/
@[simp] theorem size_relabel : (s.relabel σ).size = s.size := by simp [size, relabel]

/-- The cell at each address. -/
@[simp] theorem cell_relabel (c : Nat) : (s.relabel σ).cell c = (s.cell c).relabel σ := by
  by_cases h : c < s.cells.size <;> simp [cell, relabel, Array.getD, h, Cell.relabel]

/-- A new pair. -/
@[simp] theorem cons_relabel (v w : Value) :
    (s.relabel σ).cons (v.relabel σ) (w.relabel σ) =
      ((s.cons v w).1.relabel σ, (s.cons v w).2.relabel σ) := by
  simp [cons, relabel, Cell.relabel]

/-- Writing a head. -/
@[simp] theorem setHead_relabel (c : Nat) (v : Value) :
    (s.relabel σ).setHead c (v.relabel σ) = (s.setHead c v).relabel σ := by
  have hcells : (s.cells.map (Cell.relabel σ)).modify c (fun cell => ⟨v.relabel σ, cell.tail⟩) =
      (s.cells.modify c fun cell => ⟨v, cell.tail⟩).map (Cell.relabel σ) := by
    apply Array.ext
    · simp
    · intro i hi _
      simp only [Array.size_modify, Array.size_map] at hi
      by_cases h : c = i <;> simp [Array.getElem_modify, h, Cell.relabel]
  simp only [setHead, relabel, hcells]

/-- A new list. -/
@[simp] theorem dotted_relabel (items : List Value) (v : Value) :
    (s.relabel σ).dotted (items.map (Value.relabel σ)) (v.relabel σ) =
      ((s.dotted items v).1.relabel σ, (s.dotted items v).2.relabel σ) := by
  induction items with
  | nil => rfl
  | cons item items ih =>
    rw [List.map_cons, dotted, ih]
    exact (s.dotted items v).2.cons_relabel item (s.dotted items v).1

/-- The head of a value. -/
@[simp] theorem head_relabel (v : Value) :
    (s.relabel σ).head (v.relabel σ) = (s.head v).map (Value.relabel σ) := by
  cases v <;> simp [head, asPair, Except.map, Cell.relabel, Value.relabel]

/-- The tail of a value. -/
@[simp] theorem tail_relabel (v : Value) :
    (s.relabel σ).tail (v.relabel σ) = (s.tail v).map (Value.relabel σ) := by
  cases v <;> simp [tail, asPair, Except.map, Cell.relabel, Value.relabel]

/-- The address that a value denotes. -/
@[simp] theorem address_relabel (v : Value) :
    Address.ofValue (s.relabel σ) (v.relabel σ) = Address.ofValue s v := by
  rw [Address.ofValue, Address.ofValue, head_relabel, tail_relabel]
  cases s.head v with
  | error e => rfl
  | ok head =>
    simp only [Except.map, bind, Except.bind, Value.asInt_relabel]
    cases head.asInt with
    | error e => rfl
    | ok frame =>
      cases s.tail v with
      | error e => rfl
      | ok tail => simp only [Value.asInt_relabel]

/-- An item of a list. -/
@[simp] theorem nth_relabel (v : Value) (index : Nat) :
    (s.relabel σ).nth (v.relabel σ) index = (s.nth v index).map (Value.relabel σ) := by
  suffices hfrom : ∀ steps, (s.relabel σ).nthFrom index steps (v.relabel σ) =
      (s.nthFrom index steps v).map (Value.relabel σ) from hfrom index
  intro steps
  induction steps generalizing v with
  | zero =>
    rcases v with (_ | _ | _ | _) | c
    case pair => simp [nthFrom, Except.map, Cell.relabel]
    all_goals rfl
  | succ steps ih =>
    rcases v with (_ | _ | _ | _) | c
    case pair => simpa [nthFrom, Cell.relabel] using ih (s.cell c).tail
    all_goals rfl

/-- The cells of a list. -/
@[simp] theorem spine_relabel (v : Value) :
    (s.relabel σ).spine (v.relabel σ) = ((s.spine v).1, (s.spine v).2.relabel σ) := by
  suffices hfrom : ∀ fuel seen, (s.relabel σ).spineFrom fuel (v.relabel σ) seen =
      ((s.spineFrom fuel v seen).1, (s.spineFrom fuel v seen).2.relabel σ) by
    simpa [spine] using hfrom s.size []
  intro fuel
  induction fuel generalizing v with
  | zero => cases v <;> intro seen <;> rfl
  | succ fuel ih =>
    intro seen
    cases v with
    | atom a => rfl
    | pair c => simpa [spineFrom, Cell.relabel] using ih (s.cell c).tail (c :: seen)

/-- The items of a list. -/
@[simp] theorem toList_relabel (v : Value) :
    (s.relabel σ).toList (v.relabel σ) = (s.toList v).map (List.map (Value.relabel σ)) := by
  have hitems : (s.relabel σ).items (v.relabel σ) =
      ((s.items v).1.map (Value.relabel σ), (s.items v).2.relabel σ) := by
    simp [items, Cell.relabel]
  rw [toList, toList, hitems]
  generalize s.items v = items
  obtain ⟨items, ending⟩ := items
  cases ending <;> rfl

/-- The number of items. -/
@[simp] theorem length_relabel (v : Value) :
    (s.relabel σ).length (v.relabel σ) = s.length v := by
  rw [length, length, toList_relabel]
  cases s.toList v <;> simp [Except.map]

/-- Comparing two values. -/
theorem equal_relabel (hσ : σ.Injective) (v w : Value) :
    (s.relabel σ).equal (v.relabel σ) (w.relabel σ) = s.equal v w := by
  suffices hfrom : ∀ fuel (work : List (Value × Value)) seen, (s.relabel σ).equalFrom fuel
      (work.map fun pair => (pair.1.relabel σ, pair.2.relabel σ)) seen =
        s.equalFrom fuel work seen by
    have := hfrom (2 * (s.size * s.size) + 1) [(v, w)] ∅
    simpa [equal] using this
  intro fuel
  induction fuel with
  | zero => rintro (_ | ⟨_, work⟩) seen <;> rfl
  | succ fuel ih =>
    rintro (_ | ⟨⟨a | x, b | y⟩, work⟩) seen
    · rfl
    · simp only [List.map_cons, Value.relabel_atom, equalFrom, Atom.same_relabel hσ, ih]
    · rfl
    · rfl
    · have hparts := ih (((s.cell x).head, (s.cell y).head) ::
        ((s.cell x).tail, (s.cell y).tail) :: work) (seen.insert (x, y))
      simp only [List.map_cons] at hparts
      simp only [List.map_cons, Value.relabel_pair, equalFrom, cell_relabel, Cell.relabel, ih,
        hparts]

/-- Printing a value. -/
@[simp] theorem render_relabel (v : Value) : (s.relabel σ).render (v.relabel σ) = s.render v := by
  suffices hwrite : ∀ fuel path (v : Value) out,
      (s.relabel σ).write fuel path (v.relabel σ) out = s.write fuel path v out ∧
        (s.relabel σ).writeTail fuel path (v.relabel σ) out = s.writeTail fuel path v out by
    rw [render, render, size_relabel]
    exact (hwrite _ _ v _).1
  intro fuel
  induction fuel with
  | zero =>
    intro path v out
    rcases v with (_ | _ | _ | c) | c
    case atom.callable => exact ⟨rfl, rfl⟩
    all_goals exact ⟨rfl, rfl⟩
  | succ fuel ih =>
    intro path v out
    rcases v with (_ | _ | _ | c) | c
    case pair => simp [write, writeTail, Cell.relabel, ih]
    all_goals exact ⟨rfl, rfl⟩

/-! ### What a store holds -/

variable {s}

/-- A value belongs to the store as before. -/
@[simp] theorem contains_relabel (v : Value) :
    (s.relabel σ).Contains (v.relabel σ) ↔ s.Contains v := by
  cases v with
  | atom a => exact Iff.rfl
  | pair c => simp [Contains]

/-- A closed store stays closed. -/
theorem Closed.relabel (hs : s.Closed) : (s.relabel σ).Closed := by
  intro c hc
  rw [size_relabel] at hc
  rw [cell_relabel]
  exact (hs c hc).imp (contains_relabel _).2 (contains_relabel _).2

end Store

/-- The tree with the identities replaced. -/
def Sexp.relabel (σ : Nat → Nat) : Sexp → Sexp
  | .atom a => .atom (a.relabel σ)
  | .pair c head tail => .pair c (head.relabel σ) (tail.relabel σ)

namespace Sexp

/-- The value of the tree. -/
@[simp] theorem value_relabel (e : Sexp) : (e.relabel σ).value = e.value.relabel σ := by
  cases e <;> rfl

/-- A tree stays the same if its atoms do. -/
theorem relabel_eq_of_atoms {e : Sexp} (he : e.AllAtoms fun a => a.relabel σ = a) :
    e.relabel σ = e := by
  induction e with
  | atom a => exact congrArg Sexp.atom he
  | pair c head tail ihHead ihTail => rw [relabel, ihHead he.1, ihTail he.2]

/-- A tree without callables has no identities to be replaced. -/
theorem relabel_eq_of_plain {e : Sexp} (he : e.AllAtoms Atom.Plain) : e.relabel σ = e :=
  relabel_eq_of_atoms (he.imp fun _ ha => ha.relabel_eq)

end Sexp

/-- The store holds the tree with the identities replaced. -/
theorem Store.Holds.relabel {s : Store} {e : Sexp} (he : s.Holds e) :
    (s.relabel σ).Holds (e.relabel σ) := by
  induction e with
  | atom a => exact trivial
  | pair c head tail ihHead ihTail =>
    obtain ⟨hlt, hcell, hhead, htail⟩ := he
    refine ⟨by rwa [size_relabel], ?_, ihHead hhead, ihTail htail⟩
    rw [cell_relabel, hcell, Sexp.value_relabel, Sexp.value_relabel]
    rfl

/-! ### Identities that are not replaced -/

/-- Nothing changes if each identity is replaced by itself. -/
theorem Value.relabel_id (v : Value) : v.relabel id = v := by
  rcases v with (_ | _ | _ | _) | _ <;> rfl

/-- The same for a store. -/
theorem Store.relabel_id (s : Store) : s.relabel id = s := by
  obtain ⟨cells, callables⟩ := s
  have hcell : Cell.relabel id = id := by
    funext ⟨head, tail⟩
    rw [Cell.relabel, Value.relabel_id, Value.relabel_id]
    rfl
  rw [relabel, hcell, Array.map_id_fun]
  rfl

end Secd
