import Secd.Store

/-!
# Closed stores

An address that was never handed out reads as a cell of empty lists, so a value could in principle
point beyond the store. No operation makes such a value: allocation hands out the next address, and
everything that is stored was in the store before. A store is *closed* if all its cells hold values
of the store. This is what makes the cells a finite graph, and it is what the size of the store
bounds.
-/

namespace Secd

namespace Store

/-! ### Values of a store -/

/-- The value is an atom, or a pair whose cell has been allocated. -/
def Contains (s : Store) : Value → Prop
  | .atom _ => True
  | .pair c => c < s.size

/-- All cells hold values of the store. -/
def Closed (s : Store) : Prop :=
  ∀ c < s.size, s.Contains (s.cell c).head ∧ s.Contains (s.cell c).tail

instance decidableContains (s : Store) (v : Value) : Decidable (s.Contains v) :=
  match v with
  | .atom _ => .isTrue trivial
  | .pair c => inferInstanceAs (Decidable (c < s.size))

instance decidableClosed (s : Store) : Decidable s.Closed :=
  inferInstanceAs
    (Decidable (∀ c < s.size, s.Contains (s.cell c).head ∧ s.Contains (s.cell c).tail))

/-- Atoms belong to every store. -/
@[simp] theorem contains_atom (s : Store) (a : Atom) : s.Contains (.atom a) := trivial

/-- A pair belongs to the store if its cell has been allocated. -/
@[simp] theorem contains_pair {s : Store} {c : Nat} : s.Contains (.pair c) ↔ c < s.size := Iff.rfl

/-- A value of a store belongs to every store that is no smaller. -/
theorem Contains.of_size_le {s s' : Store} {v : Value} (hv : s.Contains v)
    (hsize : s.size ≤ s'.size) : s'.Contains v := by
  cases v with
  | atom a => exact trivial
  | pair c => exact Nat.lt_of_lt_of_le hv hsize

/-- Both parts of a pair of a closed store belong to the store. -/
theorem Closed.contains_parts {s : Store} (hs : s.Closed) {c : Nat} (hc : s.Contains (.pair c)) :
    s.Contains (s.cell c).head ∧ s.Contains (s.cell c).tail :=
  hs c hc

/-- A store without cells is closed. -/
theorem closed_empty : Store.empty.Closed := fun c hc => absurd hc (Nat.not_lt_zero c)

/-! ### Growing stores -/

/-- The store `s'` has all cells of `s`, with what they hold, and perhaps more. -/
structure Extends (s s' : Store) : Prop where
  size_le : s.size ≤ s'.size
  cell_eq : ∀ c < s.size, s'.cell c = s.cell c

/-- Every store extends itself. -/
theorem Extends.refl (s : Store) : s.Extends s :=
  ⟨Nat.le_refl _, fun _ _ => rfl⟩

/-- An extension of an extension is an extension. -/
theorem Extends.trans {s s' s'' : Store} (h : s.Extends s') (k : s'.Extends s'') :
    s.Extends s'' where
  size_le := Nat.le_trans h.size_le k.size_le
  cell_eq c hc := (k.cell_eq c (Nat.lt_of_lt_of_le hc h.size_le)).trans (h.cell_eq c hc)

/-- A cell that has not been allocated counts as a pair of empty lists. -/
theorem cell_of_size_le {s : Store} {c : Nat} (hc : s.size ≤ c) : s.cell c = ⟨.nil, .nil⟩ := by
  have hnot : ¬ c < s.cells.size := Nat.not_lt.2 hc
  simp [cell, Array.getD, hnot]

/-- A new pair extends the store. -/
theorem extends_cons (s : Store) (head tail : Value) : s.Extends (s.cons head tail).2 where
  size_le := by rw [size_cons]; omega
  cell_eq _ hc := cell_cons_of_lt s head tail hc

/-- A new pair belongs to the store. -/
theorem contains_cons (s : Store) (head tail : Value) :
    (s.cons head tail).2.Contains (s.cons head tail).1 := by
  rw [cons_fst, contains_pair, size_cons]
  omega

/-- A new pair of values of a closed store leaves the store closed. -/
theorem Closed.cons {s : Store} (hs : s.Closed) {head tail : Value} (hhead : s.Contains head)
    (htail : s.Contains tail) : (s.cons head tail).2.Closed := by
  intro c hc
  have hle : s.size ≤ (s.cons head tail).2.size := (extends_cons s head tail).size_le
  by_cases hold : c < s.size
  · rw [cell_cons_of_lt s head tail hold]
    exact ⟨(hs c hold).1.of_size_le hle, (hs c hold).2.of_size_le hle⟩
  · rw [size_cons] at hc
    obtain rfl : c = s.size := by omega
    rw [cell_cons_size]
    exact ⟨hhead.of_size_le hle, htail.of_size_le hle⟩

/-- Writing a value of a closed store into a head leaves the store closed. -/
theorem Closed.setHead {s : Store} (hs : s.Closed) (address : Nat) {head : Value}
    (hhead : s.Contains head) : (s.setHead address head).Closed := by
  intro c hc
  rw [size_setHead] at hc
  have hle : s.size ≤ (s.setHead address head).size :=
    Nat.le_of_eq (size_setHead s address head).symm
  by_cases hwritten : c = address
  · subst hwritten
    rw [cell_setHead_self s head hc]
    exact ⟨hhead.of_size_le hle, (hs c hc).2.of_size_le hle⟩
  · rw [cell_setHead_of_ne s head hwritten]
    exact ⟨(hs c hc).1.of_size_le hle, (hs c hc).2.of_size_le hle⟩

/-- A new list extends the store. -/
theorem extends_dotted (s : Store) (items : List Value) (tail : Value) :
    s.Extends (s.dotted items tail).2 := by
  induction items with
  | nil => exact Extends.refl s
  | cons item items ih =>
    rw [dotted]
    exact ih.trans (extends_cons _ _ _)

/-- A new list of values of a closed store leaves the store closed, and belongs to it. -/
theorem Closed.dotted {s : Store} (hs : s.Closed) {items : List Value} {tail : Value}
    (hitems : ∀ v ∈ items, s.Contains v) (htail : s.Contains tail) :
    (s.dotted items tail).2.Closed ∧ (s.dotted items tail).2.Contains (s.dotted items tail).1 := by
  induction items with
  | nil => exact ⟨hs, htail⟩
  | cons item items ih =>
    obtain ⟨hclosed, hrest⟩ := ih fun v hv => hitems v (List.mem_cons_of_mem item hv)
    have hle : s.size ≤ (s.dotted items tail).2.size := (extends_dotted s items tail).size_le
    have hitem : s.Contains item := hitems item List.mem_cons_self
    rw [Store.dotted]
    exact ⟨hclosed.cons (hitem.of_size_le hle) hrest, contains_cons _ _ _⟩

end Store

end Secd
