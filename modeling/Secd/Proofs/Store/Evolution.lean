import Secd.Proofs.Store.Closed

/-!
# Stores that change

A running machine adds cells to its store, and `RAP` writes to the heads of some. It never changes
a tail. A store *evolves* into another one if nothing else has happened: all cells are still there,
with their tails, and with their heads except at the addresses where writing was allowed.
-/

namespace Secd

namespace Store

/-- The store `s'` has all cells of `s` and perhaps more; only heads at addresses with the property
`P` may have been written to. -/
structure Evolves (P : Nat → Prop) (s s' : Store) : Prop where
  size_le : s.size ≤ s'.size
  tail_eq : ∀ c < s.size, (s'.cell c).tail = (s.cell c).tail
  head_eq : ∀ c < s.size, ¬ P c → (s'.cell c).head = (s.cell c).head

variable {P Q : Nat → Prop} {s s' s'' : Store}

/-- An extension of a store is one into which it evolves. -/
theorem Extends.evolves (h : s.Extends s') : s.Evolves P s' where
  size_le := h.size_le
  tail_eq c hc := by rw [h.cell_eq c hc]
  head_eq c hc _ := by rw [h.cell_eq c hc]

/-- A store evolves into itself. -/
theorem Evolves.refl (s : Store) : s.Evolves P s := (Extends.refl s).evolves

/-- What a store evolves into evolves further. The cells that are new may be written to. -/
theorem Evolves.trans (h : s.Evolves P s') (k : s'.Evolves Q s'')
    (hQ : ∀ c < s.size, Q c → P c) : s.Evolves P s'' where
  size_le := Nat.le_trans h.size_le k.size_le
  tail_eq c hc := (k.tail_eq c (Nat.lt_of_lt_of_le hc h.size_le)).trans (h.tail_eq c hc)
  head_eq c hc hP :=
    (k.head_eq c (Nat.lt_of_lt_of_le hc h.size_le) fun hq => hP (hQ c hc hq)).trans
      (h.head_eq c hc hP)

/-- Writing a head changes the store at its address alone. -/
theorem evolves_setHead (s : Store) (address : Nat) (head : Value) :
    s.Evolves (· = address) (s.setHead address head) where
  size_le := Nat.le_of_eq (size_setHead s address head).symm
  tail_eq c _ := tail_cell_setHead s address c head
  head_eq c _ hc := by rw [cell_setHead_of_ne s head hc]

/-- Cells that have not been written to are the same. -/
theorem Evolves.cell_eq (h : s.Evolves P s') {c : Nat} (hc : c < s.size) (hP : ¬ P c) :
    s'.cell c = s.cell c := by
  have hhead : (s'.cell c).head = (s.cell c).head := h.head_eq c hc hP
  have htail : (s'.cell c).tail = (s.cell c).tail := h.tail_eq c hc
  cases hcell : s'.cell c
  cases hcell' : s.cell c
  rw [hcell, hcell'] at hhead htail
  rw [Cell.mk.injEq]
  exact ⟨hhead, htail⟩

/-- A store that is part of `s` is part of everything into which `s` evolves, if none of its cells
are written to. -/
theorem Extends.trans_evolves {base : Store} (h : base.Extends s) (k : s.Evolves P s')
    (hP : ∀ c < base.size, ¬ P c) : base.Extends s' where
  size_le := Nat.le_trans h.size_le k.size_le
  cell_eq c hc :=
    (k.cell_eq (Nat.lt_of_lt_of_le hc h.size_le) (hP c hc)).trans (h.cell_eq c hc)

end Store

end Secd
