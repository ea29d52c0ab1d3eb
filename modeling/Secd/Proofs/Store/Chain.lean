import Secd.Proofs.Store.Evolution
import Secd.Proofs.Store.Tree

/-!
# Lists in a store

A list is a chain of cells linked by their tails. `Store.spine` follows it for as many cells as the
store holds, so that it ends even if the chain does not. A chain that does end is never cut off: its
cells are all different, since the rest of a chain is determined by its first cell.
-/

namespace Secd

namespace Store

variable {s : Store}

/-- Following the tails from the value passes through the given cells and ends in an atom. -/
def Chain (s : Store) : Value → (cells : List Nat) → (ending : Atom) → Prop
  | v, [], ending => v = .atom ending
  | v, c :: cells, ending => v = .pair c ∧ c < s.size ∧ s.Chain (s.cell c).tail cells ending

/-- The chain from a value is unique. -/
theorem Chain.cells_unique {v : Value} {cells cells' : List Nat} {ending ending' : Atom}
    (h : s.Chain v cells ending) (h' : s.Chain v cells' ending') : cells = cells' := by
  induction cells generalizing v cells' with
  | nil =>
    obtain rfl := h
    cases cells' with
    | nil => rfl
    | cons c' cells' => cases h'.1
  | cons c cells ih =>
    obtain ⟨rfl, -, htail⟩ := h
    cases cells' with
    | nil => cases h'
    | cons c' cells' =>
      obtain ⟨hc, -, htail'⟩ := h'
      obtain rfl := Value.pair.inj hc
      rw [ih htail htail']

/-- From each of its cells on, a chain goes on as a chain that is no longer. -/
theorem Chain.exists_of_mem {v : Value} {cells : List Nat} {ending : Atom}
    (h : s.Chain v cells ending) {c : Nat} (hc : c ∈ cells) :
    ∃ rest, s.Chain (.pair c) rest ending ∧ rest.length ≤ cells.length := by
  induction cells generalizing v with
  | nil => cases hc
  | cons d cells ih =>
    obtain ⟨rfl, hlt, htail⟩ := h
    rcases List.mem_cons.1 hc with rfl | hc
    · exact ⟨c :: cells, ⟨rfl, hlt, htail⟩, Nat.le_refl _⟩
    · obtain ⟨rest, hrest, hle⟩ := ih htail hc
      exact ⟨rest, hrest, Nat.le_succ_of_le hle⟩

/-- The cells of a chain are all different. -/
theorem Chain.nodup {v : Value} {cells : List Nat} {ending : Atom}
    (h : s.Chain v cells ending) : cells.Nodup := by
  induction cells generalizing v with
  | nil => exact List.nodup_nil
  | cons c cells ih =>
    have htail : s.Chain (s.cell c).tail cells ending := h.2.2
    have hnew : c ∉ cells := by
      intro hc
      obtain ⟨rest, hrest, hle⟩ := htail.exists_of_mem hc
      have hsame : c :: cells = rest := Chain.cells_unique ⟨rfl, h.2.1, htail⟩ hrest
      rw [← hsame, List.length_cons] at hle
      omega
    exact List.nodup_cons.2 ⟨hnew, ih htail⟩

/-- The cells of a chain are allocated. -/
theorem Chain.lt_size {v : Value} {cells : List Nat} {ending : Atom}
    (h : s.Chain v cells ending) {c : Nat} (hc : c ∈ cells) : c < s.size := by
  obtain ⟨rest, hrest, -⟩ := h.exists_of_mem hc
  cases rest with
  | nil => cases hrest
  | cons d rest => exact Value.pair.inj hrest.1 ▸ hrest.2.1

/-- Following tails finds a chain that is not longer than the number of steps. -/
theorem Chain.spineFrom_eq {v : Value} {cells : List Nat} {ending : Atom}
    (h : s.Chain v cells ending) {fuel : Nat} (hfuel : cells.length ≤ fuel) (seen : List Nat) :
    s.spineFrom fuel v seen = (seen.reverse ++ cells, ending) := by
  induction cells generalizing v fuel seen with
  | nil =>
    obtain rfl := h
    rw [List.append_nil]
    cases fuel <;> rfl
  | cons c cells ih =>
    obtain ⟨rfl, -, htail⟩ := h
    cases fuel with
    | zero => cases hfuel
    | succ fuel =>
      rw [spineFrom, ih htail (Nat.le_of_succ_le_succ hfuel) (c :: seen)]
      simp

/-- The spine of a value is its chain, if it has one. -/
theorem Chain.spine_eq {v : Value} {cells : List Nat} {ending : Atom}
    (h : s.Chain v cells ending) : s.spine v = (cells, ending) := by
  have hle : cells.length ≤ s.size := length_le_size_of_nodup h.nodup fun _ => h.lt_size
  exact h.spineFrom_eq hle []

/-- A chain that ends in the empty list is a list of the heads of its cells. -/
theorem Chain.toList_eq {v : Value} {cells : List Nat} (h : s.Chain v cells .nil) :
    s.toList v = .ok (cells.map fun c => (s.cell c).head) := by
  rw [toList, items, h.spine_eq]

/-- A chain that ends in another atom is no list. -/
theorem Chain.toList_eq_error {v : Value} {cells : List Nat} {ending : Atom}
    (h : s.Chain v cells ending) (hending : ending ≠ .nil) :
    s.toList v = .error (.improperList ending.kind) := by
  rw [toList, items, h.spine_eq]
  cases ending with
  | nil => exact absurd rfl hending
  | _ => rfl

/-- A list that is a chain has the heads of its cells as its items. -/
theorem Chain.items_eq_of_toList {v : Value} {cells : List Nat} {ending : Atom}
    (h : s.Chain v cells ending) {items : List Value} (hitems : s.toList v = .ok items) :
    items = cells.map fun c => (s.cell c).head := by
  by_cases hending : ending = .nil
  · subst hending
    exact (Except.ok.inj (h.toList_eq.symm.trans hitems)).symm
  · cases (h.toList_eq_error hending).symm.trans hitems

/-- The index that an error would name does not matter if there is none. -/
theorem nthFrom_eq_ok {index index' steps : Nat} {v item : Value}
    (h : s.nthFrom index steps v = .ok item) : s.nthFrom index' steps v = .ok item := by
  induction steps generalizing v with
  | zero =>
    cases v with
    | pair c => exact h
    | atom a => cases a <;> cases h
  | succ steps ih =>
    cases v with
    | pair c => exact ih h
    | atom a => cases a <;> cases h

/-- An item of a chain is the head of the cell at its place. -/
theorem Chain.nth_eq {v : Value} {cells : List Nat} {ending : Atom} (h : s.Chain v cells ending)
    {index : Nat} (hindex : index < cells.length) :
    s.nth v index = .ok (s.cell cells[index]).head := by
  suffices hfrom : ∀ steps (hsteps : steps < cells.length),
      s.nthFrom index steps v = .ok (s.cell cells[steps]).head from hfrom index hindex
  clear hindex
  induction cells generalizing v with
  | nil => exact fun steps hsteps => absurd hsteps (Nat.not_lt_zero steps)
  | cons c cells ih =>
    obtain ⟨rfl, -, htail⟩ := h
    intro steps hsteps
    cases steps with
    | zero => rfl
    | succ steps => exact ih htail steps (Nat.lt_of_succ_lt_succ hsteps)

/-- What is found at an index is the head of a cell of the chain. -/
theorem Chain.exists_of_nth {v : Value} {cells : List Nat} {ending : Atom}
    (h : s.Chain v cells ending) {index : Nat} {item : Value} (hitem : s.nth v index = .ok item) :
    ∃ c ∈ cells, item = (s.cell c).head := by
  suffices hfrom : ∀ steps, s.nthFrom index steps v = .ok item → ∃ c ∈ cells, item = (s.cell c).head
    from hfrom index hitem
  clear hitem
  induction cells generalizing v with
  | nil =>
    obtain rfl := h
    intro steps hsteps
    cases steps <;> cases ending <;> cases hsteps
  | cons c cells ih =>
    obtain ⟨rfl, -, htail⟩ := h
    intro steps hsteps
    cases steps with
    | zero => exact ⟨c, List.mem_cons_self, (Except.ok.inj hsteps).symm⟩
    | succ steps =>
      obtain ⟨d, hd, hhead⟩ := ih htail steps hsteps
      exact ⟨d, List.mem_cons_of_mem _ hd, hhead⟩

/-- A chain stays one while the store evolves, since no tail is ever written. -/
theorem Chain.evolves {P : Nat → Prop} {s' : Store} {v : Value} {cells : List Nat} {ending : Atom}
    (h : s.Chain v cells ending) (hs : s.Evolves P s') : s'.Chain v cells ending := by
  induction cells generalizing v with
  | nil => exact h
  | cons c cells ih =>
    obtain ⟨rfl, hc, htail⟩ := h
    refine ⟨rfl, Nat.lt_of_lt_of_le hc hs.size_le, ?_⟩
    rw [hs.tail_eq c hc]
    exact ih htail

/-- From the value of a held tree, a chain starts. -/
theorem Holds.exists_chain {e : Sexp} (he : s.Holds e) :
    ∃ cells ending, s.Chain e.value cells ending := by
  induction e with
  | atom a => exact ⟨[], a, rfl⟩
  | pair c head tail _ ih =>
    obtain ⟨hlt, hcell, -, htail⟩ := he
    obtain ⟨cells, ending, hchain⟩ := ih htail
    refine ⟨c :: cells, ending, rfl, hlt, ?_⟩
    rw [hcell]
    exact hchain

/-- A new list is a chain of its items. -/
theorem exists_chain_dotted (s : Store) (items : List Value) (ending : Atom) :
    ∃ cells,
      (s.dotted items (.atom ending)).2.Chain (s.dotted items (.atom ending)).1 cells ending ∧
      cells.map (fun c => ((s.dotted items (.atom ending)).2.cell c).head) = items := by
  induction items with
  | nil => exact ⟨[], rfl, rfl⟩
  | cons item items ih =>
    obtain ⟨cells, hchain, hitems⟩ := ih
    rw [dotted]
    generalize s.dotted items (.atom ending) = rest at hchain hitems
    obtain ⟨v, s'⟩ := rest
    have hextends : s'.Extends (s'.cons item v).2 := extends_cons s' item v
    refine ⟨s'.size :: cells, ⟨rfl, ?_, ?_⟩, ?_⟩
    · rw [size_cons]
      omega
    · rw [cell_cons_size]
      exact hchain.evolves (P := fun _ => False) hextends.evolves
    · rw [List.map_cons, cell_cons_size, List.cons.injEq]
      refine ⟨rfl, Eq.trans (List.map_congr_left fun c hc => ?_) hitems⟩
      rw [cell_cons_of_lt s' item v (hchain.lt_size hc)]

/-! ### Lists of a closed store -/

/-- Following tails in a closed store passes through allocated cells only. -/
theorem Closed.lt_size_of_mem_spineFrom (hs : s.Closed) {fuel : Nat} {v : Value}
    (hv : s.Contains v) {seen : List Nat} (hseen : ∀ c ∈ seen, c < s.size) :
    ∀ c ∈ (s.spineFrom fuel v seen).1, c < s.size := by
  induction fuel generalizing v seen with
  | zero =>
    intro c hc
    cases v <;> exact hseen c (List.mem_reverse.1 hc)
  | succ fuel ih =>
    cases v with
    | atom a =>
      intro c hc
      exact hseen c (List.mem_reverse.1 hc)
    | pair d =>
      refine ih (hs.contains_parts hv).2 ?_
      intro c hc
      rcases List.mem_cons.1 hc with rfl | hc
      · exact hv
      · exact hseen c hc

/-- The items of a list of a closed store belong to the store. -/
theorem Closed.contains_of_mem_toList (hs : s.Closed) {v : Value} (hv : s.Contains v)
    {list : List Value} (hlist : s.toList v = .ok list) {item : Value} (hitem : item ∈ list) :
    s.Contains item := by
  have hcells : ∀ c ∈ (s.spine v).1, c < s.size :=
    hs.lt_size_of_mem_spineFrom hv (by simp)
  rw [toList, items] at hlist
  rcases hspine : s.spine v with ⟨cells, ending⟩
  rw [hspine] at hlist hcells
  cases ending with
  | nil =>
    obtain rfl := Except.ok.inj hlist
    obtain ⟨c, hc, rfl⟩ := List.mem_map.1 hitem
    exact (hs c (hcells c hc)).1
  | _ => cases hlist

end Store

end Secd
