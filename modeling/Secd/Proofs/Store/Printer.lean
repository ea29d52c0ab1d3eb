import Secd.Proofs.Sexp.Atoms
import Secd.Proofs.Store.Tree
import Secd.Store.Printer

/-!
# The printed form of a tree

A value is printed cell by cell, with a guard against cycles and a bound on the number of cells of a
path. For the value of a tree neither is ever noticed: the cells that are being printed belong to
higher trees than what is still to be printed, or are no cells of the store that holds the trees,
and no path is longer than the tree is high. So the printed form is that of the tree, also in a
store that has more cells.
-/

namespace Secd

namespace Store

variable {s : Store}

/-- The cells are those of held trees that are higher than `height`, or not in the store. -/
def Above (s : Store) (path : Std.TreeSet Nat) (height : Nat) : Prop :=
  ∀ c ∈ path, s.size ≤ c ∨ ∃ head tail, s.Holds (.pair c head tail) ∧
    height < (Sexp.pair c head tail).height

/-- No cell is above the parts of all trees when printing begins. -/
theorem above_empty (s : Store) (height : Nat) : s.Above ∅ height :=
  fun _ hc => absurd hc Std.TreeSet.not_mem_emptyc

/-- Cells above a tree are above what is less high. -/
theorem Above.of_le {path : Std.TreeSet Nat} {height height' : Nat} (h : s.Above path height)
    (hle : height' ≤ height) : s.Above path height' := by
  intro c hc
  rcases h c hc with hnew | ⟨head, tail, hheld, hlt⟩
  · exact .inl hnew
  · exact .inr ⟨head, tail, hheld, Nat.lt_of_le_of_lt hle hlt⟩

variable {c : Nat} {head tail : Sexp}

/-- The cell of a tree is none of those above it. -/
theorem Above.not_mem {path : Std.TreeSet Nat} (h : s.Above path (Sexp.pair c head tail).height)
    (he : s.Holds (.pair c head tail)) : c ∉ path := by
  intro hc
  rcases h c hc with hnew | ⟨head', tail', hheld, hlt⟩
  · exact Nat.not_lt.2 hnew he.1
  · rw [hheld.eq_of_value_eq he rfl] at hlt
    exact Nat.lt_irrefl _ hlt

/-- Together with those above it, the cell of a tree is above what is less high than the tree. -/
theorem Above.insert {path : Std.TreeSet Nat} (h : s.Above path (Sexp.pair c head tail).height)
    (he : s.Holds (.pair c head tail)) {height : Nat}
    (hlt : height < (Sexp.pair c head tail).height) : s.Above (path.insert c) height := by
  intro d hd
  rw [Std.TreeSet.mem_insert, Std.LawfulEqCmp.compare_eq_iff_eq] at hd
  rcases hd with rfl | hd
  · exact .inr ⟨head, tail, he, hlt⟩
  · exact h.of_le (Nat.le_of_lt hlt) d hd

/-- With cells above a tree being printed, the tree is printed as a tree, both at the beginning and
in the tail of a list. -/
theorem write_value {s' : Store} (hs : s.Extends s') {e : Sexp} (he : s.Holds e) {fuel : Nat}
    {path : Std.TreeSet Nat} (hfuel : e.height ≤ fuel) (hpath : s.Above path e.height)
    (out : String) :
    s'.write fuel path e.value out = e.write out ∧
      s'.writeTail fuel path e.value out = e.writeTail out := by
  induction e generalizing fuel path out with
  | atom a => cases a <;> cases fuel <;> exact ⟨rfl, rfl⟩
  | pair c head tail ihHead ihTail =>
    obtain ⟨hlt, hcell, hhead, htail⟩ := id he
    have hheight : (Sexp.pair c head tail).height = max head.height tail.height + 1 := rfl
    obtain ⟨fuel, rfl⟩ : ∃ n, fuel = n + 1 := ⟨fuel - 1, by omega⟩
    have hnew : c ∉ path := hpath.not_mem he
    have habove {part : Sexp} (hlt : part.height < (Sexp.pair c head tail).height) :
        s.Above (path.insert c) part.height := hpath.insert he hlt
    have hheadLe : head.height ≤ fuel := by omega
    have htailLe : tail.height ≤ fuel := by omega
    have hfirst (out : String) := ihHead hhead hheadLe (habove (by omega)) out
    have hrest (out : String) := ihTail htail htailLe (habove (by omega)) out
    rw [Sexp.value, write, writeTail, if_neg hnew, if_neg hnew, hs.cell_eq c hlt, hcell]
    dsimp only
    rw [(hfirst _).1, (hfirst _).1, (hrest _).2, (hrest _).2]
    exact ⟨rfl, rfl⟩

/-- The printed form of the value of a held tree is that of the tree. -/
theorem render_value {e : Sexp} (he : s.Holds e) : s.render e.value = e.render :=
  (write_value (.refl s) he (Nat.le_succ_of_le he.height_le_size) (above_empty s _) "").1

end Store

namespace Sexp

/-- Trees without callables that are the same are printed in the same way. -/
theorem write_eq_of_same {e e' : Sexp} (he : e.AllAtoms Atom.Plain) (h : e.same e' = true)
    (out : String) : e.write out = e'.write out ∧ e.writeTail out = e'.writeTail out := by
  induction e generalizing e' out with
  | atom a =>
    obtain ⟨b, rfl, hab⟩ := exists_atom_of_same h
    obtain rfl := Atom.Plain.eq_of_same he hab
    exact ⟨rfl, rfl⟩
  | pair c head tail ihHead ihTail =>
    obtain ⟨c', head', tail', rfl, hhead, htail⟩ := exists_pair_of_same h
    simp only [write, writeTail, (ihHead he.1 hhead _).1, (ihTail he.2 htail _).2, and_self]

/-- The printed form of a tree without callables does not depend on its cells. -/
theorem render_eq_of_same {e e' : Sexp} (he : e.AllAtoms Atom.Plain) (h : e.same e' = true) :
    e.render = e'.render :=
  (write_eq_of_same he h "").1

end Sexp

end Secd
