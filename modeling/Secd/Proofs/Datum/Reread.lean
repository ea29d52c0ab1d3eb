import Secd.Proofs.Term.Congruent

/-!
# Data that are read twice

A datum can be read into one store and into another one. Both times new cells are taken in the same
order, and each gets the same span. So the two expressions have the same shape and the same atoms,
and what is in the cells at the same place was written at the same place.
-/

namespace Secd

namespace Datum

open Sexp

/-- The cells come equally far behind the two addresses. -/
def Offset (n n' c c' : Nat) : Prop := ∃ i, c = n + i ∧ c' = n' + i

/-- From the two addresses on the stores have equally many cells, and the spans of the cells are the
same. -/
structure Abreast (n n' : Nat) (s s' : Store) (map map' : SourceMap) : Prop where
  size : Offset n n' s.size s'.size
  spans : ∀ i, map.headSpan? (n + i) = map'.headSpan? (n' + i)

/-- What has been built is the same from the two addresses on. -/
structure Rebuilt (n n' : Nat) (x x' : Sexp × Store × SourceMap) : Prop where
  tree : Congruent (Offset n n') x.1 x'.1
  rest : Abreast n n' x.2.1 x'.2.1 x.2.2 x'.2.2

variable {n n' : Nat}

/-- A new pair takes the next cell of both stores, with the same span. -/
theorem rebuilt_cons {s s' : Store} {map map' : SourceMap} (h : Abreast n n' s s' map map')
    {head head' tail tail' : Sexp}
    (hhead : Congruent (Offset n n') head head') (htail : Congruent (Offset n n') tail tail')
    (span : Span) : Rebuilt n n' (cons s map head tail span) (cons s' map' head' tail' span) := by
  obtain ⟨k, hsize, hsize'⟩ := h.size
  refine ⟨.pair h.size hhead htail, ⟨k + 1, ?_, ?_⟩, fun i => ?_⟩
  · exact (Store.size_cons s _ _).trans (congrArg Nat.succ hsize)
  · exact (Store.size_cons s' _ _).trans (congrArg Nat.succ hsize')
  · have hspans := h.spans i
    rw [SourceMap.headSpan?, SourceMap.headSpan?] at hspans
    simp only [cons, SourceMap.headSpan?, SourceMap.insert, Std.TreeMap.getElem?_insert, hsize,
      hsize', hspans, compare_eq_iff_eq, Nat.add_left_cancel_iff]

mutual

/-- A datum is built in the same way. -/
theorem rebuilt_build {s s' : Store} {map map' : SourceMap} (h : Abreast n n' s s' map map') :
    (d : Datum) → Rebuilt n n' (d.build s map) (d.build s' map')
  | .int m _ => ⟨.atom (.int m), h⟩
  | .symbol name _ => ⟨.atom (Atom.ofName name), h⟩
  | .quoted d span => by
    have hquoted := rebuilt_build h d
    have hrest := rebuilt_cons hquoted.rest hquoted.tree (.atom .nil) d.span
    rw [build, build]
    exact rebuilt_cons hrest.rest (.atom (.symbol "QUOTE")) hrest.tree _
  | .list items _ => by
    rw [build, build]
    exact rebuilt_buildList h (.atom .nil) items
  | .dotted items tail _ => by
    have htail := rebuilt_build h tail
    rw [build, build]
    exact rebuilt_buildList htail.rest htail.tree items

/-- So is a list of data. -/
theorem rebuilt_buildList {s s' : Store} {map map' : SourceMap} (h : Abreast n n' s s' map map')
    {tail tail' : Sexp} (htail : Congruent (Offset n n') tail tail') :
    (ds : List Datum) → Rebuilt n n' (buildList s map tail ds) (buildList s' map' tail' ds)
  | [] => ⟨htail, h⟩
  | d :: ds => by
    have hfirst := rebuilt_build h d
    have hothers := rebuilt_buildList hfirst.rest htail ds
    rw [buildList, buildList]
    exact rebuilt_cons hothers.rest hfirst.tree hothers.tree d.span

end

/-- A datum that is read twice has the same spans at the same places. -/
theorem congruent_read (d : Datum) (s s' : Store) :
    Congruent (Term.Sites Eq (d.read s).1.map (d.read s').1.map) (d.read s).1.expression
      (d.read s').1.expression := by
  have hstart : Abreast s.size s'.size s s' .empty .empty :=
    ⟨⟨0, rfl, rfl⟩, fun _ => by simp [SourceMap.headSpan?, SourceMap.empty]⟩
  have hbuilt := rebuilt_build hstart d
  refine hbuilt.tree.imp ?_
  rintro c c' ⟨i, rfl, rfl⟩
  exact hbuilt.rest.spans i

end Datum

end Secd
