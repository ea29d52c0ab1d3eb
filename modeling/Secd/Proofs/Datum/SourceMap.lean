import Secd.Proofs.Datum.Layout
import Secd.Reader

/-!
# The spans of a source map

Reading a datum notes the spans of its parts, and of its quote marks, for the cells that are built.
So the spans of a source map are within the text if those of the datum are.
-/

namespace Secd

namespace SourceMap

/-- All spans of the map are within the text. -/
structure Within (map : SourceMap) (source : String) : Prop where
  heads : ∀ cell, ∀ span ∈ map.headSpan? cell, span.Within source
  root : ∀ span ∈ map.root, span.Within source

variable {source : String}

/-- A map that knows no spans has none outside of the text. -/
theorem within_empty (source : String) : SourceMap.empty.Within source where
  heads cell span hspan := by
    rw [headSpan?, empty, Std.TreeMap.getElem?_emptyc] at hspan
    cases hspan
  root span hspan := by cases hspan

/-- A span within the text keeps the map within it. -/
theorem Within.insert {map : SourceMap} (hmap : map.Within source) (cell : Nat) {span : Span}
    (hspan : span.Within source) : (map.insert cell span).Within source where
  heads other found hfound := by
    simp only [headSpan?, SourceMap.insert, Std.TreeMap.getElem?_insert] at hfound
    split at hfound
    · cases hfound
      exact hspan
    · exact hmap.heads other found hfound
  root := hmap.root

end SourceMap

namespace Datum

variable {source : String}

mutual

/-- Building a datum within the text keeps the map within it. -/
theorem within_build (s : Store) {map : SourceMap} (hmap : map.Within source) :
    (d : Datum) → d.Within source → (d.build s map).2.2.Within source
  | .int _ _, _ => hmap
  | .symbol _ _, _ => hmap
  | .quoted d span, hd => by
    have hinner := within_build s hmap d hd.2.2
    rw [build]
    exact (hinner.insert _ hd.2.2.span).insert _ hd.2.1
  | .list items span, hd => by
    rw [build]
    exact within_buildList s hmap _ items hd.2
  | .dotted items tail span, hd => by
    have htail := within_build s hmap tail hd.2.2
    rw [build]
    exact within_buildList _ htail _ items hd.2.1

/-- Building data within the text keeps the map within it. -/
theorem within_buildList (s : Store) {map : SourceMap} (hmap : map.Within source) (tail : Sexp) :
    (ds : List Datum) → AllWithin source ds → (buildList s map tail ds).2.2.Within source
  | [], _ => hmap
  | d :: ds, hds => by
    have hfirst := within_build s hmap d hds.1
    rw [buildList]
    exact (within_buildList _ hfirst tail ds hds.2).insert _ hds.1.span

end

/-- The source map of a datum within the text is within the text. -/
theorem within_read {d : Datum} (hd : d.Within source) (s : Store) :
    (d.read s).1.map.Within source where
  heads := (within_build s (SourceMap.within_empty source) d hd).heads
  root span hspan := by
    cases hspan
    exact hd.span

/-- The source map of a datum has the span of the datum as its root. -/
theorem root_read (d : Datum) (s : Store) : (d.read s).1.map.root = some d.span := rfl

end Datum

end Secd
