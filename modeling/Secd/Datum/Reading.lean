import Secd.Datum
import Secd.Sexp
import Std.Data.TreeMap

/-!
# From data to S-expressions

Reading a datum builds its S-expression in the store. Where each part was written is kept beside
the expression in a source map: for every cell, the span of the datum in its head, and for the
whole expression, the span of the datum that it was read from. The notation `'d` stands for the
list `(QUOTE d)`; the cell that holds `QUOTE` gets the span of the quote mark.
-/

namespace Secd

/-- Where the parts of an S-expression were written. -/
structure SourceMap where
  heads : Std.TreeMap Nat Span := ∅
  root : Option Span := none

namespace SourceMap

/-- A map that knows no spans. -/
def empty : SourceMap := {}

/-- The span of the datum in the head of a cell. -/
def headSpan? (map : SourceMap) (cell : Nat) : Option Span := map.heads[cell]?

/-- Notes the span of the datum in the head of a cell. -/
def insert (map : SourceMap) (cell : Nat) (span : Span) : SourceMap :=
  match map with
  | ⟨heads, root⟩ => ⟨heads.insert cell span, root⟩

end SourceMap

namespace Datum

/-- A new pair whose head was written at `span`. -/
def cons (s : Store) (map : SourceMap) (head tail : Sexp) (span : Span) :
    Sexp × Store × SourceMap :=
  let address := s.size
  match s.consTree head tail with
  | (e, s) => (e, s, map.insert address span)

mutual

/-- Builds the S-expression of a datum, and notes the spans of its parts. -/
def build (s : Store) (map : SourceMap) : Datum → Sexp × Store × SourceMap
  | .int n _ => (.int n, s, map)
  | .symbol name _ => (.atom (Atom.ofName name), s, map)
  | .quoted datum span =>
    match datum.build s map with
    | (e, s, map) =>
      match cons s map e .nil datum.span with
      | (rest, s, map) => cons s map (.symbol "QUOTE") rest ⟨span.start, span.start + 1⟩
  | .list items _ => buildList s map .nil items
  | .dotted items tail _ =>
    match tail.build s map with
    | (tail, s, map) => buildList s map tail items

/-- Builds the list of the given data in front of `tail`. -/
def buildList (s : Store) (map : SourceMap) (tail : Sexp) :
    List Datum → Sexp × Store × SourceMap
  | [] => (tail, s, map)
  | item :: items =>
    match item.build s map with
    | (e, s, map) =>
      match buildList s map tail items with
      | (rest, s, map) => cons s map e rest item.span

end

end Datum

/-- An S-expression and where it was written. -/
structure Reading where
  expression : Sexp
  map : SourceMap

/-- Reads one datum into the store. -/
def Datum.read (d : Datum) (s : Store) : Reading × Store :=
  match d.build s .empty with
  | (e, s, map) => (⟨e, { map with root := some d.span }⟩, s)

end Secd
