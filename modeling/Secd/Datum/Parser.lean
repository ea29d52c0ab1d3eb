import Secd.Datum
import Secd.Token

/-!
# From tokens to data

The parser reads the tokens one at a time. Its state holds the data read so far and the constructs
still open, the innermost one first, so it is known after every token what may come next: that is
the *place* of the state. A token that cannot come next is the fault, and the place says what was
expected instead.
-/

namespace Secd

/-- What may come next, after a sequence of tokens that begins some program. -/
inductive Place where
  /-- Outside all data: another datum, or the end. -/
  | top
  /-- Just after an opening parenthesis: a datum, or the end of the empty list. -/
  | opening
  /-- After an item of a list: another one, the dot, or the end of the list. -/
  | items
  /-- After a quote or a dot: a datum. -/
  | datum
  /-- After the tail of a list: its end. -/
  | closing
deriving DecidableEq, Repr

/-- The tokens that may come at a place, as messages name them. -/
def Place.expected : Place → String
  | .top => "atom, quoted datum, list, or end of input"
  | .opening => "atom, quoted datum, list, or '')''"
  | .items => "atom, quoted datum, list, ''.'', or '')''"
  | .datum => "atom, quoted datum, or list"
  | .closing => "'')''"

/-- A construct that waits for a datum. It begins at byte `start`, and the items of a list that have
been read are in `items`, the last one first. -/
inductive Construct where
  | quoted (start : Nat)
  | list (start : Nat) (items : List Datum)
  /-- A list whose dot has been read. -/
  | dotted (start : Nat) (items : List Datum)
deriving Repr

/-- What the parser knows: the data that are complete, the last one first, and the constructs that
are open, the innermost one first. -/
inductive ParserState where
  /-- A datum may come next. -/
  | ready (complete : List Datum) (pending : List Construct)
  /-- The innermost construct is a list whose tail has been read: only its end may come next. -/
  | closing (complete : List Datum) (start : Nat) (items : List Datum) (tail : Datum)
    (outer : List Construct)
deriving Repr

namespace ParserState

/-- The state before the first token. -/
def start : ParserState := .ready [] []

/-- What may come next. -/
def place : ParserState → Place
  | .ready _ [] => .top
  | .ready _ (.quoted _ :: _) => .datum
  | .ready _ (.list _ [] :: _) => .opening
  | .ready _ (.list _ (_ :: _) :: _) => .items
  | .ready _ (.dotted _ _ :: _) => .datum
  | .closing _ _ _ _ _ => .closing

/-- The state after a datum has been read inside the given constructs. A quote ends with its
datum. -/
def supply (complete : List Datum) (d : Datum) : List Construct → ParserState
  | [] => .ready (d :: complete) []
  | .quoted start :: outer => supply complete (.quoted d ⟨start, d.span.stop⟩) outer
  | .list start items :: outer => .ready complete (.list start (d :: items) :: outer)
  | .dotted start items :: outer => .closing complete start items d outer

/-- The state after one more token, if it may come next. -/
def step? : ParserState → Lexeme → Option ParserState
  | .ready complete pending, ⟨token, span⟩ =>
    match token, pending with
    | .int n, _ => some (supply complete (.int n span) pending)
    | .symbol name, _ => some (supply complete (.symbol name span) pending)
    | .quote, _ => some (.ready complete (.quoted span.start :: pending))
    | .lparen, _ => some (.ready complete (.list span.start [] :: pending))
    | .rparen, .list start items :: outer =>
      some (supply complete (.list items.reverse ⟨start, span.stop⟩) outer)
    | .dot, .list start (item :: items) :: outer =>
      some (.ready complete (.dotted start (item :: items) :: outer))
    | _, _ => none
  | .closing complete start items tail outer, ⟨token, span⟩ =>
    match token with
    | .rparen => some (supply complete (.dotted items.reverse tail ⟨start, span.stop⟩) outer)
    | _ => none

end ParserState

/-- The first token that cannot come next, or the end of the text if that comes too early, and the
place where it stands. -/
structure SyntaxFault where
  found : Option Lexeme
  place : Place
deriving Repr

namespace Datum

/-- Reads the tokens from a state on. -/
def parseFrom : ParserState → List Lexeme → Except SyntaxFault (List Datum)
  | .ready complete [], [] => .ok complete.reverse
  | s, [] => .error ⟨none, s.place⟩
  | s, lexeme :: rest =>
    match s.step? lexeme with
    | some next => parseFrom next rest
    | none => .error ⟨some lexeme, s.place⟩

/-- The data that a sequence of tokens consists of. -/
def parse (lexemes : List Lexeme) : Except SyntaxFault (List Datum) :=
  parseFrom .start lexemes

end Datum

end Secd
