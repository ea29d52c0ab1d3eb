import Secd.Datum.Parser

/-!
# The grammar of program text

The grammar says which sequences of tokens are programs, with no parser in it:

    program := datum*
    datum   := int | symbol | quote datum | ( ) | ( datum+ ) | ( datum+ . datum )

A sequence of tokens is viable if some program begins with it. What a message may say was expected
after a viable sequence is a list of classes of tokens, to which the end of the text is added; such
a list is right if it has exactly the classes of the tokens with which the sequence stays viable.
-/

namespace Secd

namespace Grammar

/-- The tokens are derived from `datum`. -/
inductive DerivesDatum : List Token → Prop where
  | int (n : Int64) : DerivesDatum [.int n]
  | symbol (name : String) : DerivesDatum [.symbol name]
  | quoted {ts : List Token} (hdatum : DerivesDatum ts) : DerivesDatum (.quote :: ts)
  | empty : DerivesDatum [.lparen, .rparen]
  | list {items : List (List Token)} (hne : items ≠ [])
      (hitems : ∀ item ∈ items, DerivesDatum item) :
      DerivesDatum (.lparen :: (items.flatten ++ [.rparen]))
  | dotted {items : List (List Token)} {tail : List Token} (hne : items ≠ [])
      (hitems : ∀ item ∈ items, DerivesDatum item) (htail : DerivesDatum tail) :
      DerivesDatum (.lparen :: (items.flatten ++ .dot :: (tail ++ [.rparen])))

/-- The tokens are derived from `program`. -/
def DerivesProgram (ts : List Token) : Prop :=
  ∃ items : List (List Token), ts = items.flatten ∧ ∀ item ∈ items, DerivesDatum item

/-- The tokens are the beginning of a program. -/
def Viable (ts : List Token) : Prop := ∃ more, DerivesProgram (ts ++ more)

/-- What begins the beginning of a program begins the program. -/
theorem Viable.of_append {ts us : List Token} (h : Viable (ts ++ us)) : Viable ts := by
  obtain ⟨more, hmore⟩ := h
  refine ⟨us ++ more, ?_⟩
  rwa [← List.append_assoc]

end Grammar

/-! ### What was expected -/

/-- How a text may go on, as messages tell it: with a token of some class, or with its end. -/
inductive Continuation where
  | atom | quoted | list | dot | rparen | endOfInput
deriving DecidableEq, Repr

/-- The name of a continuation in messages. -/
def Continuation.text : Continuation → String
  | .atom => "atom"
  | .quoted => "quoted datum"
  | .list => "list"
  | .dot => "''.''"
  | .rparen => "'')''"
  | .endOfInput => "end of input"

/-- How a message lists several continuations. -/
def Continuation.alternatives : List Continuation → String
  | [] => ""
  | [last] => last.text
  | [first, last] => first.text ++ ", or " ++ last.text
  | first :: others => first.text ++ ", " ++ alternatives others

/-- The class of a token, which faulty tokens do not have. The first token of a datum says whether
this is an atom, a quoted datum or a list. -/
def Token.continuation? : Token → Option Continuation
  | .int _ | .symbol _ => some .atom
  | .quote => some .quoted
  | .lparen => some .list
  | .dot => some .dot
  | .rparen => some .rparen
  | .invalid _ | .outOfRange _ => none

/-- What is expected at a place. -/
def Place.continuations : Place → List Continuation
  | .top => [.atom, .quoted, .list, .endOfInput]
  | .opening => [.atom, .quoted, .list, .rparen]
  | .items => [.atom, .quoted, .list, .dot, .rparen]
  | .datum => [.atom, .quoted, .list]
  | .closing => [.rparen]

/-- The message for a place lists what is expected there. -/
theorem Place.expected_eq (place : Place) :
    place.expected = Continuation.alternatives place.continuations := by
  cases place <;> decide

namespace Grammar

/-- The list has exactly the classes of the tokens that may come after the given ones, and the end
of the text if these are a program. -/
structure Expects (ts : List Token) (continuations : List Continuation) : Prop where
  nodup : continuations.Nodup
  token : ∀ t, Viable (ts ++ [t]) ↔ ∃ c ∈ continuations, t.continuation? = some c
  endOfInput : DerivesProgram ts ↔ .endOfInput ∈ continuations

end Grammar

end Secd
