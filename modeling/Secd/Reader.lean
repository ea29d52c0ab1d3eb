import Secd.Datum.Parser
import Secd.Datum.Reading
import Secd.Diagnostic
import Secd.Token.Lexer

/-!
# Reading program text

The whole way from a text to S-expressions. Faulty tokens are reported all together and before
anything else; a text without them has at most one fault of syntax. A text that ends too early is
blamed at the span from the end of the text back to the end of its last token.
-/

namespace Secd.Reader

/-- The message about a token, or about the end of the text, at a place where it cannot stand. -/
def unexpected (found : Option Lexeme) (place : Place) : String :=
  let what := match found with
    | some lexeme => "'" ++ lexeme.token.text ++ "'"
    | none => "end of input"
  "found " ++ what ++ " expected " ++ place.expected

/-- The diagnostic for a fault of syntax in a text of the given tokens. -/
def syntaxDiagnostic (source : String) (lexemes : List Lexeme) (fault : SyntaxFault) :
    Diagnostic :=
  let span := match fault.found with
    | some lexeme => lexeme.span
    | none => ⟨source.utf8ByteSize, (lexemes.getLast?.map fun l => l.span.stop).getD 0⟩
  ⟨unexpected fault.found fault.place, span⟩

/-- The diagnostics for the faulty tokens. -/
def tokenDiagnostics (lexemes : List Lexeme) : List Diagnostic :=
  (lexemes.filter fun l => l.token.isFault).map fun l => ⟨l.token.text, l.span⟩

/-- The data of a source text. -/
def parse (source : String) : Except (List Diagnostic) (List Datum) :=
  let lexemes := Lexeme.scan source
  match tokenDiagnostics lexemes with
  | [] =>
    match Datum.parse lexemes with
    | .ok data => .ok data
    | .error fault => .error [syntaxDiagnostic source lexemes fault]
  | diagnostics => .error diagnostics

/-- Reads data one after the other, each with a source map of its own. -/
def readData : List Datum → Store → List Reading × Store
  | [], s => ([], s)
  | d :: ds, s =>
    match d.read s with
    | (reading, s) =>
      match readData ds s with
      | (readings, s) => (reading :: readings, s)

/-- Reads all data of a source text. -/
def readAll (source : String) (s : Store) : Except (List Diagnostic) (List Reading) × Store :=
  match parse source with
  | .ok data =>
    match readData data s with
    | (readings, s) => (.ok readings, s)
  | .error diagnostics => (.error diagnostics, s)

/-- The only datum of a source text. -/
def parseOne (source : String) : Except (List Diagnostic) Datum :=
  match parse source with
  | .ok [d] => .ok d
  | .ok [] =>
    .error [⟨"expected a datum, found end of input", ⟨source.utf8ByteSize, source.utf8ByteSize⟩⟩]
  | .ok (first :: second :: rest) =>
    let count := (first :: second :: rest).length
    .error [⟨"expected exactly one datum, found " ++ toString count, second.span⟩]
  | .error diagnostics => .error diagnostics

/-- Reads a source text that holds exactly one datum. -/
def readOne (source : String) (s : Store) : Except (List Diagnostic) Reading × Store :=
  match parseOne source with
  | .ok d =>
    match d.read s with
    | (reading, s) => (.ok reading, s)
  | .error diagnostics => (.error diagnostics, s)

end Secd.Reader
