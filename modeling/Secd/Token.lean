import Secd.Integer
import Secd.Span

/-!
# Tokens

The tokens of program text. Characters that begin no token, and decimal numbers outside the 64-bit
range, are tokens of their own kinds, so that every text has a sequence of tokens and the faults in
it can be reported one by one.
-/

namespace Secd

/-- A token of program text. -/
inductive Token where
  | lparen
  | rparen
  | dot
  | quote
  | int (n : Int64)
  | symbol (name : String)
  /-- A character that begins no token. -/
  | invalid (c : Char)
  /-- A decimal number that no machine integer has as its value. -/
  | outOfRange (digits : String)
deriving DecidableEq, Repr, Inhabited

namespace Token

/-- The text of a token in messages; for a faulty token, the message itself. -/
def text : Token → String
  | .lparen => "'('"
  | .rparen => "')'"
  | .dot => "'.'"
  | .quote => "quote"
  | .int n => Integer.text n
  | .symbol name => name
  | .invalid c => "Invalid token '" ++ c.toString ++ "'"
  | .outOfRange digits => "Integer literal '" ++ digits ++ "' is out of range"

/-- Whether the token stands for a fault in the text. -/
def isFault : Token → Bool
  | .invalid _ => true
  | .outOfRange _ => true
  | _ => false

end Token

/-- A token and the bytes of the source text that it covers. -/
structure Lexeme where
  token : Token
  span : Span
deriving DecidableEq, Repr, Inhabited

end Secd
