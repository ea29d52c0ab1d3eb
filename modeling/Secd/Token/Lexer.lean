import Secd.Token

/-!
# Cutting a text into tokens

Blanks and comments separate tokens and are dropped; a comment runs from a semicolon to the end of
its line. Everything else is cut from left to right into the longest possible tokens. A run of
symbol characters that begins with a minus sign is an integer if only digits follow the sign, and a
symbol otherwise; a run that begins with a digit ends with its last digit, whatever follows.
-/

namespace Secd

/-- The blanks: space, tab, carriage return, line feed and form feed. -/
def isBlank (c : Char) : Bool :=
  c == ' ' || c == '\t' || c == '\r' || c == '\n' || c == '\x0c'

/-- The characters other than letters that a symbol may begin with. -/
def symbolMarks : List Char := "!$%&*/:<=>?^_~+-".toList

/-- Whether a symbol may begin with the character: an ASCII letter or one of the marks. -/
def isSymbolStart (c : Char) : Bool := c.isAlpha || symbolMarks.contains c

/-- Whether a symbol may go on with the character: digits and the dot join those it may begin
with. -/
def isSymbolPart (c : Char) : Bool := isSymbolStart c || c.isDigit || c == '.'

namespace Token

/-- The token of an integer literal. -/
def ofDigits (digits : List Char) : Token :=
  match Integer.ofDigits? digits with
  | some n => .int n
  | none => .outOfRange (String.ofList digits)

/-- The token of a run of symbol characters: an integer literal wins over a symbol of the same
length. -/
def ofRun : List Char → Token
  | '-' :: d :: digits =>
    if (d :: digits).all Char.isDigit then
      ofDigits ('-' :: d :: digits)
    else
      .symbol (String.ofList ('-' :: d :: digits))
  | run => .symbol (String.ofList run)

/-- The token that begins with `c`, given the text after `c`, and the characters of that text that
still belong to it. -/
def scan (c : Char) (rest : List Char) : Token × List Char :=
  if c = '(' then (.lparen, [])
  else if c = ')' then (.rparen, [])
  else if c = '.' then (.dot, [])
  else if c = '\x27' then (.quote, [])
  else if c.isDigit then
    let more := rest.takeWhile Char.isDigit
    (ofDigits (c :: more), more)
  else if isSymbolStart c then
    let more := rest.takeWhile isSymbolPart
    (ofRun (c :: more), more)
  else (.invalid c, [])

end Token

namespace Lexeme

/-- The tokens of `text`, which begins at byte `offset` of the source. -/
def scanFrom (offset : Nat) (text : List Char) : List Lexeme :=
  match text with
  | [] => []
  | c :: rest =>
    if isBlank c then
      scanFrom (offset + c.utf8Size) rest
    else if c = ';' then
      let comment := rest.takeWhile (· != '\n')
      scanFrom (offset + utf8Length (c :: comment)) (rest.drop comment.length)
    else
      let (token, more) := Token.scan c rest
      let stop := offset + utf8Length (c :: more)
      ⟨token, ⟨offset, stop⟩⟩ :: scanFrom stop (rest.drop more.length)
termination_by text.length
decreasing_by all_goals simp only [List.length_cons, List.length_drop]; omega

/-- The tokens of a source text. -/
def scan (source : String) : List Lexeme :=
  scanFrom 0 source.toList

end Lexeme

end Secd
