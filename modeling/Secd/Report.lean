import Secd.Diagnostic
import Secd.Text.Blank
import Secd.Text.Layout
import Secd.Text.Width

/-!
# Reports

A report shows a diagnostic in colour: a header, the lines of the source text in which the span
begins and ends, and below them the message with a line drawn to the span. Columns are counted in
characters, which may take more or less than one column of the terminal; a tab reaches to the next
multiple of four.
-/

namespace Secd

namespace Report

/-! ## Colours -/

/-- Text in the colour of errors. -/
def red (text : String) : String := "\x1b[31m" ++ text ++ "\x1b[0m"

/-- Text in one of the shades of grey of a 256-colour terminal. -/
def shaded (shade : Nat) (text : String) : String :=
  "\x1b[38;5;" ++ toString shade ++ "m" ++ text ++ "\x1b[0m"

/-- The frame of a report. -/
def frame (text : String) : String := shaded 246 text

/-- The margin beside lines that are not from the source text. -/
def faint (text : String) : String := shaded 240 text

/-- Source text outside the span. -/
def plain (text : String) : String := shaded 249 text

/-- A text of copies. -/
def copies (n : Nat) (text : String) : String := String.join (List.replicate n text)

/-! ## Lines -/

/-- Whether the character ends a line. -/
def isLineEnd (c : Char) : Bool :=
  c == '\n' || c == '\r' || c == '\x0b' || c == '\x0c' || c == '\u0085' || c == '\u2028' ||
    c == '\u2029'

/-- Cuts a text after the end of each line, given what the line holds so far, last character first.
A carriage return and a line feed together end one line. -/
def linesFrom (line : List Char) : List Char → List (List Char)
  | [] => if line.isEmpty then [] else [line.reverse]
  | '\r' :: '\n' :: rest => ('\n' :: '\r' :: line).reverse :: linesFrom [] rest
  | c :: rest =>
    if isLineEnd c then (c :: line).reverse :: linesFrom [] rest else linesFrom (c :: line) rest

/-- A line of the source text, with what ends it. -/
structure Line where
  /-- The number of the line, from zero. -/
  index : Nat
  /-- The number of the first character of the line in the text. -/
  offset : Nat
  /-- The number of the first byte of the line in the text. -/
  byteOffset : Nat
  text : List Char
deriving Repr, Inhabited

namespace Line

/-- Numbers lines and their characters. -/
def number (index offset byteOffset : Nat) : List (List Char) → List Line
  | [] => []
  | text :: rest =>
    ⟨index, offset, byteOffset, text⟩ ::
      number (index + 1) (offset + text.length) (byteOffset + utf8Length text) rest

/-- The lines of a text; the empty text is one empty line. -/
def ofSource (source : List Char) : List Line :=
  number 0 0 0 (if source.isEmpty then [[]] else linesFrom [] source)

/-- The line that holds byte `byte`; an offset just after the text counts to its last line. -/
def find? (lines : List Line) (byte : Nat) : Option Line :=
  match lines.findRev? fun l => l.byteOffset ≤ byte with
  | some l =>
    if byte < l.byteOffset + utf8Length l.text then some l
    else if (lines.getLast?.map Line.index) = some l.index ∧
        byte = l.byteOffset + utf8Length l.text then some l
    else none
  | none => none

/-- How many characters end within the first `bytes` bytes. -/
def charactersIn (bytes : Nat) : List Char → Nat
  | [] => 0
  | c :: rest => if c.utf8Size ≤ bytes then charactersIn (bytes - c.utf8Size) rest + 1 else 0

/-- The number in the text of the character that holds byte `byte`. -/
def characterAt (l : Line) (byte : Nat) : Nat :=
  l.offset + charactersIn (byte - l.byteOffset) l.text

/-- How many columns of the terminal a character of the line takes. -/
def characterWidth (column : Nat) (c : Char) : Nat :=
  if c = '\t' then (column / 4 + 1) * 4 - column
  else if Text.isBlank c then 1
  else Text.width c

/-- How many columns of the terminal each of the first `count` columns of the line takes: as many as
the character there, and one where the line has only blanks left or none at all. -/
def columnWidths (l : Line) (count : Nat) : List Nat :=
  (((Text.trimEnd l.text).mapIdx characterWidth).rightpad count 1).take count

/-- A row of `count` columns below the line: `mark` gives the first and the other pieces of a
column. -/
def row (l : Line) (count : Nat) (mark : Nat → String × String) : String :=
  String.join ((l.columnWidths count).mapIdx fun column width =>
    let (head, tail) := mark column
    match width with
    | 0 => ""
    | width + 1 => head ++ copies width tail)

/-- The text of the line; the characters from `start` to `stop` are in the span. -/
def shown (l : Line) (start stop : Nat) : String :=
  String.join ((Text.trimEnd l.text).mapIdx fun column c =>
    let colour := if start ≤ l.offset + column ∧ l.offset + column < stop then red else plain
    if Text.isBlank c then copies (characterWidth column c) (colour " ") else colour c.toString)

end Line

/-! ## The parts of a report -/

/-- What a report draws: the lines in which the span begins and ends, and the numbers of its first
character and of the first one after it. -/
structure Extent where
  first : Line
  last : Line
  start : Nat
  stop : Nat

/-- The part of the source text that a span covers, if both ends are in the text. -/
def Extent.find? (source : List Char) (span : Span) : Option Extent := do
  let lines := Line.ofSource source
  let first ← Line.find? lines span.start
  let start := first.characterAt span.start
  if span.start = span.stop then
    some ⟨first, first, start, start⟩
  else
    let last ← Line.find? lines (span.stop - 1)
    some ⟨first, last, start, last.characterAt (span.stop - 1) + 1⟩

/-- The margin beside a line of the source text. -/
def numberedMargin (width : Nat) (l : Line) : String :=
  " " ++ frame (Text.padLeft width (toString (l.index + 1)) ++ " │") ++ " "

/-- The margin beside other lines. -/
def blankMargin (width : Nat) : String :=
  " " ++ faint (copies (width + 1) " " ++ "│") ++ " "

/-- The lines for a span within one line of the text: the line, an underline with a joint in its
middle, and the message after an arrow from the joint. -/
def singleLine (width : Nat) (x : Extent) (message : String) : List String :=
  let l := x.first
  let start := x.start - l.offset
  let stop := x.stop - l.offset
  let middle := (start + stop) / 2
  let within (column : Nat) : Bool := start ≤ column && column < stop
  let underline (column : Nat) : String × String :=
    if column = middle then
      if within middle then (red "┬", red "─") else (red "│", red " ")
    else if within column then (red "─", red "─")
    else (" ", " ")
  let arrow (column : Nat) : String × String :=
    if column < middle then (" ", " ")
    else if column = middle then (red "╰", red "─")
    else (red "─", red "─")
  [numberedMargin width l ++ l.shown x.start x.stop,
    blankMargin width ++ l.row (stop + 2) underline,
    blankMargin width ++ l.row (stop + 2) arrow ++ " " ++ message]

/-- The lines for a span over several lines of the text: its first and its last line, with dots for
those between them, and the message below an edge that joins them. -/
def multiLine (width : Nat) (x : Extent) (message : String) : List String :=
  let count := x.last.text.length + 2
  let dots :=
    if x.first.index + 1 < x.last.index then
      [" " ++ faint (copies (width + 1) " " ++ "┆") ++ " " ++ red "┆" ++ "   "]
    else
      []
  let edge (corner : String) : String := red corner ++ red "─" ++ red "▶" ++ red " "
  [numberedMargin width x.first ++ edge "╭" ++ x.first.shown x.start x.stop] ++ dots ++
  [numberedMargin width x.last ++ edge "├" ++ x.last.shown x.start x.stop,
    blankMargin width ++ red "│" ++ "   " ++ x.last.row count (fun _ => (" ", " ")),
    blankMargin width ++ red "╰" ++ red "─" ++ red "─" ++ red "─" ++
      x.last.row count (fun _ => (red "─", red "─")) ++ " " ++ message]

/-- The lines below the header. -/
def body (path message : String) (x : Extent) : List String :=
  let width := (toString (x.last.index + 1)).length
  let place := path ++ ":" ++ toString (x.first.index + 1) ++ ":" ++
    toString (x.start - x.first.offset + 1)
  let lines :=
    if x.first.index = x.last.index then singleLine width x message
    else multiLine width x message
  [copies (width + 2) " " ++ frame "╭" ++ frame "─" ++ frame "[" ++ " " ++ place ++ " " ++
      frame "]",
    copies (width + 2) " " ++ frame "│"] ++ lines ++
  [frame (copies (width + 2) "─" ++ "╯")]

/-- The header: the number and the kind of the error. -/
def header (kind : String) (code : Nat) : String :=
  let number := if code < 10 then "0" ++ toString code else toString code
  red ("[" ++ number ++ "] Error:") ++ " " ++ kind

end Report

namespace Diagnostic

/-- The report about a diagnostic in a source text. A span that ends before it begins cannot be
drawn; one that reaches beyond the text is not drawn, and only the header is left. -/
def report? (d : Diagnostic) (path source kind : String) (code : Nat) : Option String :=
  if d.span.stop < d.span.start then
    none
  else
    let lines := match Report.Extent.find? source.toList d.span with
      | some x => Report.body path d.message x
      | none => []
    some (String.join ((Report.header kind code :: lines).map (· ++ "\n")))

/-- The reports about all diagnostics, one after the other, if each of them can be drawn. -/
def reports? (ds : List Diagnostic) (path source kind : String) (code : Nat) : Option String :=
  (ds.mapM fun d => report? d path source kind code).map String.join

end Diagnostic

end Secd
