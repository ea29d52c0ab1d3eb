import Secd.Text.Ranges

/-!
# Blank characters

The characters with the Unicode property `White_Space`, and what is cut from texts at them.
-/

namespace Secd.Text

/-- The ranges of the blank characters. -/
def blankRanges : Ranges :=
  [(0x09, 0x0d), (0x20, 0x20), (0x85, 0x85), (0xa0, 0xa0), (0x1680, 0x1680), (0x2000, 0x200a),
   (0x2028, 0x2029), (0x202f, 0x202f), (0x205f, 0x205f), (0x3000, 0x3000)]

/-- Whether the character is blank. -/
def isBlank (c : Char) : Bool := blankRanges.has c

/-- Whether a text consists of blanks. -/
def allBlank (text : String) : Bool := text.toList.all isBlank

/-- The text without the blanks at its beginning. -/
def trimStart (text : List Char) : List Char := text.dropWhile isBlank

/-- The text without the blanks at its end. -/
def trimEnd (text : List Char) : List Char := (text.reverse.dropWhile isBlank).reverse

/-- The words between the blanks, given the word that has begun, last character first. -/
def wordsFrom (word : List Char) : List Char → List (List Char)
  | [] => if word.isEmpty then [] else [word.reverse]
  | c :: rest =>
    if isBlank c then
      if word.isEmpty then wordsFrom [] rest else word.reverse :: wordsFrom [] rest
    else
      wordsFrom (c :: word) rest

/-- The words between the blanks. -/
def words (text : String) : List String :=
  (wordsFrom [] text.toList).map String.ofList

end Secd.Text
