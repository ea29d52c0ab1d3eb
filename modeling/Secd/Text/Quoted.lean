import Secd.Text.Combining
import Secd.Text.Invisible

/-!
# Quoted text

The notation for a string inside the description of a value: between double quotes, with escapes
for the quote, the backslash and all characters that do not show by themselves: the invisible ones,
and those that would join the character before them.
-/

namespace Secd.Text

/-- The number of a character in lower-case hexadecimal digits. -/
def hexadecimal (n : Nat) : String := String.ofList (Nat.toDigits 16 n)

/-- How a character is written between quotes. -/
def escape (c : Char) : String :=
  if c = '"' then "\\\""
  else if c = '\\' then "\\\\"
  else if c = '\n' then "\\n"
  else if c = '\r' then "\\r"
  else if c = '\t' then "\\t"
  else if c = '\x00' then "\\0"
  else if isInvisible c || isCombining c then "\\u\x7b" ++ hexadecimal c.toNat ++ "\x7d"
  else c.toString

/-- The quoted notation of a text. -/
def quote (text : String) : String :=
  "\"" ++ String.join (text.toList.map escape) ++ "\""

end Secd.Text
