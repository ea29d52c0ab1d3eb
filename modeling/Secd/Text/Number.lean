/-!
# Natural numbers in commands

The notation for a natural number that a user types: decimal digits, with an optional plus sign.
-/

namespace Secd.Text

/-- Why a text is no number. -/
inductive NumberFault where
  | empty
  | invalidDigit
  | tooLarge
deriving DecidableEq, Repr

/-- The message for each fault. -/
def NumberFault.message : NumberFault → String
  | .empty => "cannot parse integer from empty string"
  | .invalidDigit => "invalid digit found in string"
  | .tooLarge => "number too large to fit in target type"

/-- Reads digits after others with the value `total`; the number must not exceed `limit`. The first
character that is no digit, or that makes the number too large, is the fault. -/
def digitsFrom (limit total : Nat) : List Char → Except NumberFault Nat
  | [] => .ok total
  | c :: rest =>
    if c.isDigit then
      let next := 10 * total + (c.toNat - '0'.toNat)
      if next ≤ limit then digitsFrom limit next rest else .error .tooLarge
    else
      .error .invalidDigit

/-- The number that a text stands for, if it does not exceed `limit`. -/
def number (limit : Nat) (text : String) : Except NumberFault Nat :=
  match text.toList with
  | [] => .error .empty
  | ['+'] => .error .invalidDigit
  | '+' :: digits => digitsFrom limit 0 digits
  | digits => digitsFrom limit 0 digits

/-- The largest number in 64 bits. -/
def maxWord : Nat := 0xffffffffffffffff

end Secd.Text
