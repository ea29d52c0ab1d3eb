/-!
# Machine integers

The integers of the machine are the 64-bit words in two's complement, but no operation wraps: each
one answers with the exact result of the integers, or with nothing if that result is outside the
64-bit range. `ofInt?` is the one place where the range is checked.
-/

namespace Secd.Integer

/-- The word with the value `n`, if there is one. -/
def ofInt? (n : Int) : Option Int64 :=
  if Int64.minValue.toInt ≤ n ∧ n ≤ Int64.maxValue.toInt then some (Int64.ofInt n) else none

/-- Every word is found by its value. -/
theorem ofInt?_toInt (n : Int64) : ofInt? n.toInt = some n := by
  rw [ofInt?, if_pos ⟨n.minValue_le_toInt, n.toInt_le⟩, Int64.ofInt_toInt]

/-- A word that is found has the value that was asked for. -/
theorem toInt_eq_of_ofInt? {n : Int} {w : Int64} (h : ofInt? n = some w) : w.toInt = n := by
  unfold ofInt? at h
  split at h
  · next bounds =>
    cases h
    have low : Int64.minValue.toInt = -2 ^ 63 := by decide
    have high : Int64.maxValue.toInt = 2 ^ 63 - 1 := by decide
    exact Int64.toInt_ofInt_of_le (by omega) (by omega)
  · cases h

/-- The sum, if it is a word. -/
def add? (a b : Int64) : Option Int64 := ofInt? (a.toInt + b.toInt)

/-- The difference, if it is a word. -/
def sub? (a b : Int64) : Option Int64 := ofInt? (a.toInt - b.toInt)

/-- The product, if it is a word. -/
def mul? (a b : Int64) : Option Int64 := ofInt? (a.toInt * b.toInt)

/-- The quotient rounded toward zero, if it is a word. -/
def quot? (a b : Int64) : Option Int64 := ofInt? (a.toInt.tdiv b.toInt)

/-- The remainder that belongs to `quot?`; there is none if the quotient is no word. -/
def rem? (a b : Int64) : Option Int64 :=
  (quot? a b).bind fun _ => ofInt? (a.toInt.tmod b.toInt)

/-- The opposite number, if it is a word. -/
def neg? (a : Int64) : Option Int64 := ofInt? (-a.toInt)

/-- The absolute value, if it is a word. -/
def abs? (a : Int64) : Option Int64 := ofInt? a.toInt.natAbs

/-- The decimal notation: a minus sign for negative numbers, and no leading zeros. -/
def text (n : Int64) : String := toString n.toInt

/-- The word that decimal digits with an optional minus sign stand for, if it is one. Leading zeros
are allowed. -/
def ofDigits? : List Char → Option Int64
  | '-' :: digits => ofInt? (-(Nat.ofDigitChars 10 digits 0 : Int))
  | digits => ofInt? (Nat.ofDigitChars 10 digits 0)

end Secd.Integer
