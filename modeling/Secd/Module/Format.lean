import Secd.Module
import Secd.Text.Utf8

/-!
# The file format of modules

A module file begins with the four letters `SECD`. Then come the code, the shape, whether the
prelude is used, and the named blocks. Numbers are written with as few bytes as their size allows:
numbers below 251 as one byte, larger ones as a mark and two, four or eight bytes, the lowest one
first; integers with a sign are first mapped to natural numbers, so that small ones of either sign
stay small. Each value begins with the number of its variant. Texts and lists begin with their
length. Bytes after the module are not looked at.
-/

namespace Secd.Format

/-- The letters at the beginning of a module file. -/
def magic : List UInt8 := [0x53, 0x45, 0x43, 0x44]

/-! ## Writing -/

/-- A number in a fixed number of bytes, the lowest one first. -/
def littleEndian : (width : Nat) → Nat → List UInt8
  | 0, _ => []
  | width + 1, n => UInt8.ofNat (n % 256) :: littleEndian width (n / 256)

/-- The number of bytes is the one that was asked for. -/
theorem length_littleEndian (width n : Nat) : (littleEndian width n).length = width := by
  induction width generalizing n with
  | zero => rfl
  | succ width ih => simp [littleEndian, ih]

/-- A number below 2^64 in as few bytes as its size allows. -/
def varint (n : Nat) : List UInt8 :=
  if n < 251 then [UInt8.ofNat n]
  else if n < 0x10000 then 251 :: littleEndian 2 n
  else if n < 0x100000000 then 252 :: littleEndian 4 n
  else 253 :: littleEndian 8 n

/-- Integers as natural numbers: 0, -1, 1, -2, 2, and so on. -/
def zigzag (n : Int64) : Nat :=
  if 0 ≤ n.toInt then 2 * n.toInt.natAbs else 2 * n.toInt.natAbs - 1

/-- A text after its length in bytes. -/
def text (s : String) : List UInt8 :=
  let bytes := Utf8.encode s
  varint bytes.length ++ bytes

/-- A value; a callable cannot be written. -/
def value? : Sexp → Option (List UInt8)
  | .nil => some [0]
  | .pair _ head tail => do
    let head ← value? head
    let tail ← value? tail
    some (1 :: (head ++ tail))
  | .symbol name => some (2 :: text name)
  | .int n => some (3 :: varint (zigzag n))
  | .atom (.callable _) => none

/-- A shape. -/
def shape : Shape → List UInt8
  | .expression => [0]
  | .applied => [1]

/-- The named blocks, one after the other. -/
def blocks? : List NamedBlock → Option (List UInt8)
  | [] => some []
  | n :: rest => do
    let body ← value? n.body
    let rest ← blocks? rest
    some (text n.name ++ (body ++ rest))

/-- A module without the letters at the beginning. -/
def body? (m : Module) : Option (List UInt8) := do
  let code ← value? m.code
  let named ← blocks? m.named
  some (code ++ (shape m.shape ++ ((if m.usesPrelude then 1 else 0) ::
    (varint m.named.length ++ named))))

/-! ## Reading -/

/-- What a number in a file is for. -/
inductive NumberRole where
  /-- The number of a variant; it has at most four bytes. -/
  | variant
  /-- The length of a text. -/
  | textLength
  /-- The length of a list. -/
  | listLength
  /-- An integer with a sign. -/
  | integer
deriving DecidableEq, Repr

/-- What a mark in front of a number announces, where it cannot stand. -/
inductive Announced where
  | eightBytes | sixteenBytes | sixteenBytesSigned | nothing
deriving DecidableEq, Repr

/-- What a fault says should stand in the place of a mark. -/
inductive Expected where
  | fourBytes | eightBytes | size | fourBytesSigned | eightBytesSigned
deriving DecidableEq, Repr

/-- What a mark above 252 announces in front of a number of the role. -/
def NumberRole.announced (role : NumberRole) (mark : UInt8) : Announced :=
  if mark = 253 then .eightBytes
  else if mark = 254 then if role = .integer then .sixteenBytesSigned else .sixteenBytes
  else .nothing

/-- What a fault says should stand in the place of a mark with so many bytes after it: where the
longest number could follow the mark, a text length and an integer are said to have four bytes. -/
def NumberRole.expected (role : NumberRole) (following : Nat) : Expected :=
  match role with
  | .variant => .fourBytes
  | .textLength => if following < 8 then .eightBytes else .fourBytes
  | .listLength => .size
  | .integer => if following < 8 then .eightBytesSigned else .fourBytesSigned

/-- Why bytes are no module. -/
inductive Fault where
  /-- So many bytes are missing in what is being read. -/
  | unexpectedEnd (missing : Nat)
  /-- A number with a mark that no number of its role has. -/
  | numberType (expected : Expected) (found : Announced)
  /-- A text with a length that no text can have. -/
  | textLength (bytes : Nat)
  | variant (index count : Nat)
  | boolean (byte : UInt8)
  | utf8 (fault : Utf8.Fault)
deriving DecidableEq, Repr

/-- The name of the type of numbers that is expected. -/
def Expected.typeName : Expected → String
  | .fourBytes => "U32"
  | .eightBytes => "U64"
  | .size => "Usize"
  | .fourBytesSigned => "I32"
  | .eightBytesSigned => "I64"

/-- The name of the type of what is announced. -/
def Announced.typeName : Announced → String
  | .eightBytes => "U64"
  | .sixteenBytes => "U128"
  | .sixteenBytesSigned => "I128"
  | .nothing => "Reserved"

/-- The description of a fault. There is none for a length that no text can have: nothing is told
about it. -/
def Fault.describe? : Fault → Option String
  | .unexpectedEnd missing =>
    some ("UnexpectedEnd \x7b additional: " ++ toString missing ++ " \x7d")
  | .numberType expected found =>
    some ("InvalidIntegerType \x7b expected: " ++ expected.typeName ++ ", found: " ++
      found.typeName ++ " \x7d")
  | .textLength _ => none
  | .variant index count =>
    some ("OtherString(\"invalid value: integer `" ++ toString index ++
      "`, expected variant index 0 <= i < " ++ toString count ++ "\")")
  | .boolean byte => some ("InvalidBooleanValue(" ++ toString byte.toNat ++ ")")
  | .utf8 fault =>
    let length := match fault.length with
      | some n => "Some(" ++ toString n ++ ")"
      | none => "None"
    some ("Utf8 \x7b inner: Utf8Error \x7b valid_up_to: " ++ toString fault.validUpTo ++
      ", error_len: " ++ length ++ " \x7d \x7d")

/-- What is left of the bytes, and the store that receives the values. -/
structure Input where
  rest : List UInt8
  store : Store

/-- Steps of reading. -/
abbrev Decoder := StateT Input (Except Fault)

namespace Decoder

/-- The first `count` bytes and what follows them. -/
def split : (count : Nat) → List UInt8 → Except Fault (List UInt8 × List UInt8)
  | 0, rest => .ok ([], rest)
  | count + 1, [] => .error (.unexpectedEnd (count + 1))
  | count + 1, b :: rest =>
    match split count rest with
    | .ok (taken, rest) => .ok (b :: taken, rest)
    | .error f => .error f

/-- Taking as many bytes as there are in the first part leaves the second part. -/
theorem split_append (taken rest : List UInt8) :
    split taken.length (taken ++ rest) = .ok (taken, rest) := by
  induction taken with
  | nil => rfl
  | cons b taken ih => simp [split, ih]

/-- Takes so many bytes. -/
def bytes (count : Nat) : Decoder (List UInt8) := fun
  | ⟨rest, store⟩ =>
    match split count rest with
    | .ok (taken, rest) => .ok (taken, ⟨rest, store⟩)
    | .error f => .error f

/-- Takes one byte. -/
def byte : Decoder UInt8 := fun
  | ⟨[], _⟩ => .error (.unexpectedEnd 1)
  | ⟨b :: rest, store⟩ => .ok (b, ⟨rest, store⟩)

/-- How many bytes are left. -/
def bytesLeft : Decoder Nat := fun input => .ok (input.rest.length, input)

/-- The number that bytes stand for, the lowest one first. -/
def ofLittleEndian : List UInt8 → Nat
  | [] => 0
  | b :: rest => b.toNat + 256 * ofLittleEndian rest

/-- Reading the bytes of a number that fits gives the number. -/
theorem ofLittleEndian_littleEndian {width n : Nat} (h : n < Nat.pow 256 width) :
    ofLittleEndian (littleEndian width n) = n := by
  induction width generalizing n with
  | zero => exact (Nat.lt_one_iff.1 h).symm
  | succ width ih =>
    have bound : n < Nat.pow 256 width * 256 := h
    have high : n / 256 < Nat.pow 256 width := Nat.div_lt_of_lt_mul (by omega)
    simp only [littleEndian, ofLittleEndian, ih high, UInt8.toNat_ofNat']
    omega

/-- A number of at most eight bytes, or of at most four if it is that of a variant. -/
def number (role : NumberRole) : Decoder Nat := do
  let mark ← byte
  if mark < 251 then
    pure mark.toNat
  else if mark = 251 then
    return ofLittleEndian (← bytes 2)
  else if mark = 252 then
    return ofLittleEndian (← bytes 4)
  else if mark = 253 ∧ role ≠ .variant then
    return ofLittleEndian (← bytes 8)
  else
    throw (.numberType (role.expected (← bytesLeft)) (role.announced mark))

/-- The integer that a natural number stands for. -/
def unzigzag (n : Nat) : Int64 :=
  if n % 2 = 0 then Int64.ofInt (n / 2 : Nat) else Int64.ofInt (-(n / 2 : Nat) - 1)

/-- Every integer is the one that its number stands for. -/
theorem unzigzag_zigzag (n : Int64) : unzigzag (zigzag n) = n := by
  unfold zigzag unzigzag
  split
  · next sign =>
    have half : 2 * n.toInt.natAbs / 2 = n.toInt.natAbs := by omega
    rw [if_pos (by omega), half, Int.natAbs_of_nonneg sign, Int64.ofInt_toInt]
  · next sign =>
    have half : (-(((2 * n.toInt.natAbs - 1) / 2 : Nat) : Int) - 1) = n.toInt := by omega
    rw [if_neg (by omega), half, Int64.ofInt_toInt]

/-- The lengths that texts can have are below 2^63. -/
def textBound : Nat := 0x8000000000000000

/-- A text after its length in bytes. -/
def text : Decoder String := do
  let length ← number .textLength
  if length < textBound then
    match Utf8.decode (← bytes length) with
    | .ok text => pure text
    | .error f => throw (.utf8 f)
  else
    throw (.textLength length)

/-- A new pair. -/
def cons (head tail : Sexp) : Decoder Sexp := fun
  | ⟨rest, store⟩ =>
    match store.consTree head tail with
    | (e, store) => .ok (e, ⟨rest, store⟩)

/-- A value of which no path has more than `fuel` parts. -/
def value : (fuel : Nat) → Decoder Sexp
  | 0 => throw (.unexpectedEnd 1)
  | fuel + 1 => do
    match ← number .variant with
    | 0 => pure .nil
    | 1 => do
      let head ← value fuel
      let tail ← value fuel
      cons head tail
    | 2 => return .symbol (← text)
    | 3 => return .int (unzigzag (← number .integer))
    | index => throw (.variant index 4)

/-- A shape. -/
def shape : Decoder Shape := do
  match ← number .variant with
  | 0 => pure .expression
  | 1 => pure .applied
  | index => throw (.variant index 2)

/-- A truth value. -/
def boolean : Decoder Bool := do
  let b ← byte
  if b = 0 then pure false
  else if b = 1 then pure true
  else throw (.boolean b)

/-- So many named blocks. -/
def blocks (fuel : Nat) : (count : Nat) → Decoder (List NamedBlock)
  | 0 => pure []
  | count + 1 => do
    let name ← text
    let body ← value fuel
    let rest ← blocks fuel count
    pure (⟨name, body⟩ :: rest)

/-- A module. Every part of a value takes at least one byte, so no value has more parts on a path
than there are bytes. -/
def module (length : Nat) : Decoder Module := do
  let code ← value (length + 1)
  let shape ← shape
  let usesPrelude ← boolean
  let count ← number .listLength
  let named ← blocks (length + 1) count
  pure ⟨code, shape, usesPrelude, named⟩

end Decoder

end Secd.Format

namespace Secd

/-- Why a module could not be written or read. -/
inductive ModuleError where
  | header
  | decode (fault : Format.Fault)
  /-- The module holds a callable. -/
  | encode
  /-- The file could not be written or read. -/
  | io (message : String)
deriving DecidableEq, Repr

/-- The message for each error about which something is told. -/
def ModuleError.message? : ModuleError → Option String
  | .header => some "not a compiled module (bad header)"
  | .decode fault => fault.describe?.map ("failed to decode module: " ++ ·)
  | .encode =>
    some ("failed to encode module: " ++
      "OtherString(\"the enum variant Value::Callable cannot be serialized\")")
  | .io message => some ("I/O error: " ++ message)

namespace Module

/-- The bytes of a module file. -/
def encode (m : Module) : Except ModuleError (List UInt8) :=
  match Format.body? m with
  | some bytes => .ok (Format.magic ++ bytes)
  | none => .error .encode

/-- The bytes after the letters that begin a module file. -/
def bodyOf? : List UInt8 → Option (List UInt8)
  | 0x53 :: 0x45 :: 0x43 :: 0x44 :: body => some body
  | _ => none

/-- Reads a module file into the store. -/
def decode (bytes : List UInt8) (s : Store) : Except ModuleError (Module × Store) :=
  match bodyOf? bytes with
  | none => .error .header
  | some body =>
    match (Format.Decoder.module body.length).run ⟨body, s⟩ with
    | .ok (m, input) => .ok (m, input.store)
    | .error fault => .error (.decode fault)

end Module

end Secd
