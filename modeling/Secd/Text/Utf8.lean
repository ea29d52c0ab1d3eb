/-!
# Decoding UTF-8

Bytes are decoded strictly: no overlong forms, no surrogates, nothing above the last code point.
Bytes that are no text are described by the number of bytes before the first faulty sequence and by
the length of that sequence, or by the absence of a length if the bytes end within it.
-/

namespace Secd.Utf8

/-- Where and how bytes fail to be text. -/
structure Fault where
  validUpTo : Nat
  length : Option Nat
deriving DecidableEq, Repr

/-- A sequence that has begun: where, how many bytes are still to come, and between which bounds the
next one lies. -/
structure Sequence where
  start : Nat
  missing : Nat
  low : UInt8 := 0x80
  high : UInt8 := 0xbf
deriving Repr

/-- The sequence that begins at `start` with a byte above the ASCII range. -/
def Sequence.begin? (start : Nat) (b : UInt8) : Option Sequence :=
  if b < 0xc2 then none
  else if b < 0xe0 then some ⟨start, 1, 0x80, 0xbf⟩
  else if b = 0xe0 then some ⟨start, 2, 0xa0, 0xbf⟩
  else if b = 0xed then some ⟨start, 2, 0x80, 0x9f⟩
  else if b < 0xf0 then some ⟨start, 2, 0x80, 0xbf⟩
  else if b = 0xf0 then some ⟨start, 3, 0x90, 0xbf⟩
  else if b < 0xf4 then some ⟨start, 3, 0x80, 0xbf⟩
  else if b = 0xf4 then some ⟨start, 3, 0x80, 0x8f⟩
  else none

/-- The first fault in bytes from number `index` on, given the sequence that has begun before. -/
def faultFrom? (index : Nat) (pending : Option Sequence) : List UInt8 → Option Fault
  | [] => pending.map fun s => ⟨s.start, none⟩
  | b :: rest =>
    match pending with
    | none =>
      if b < 0x80 then
        faultFrom? (index + 1) none rest
      else
        match Sequence.begin? index b with
        | some s => faultFrom? (index + 1) (some s) rest
        | none => some ⟨index, some 1⟩
    | some s =>
      if s.low ≤ b ∧ b ≤ s.high then
        let next := if s.missing ≤ 1 then none else some ⟨s.start, s.missing - 1, 0x80, 0xbf⟩
        faultFrom? (index + 1) next rest
      else
        some ⟨s.start, some (index - s.start)⟩

/-- The text that bytes stand for. -/
def decode (bytes : List UInt8) : Except Fault String :=
  match String.fromUTF8? ⟨bytes.toArray⟩ with
  | some text => .ok text
  | none => .error ((faultFrom? 0 none bytes).getD ⟨0, none⟩)

/-- The bytes of a text. -/
def encode (text : String) : List UInt8 := text.toUTF8.data.toList

end Secd.Utf8
