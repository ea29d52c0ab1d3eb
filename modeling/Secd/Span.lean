/-!
# Spans and positions

A span is a range of byte offsets into a source text, as UTF-8 writes it. A position is what a
reader of the text counts instead: the line, and the column in characters, both from one. This
module holds both and the passage from the first to the second.
-/

namespace Secd

/-- A range of byte offsets: `start` belongs to it and `stop` does not. -/
structure Span where
  start : Nat
  stop : Nat
deriving DecidableEq, Repr, Inhabited

/-- The number of bytes that UTF-8 needs for a list of characters. -/
def utf8Length : List Char → Nat
  | [] => 0
  | c :: rest => c.utf8Size + utf8Length rest

/-- The bytes of two texts, one after the other. -/
theorem utf8Length_append (a b : List Char) :
    utf8Length (a ++ b) = utf8Length a + utf8Length b := by
  induction a with
  | nil => simp [utf8Length]
  | cons c rest ih => simp [utf8Length, ih, Nat.add_assoc]

/-- The number of bytes of a text is that of its characters. -/
theorem utf8ByteSize_ofList (text : List Char) :
    (String.ofList text).utf8ByteSize = utf8Length text := by
  induction text with
  | nil => rfl
  | cons c rest ih =>
    rw [utf8Length, ← ih, String.ofList_cons, String.utf8ByteSize_append,
      String.utf8ByteSize_singleton]

/-- The characters before byte `offset`; `none` if the text has no character boundary there. -/
def textBefore? : (offset : Nat) → List Char → Option (List Char)
  | 0, _ => some []
  | _ + 1, [] => none
  | offset + 1, c :: rest =>
    if c.utf8Size ≤ offset + 1 then
      (textBefore? (offset + 1 - c.utf8Size) rest).map (c :: ·)
    else
      none

/-- The bytes of the first part of a text end on a character boundary. -/
theorem textBefore?_utf8Length (a b : List Char) :
    textBefore? (utf8Length a) (a ++ b) = some a := by
  induction a with
  | nil => cases b <;> simp [textBefore?, utf8Length]
  | cons c rest ih =>
    have positive := c.utf8Size_pos
    obtain ⟨n, size⟩ : ∃ n, c.utf8Size = n + 1 := ⟨c.utf8Size - 1, by omega⟩
    have total : utf8Length (c :: rest) = n + utf8Length rest + 1 := by
      simp only [utf8Length, size]; omega
    have left : n + utf8Length rest + 1 - c.utf8Size = utf8Length rest := by omega
    rw [total, List.cons_append, textBefore?, if_pos (by omega), left, ih]
    rfl

/-- A place in a text as a reader counts it: line and column start at one. -/
structure Position where
  line : Nat
  column : Nat
deriving DecidableEq, Repr, Inhabited

namespace Position

/-- The first place of every text. -/
def first : Position := ⟨1, 1⟩

/-- The place after one more character: only a line feed begins a new line. -/
def advance (p : Position) (c : Char) : Position :=
  if c = '\n' then ⟨p.line + 1, 1⟩ else ⟨p.line, p.column + 1⟩

/-- The place just after `text`. -/
def after (text : List Char) : Position :=
  text.foldl advance first

/-- The place after two texts is reached by walking over the second one from the place after the
first. -/
theorem after_append (a b : List Char) : after (a ++ b) = b.foldl advance (after a) := by
  simp [after]

/-- The place of byte `offset` in `source`. An offset that is no character boundary, or that lies
beyond the end, counts as the end of the text. -/
def ofOffset (source : String) (offset : Nat) : Position :=
  after ((textBefore? offset source.toList).getD source.toList)

end Position

end Secd
