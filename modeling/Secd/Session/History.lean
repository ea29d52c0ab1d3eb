import Secd.Text.Utf8

/-!
# The history of dialogues

A history holds the last inputs of dialogues, the oldest first. It is kept in a file from one
dialogue to the next: after a line that names the form of the file, each input has a line of its
own, in which a line feed is written as a backslash and the letter `n`, and a backslash as two of
them. A file that does not begin with that line holds the inputs as they are.
-/

namespace Secd

/-- The inputs of dialogues. -/
structure History where
  /-- The inputs, the oldest first. -/
  entries : List String
  /-- Whether there are inputs that no file holds. -/
  changed : Bool
deriving DecidableEq, Repr, Inhabited

namespace History

/-- The history before the first dialogue. -/
def empty : History := ⟨[], false⟩

/-- The greatest number of inputs in a history. -/
def limit : Nat := 100

/-- Adds an input. An empty one is not kept, and neither is one that repeats the last input; where
there are too many, the oldest one is dropped. -/
def add (h : History) (input : String) : History :=
  if input.isEmpty ∨ h.entries.getLast? = some input then h
  else
    let kept := if h.entries.length < limit then h.entries else h.entries.drop 1
    ⟨kept ++ [input], true⟩

/-- A history that is not too long stays so. -/
theorem length_add_le {h : History} (input : String) (bound : h.entries.length ≤ limit) :
    (h.add input).entries.length ≤ limit := by
  unfold add
  split
  · exact bound
  · simp only [List.length_append, List.length_singleton]
    split
    · omega
    · rw [List.length_drop]
      have positive : 0 < limit := by decide
      omega

/-! ## Lines -/

/-- An input as it is written in a line. -/
def escaped : List Char → List Char
  | [] => []
  | c :: rest =>
    if c = '\n' then '\\' :: 'n' :: escaped rest
    else if c = '\\' then '\\' :: '\\' :: escaped rest
    else c :: escaped rest

/-- The input that a line stands for, if every backslash in the line begins an escape. -/
def unescaped? : List Char → Option (List Char)
  | [] => some []
  | '\\' :: 'n' :: rest => (unescaped? rest).map ('\n' :: ·)
  | '\\' :: '\\' :: rest => (unescaped? rest).map ('\\' :: ·)
  | c :: rest => if c = '\\' then none else (unescaped? rest).map (c :: ·)

/-- The line that is written for an input stands for it. -/
theorem unescaped?_escaped (input : List Char) : unescaped? (escaped input) = some input := by
  induction input with
  | nil => rfl
  | cons c rest ih =>
    by_cases feed : c = '\n'
    · simp [escaped, unescaped?, feed, ih]
    · by_cases slash : c = '\\'
      · simp [escaped, unescaped?, slash, ih]
      · simp [escaped, unescaped?, feed, slash, ih]

/-- The input that a line is read as: a line with any other backslash is taken as it is. -/
def ofLine (line : String) : String :=
  ((unescaped? line.toList).map String.ofList).getD line

/-! ## Files -/

/-- The line that begins a history file. -/
def version : String := "#V2"

/-- The bytes of the file that holds a history. -/
def toFile (h : History) : List UInt8 :=
  Utf8.encode (String.join ((version ::
    h.entries.map fun input => String.ofList (escaped input.toList)).map (· ++ "\n")))

/-- A line from its bytes, the last one first; a carriage return at its end belongs to the end of
the line. -/
def endLine : List UInt8 → List UInt8
  | 0x0d :: line => line.reverse
  | line => line.reverse

/-- The lines of a file, given the bytes of the line that has begun, the last one first. -/
def linesFrom (line : List UInt8) : List UInt8 → List (List UInt8)
  | [] => if line.isEmpty then [] else [line.reverse]
  | b :: rest => if b = 0x0a then endLine line :: linesFrom [] rest else linesFrom (b :: line) rest

/-- Adds the inputs that lines are read as. A line that is no text ends that, and the inputs before
it then count as ones that no file holds. -/
def addLines (read : String → String) (h : History) : List (List UInt8) → History
  | [] => { h with changed := false }
  | line :: rest =>
    match Utf8.decode line with
    | .ok text => addLines read (h.add (read text)) rest
    | .error _ => h

/-- The history that a file holds. -/
def ofFile (bytes : List UInt8) : History :=
  match linesFrom [] bytes with
  | [] => empty
  | first :: rest =>
    if first = Utf8.encode version then addLines ofLine empty rest
    else addLines id empty (first :: rest)

/-- The directory of the history file, in the directory for the data of programs: the one that is
named for them if its path is absolute, and else one in the home directory. -/
def directory? (data home : Option String) : Option String :=
  let data := data.filter (·.startsWith "/")
  let home := (home.filter (· ≠ "")).map (· ++ "/.local/share")
  (data.or home).map (· ++ "/secdkit")

/-- The history file in its directory. -/
def fileIn (directory : String) : String := directory ++ "/history.txt"

end History

end Secd
