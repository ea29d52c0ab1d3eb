import Mathlib.Data.List.Basic
import Secd.Module.Listing
import Secd.Proofs.Token.Characters

/-!
# The lines of a listing

The lines of a text are known if none of them has a line break in it. A line with an instruction
begins with blanks, the number of the instruction and a colon, and these determine its depth and its
number. What comes next on the line is the symbol of the instruction; so a line that loads a block
is known from all others, and so is the label on it.
-/

namespace Secd

/-! ### Parts of a text -/

/-- What comes before the first separator is determined, and so is what comes after it. -/
theorem parts_unique {α : Type} {a : α} {first first' rest rest' : List α} (h : a ∉ first)
    (h' : a ∉ first') (heq : first ++ a :: rest = first' ++ a :: rest') :
    first = first' ∧ rest = rest' := by
  induction first generalizing first' with
  | nil =>
    cases first' with
    | nil => exact ⟨rfl, (List.cons.inj heq).2⟩
    | cons b first' => exact absurd ((List.cons.inj heq).1 ▸ List.mem_cons_self) h'
  | cons b first ih =>
    cases first' with
    | nil => exact absurd ((List.cons.inj heq).1 ▸ List.mem_cons_self) h
    | cons b' first' =>
      obtain ⟨rfl, htail⟩ := List.cons.inj heq
      rw [List.mem_cons, not_or] at h h'
      obtain ⟨rfl, hrest⟩ := ih h.2 h'.2 htail
      exact ⟨rfl, hrest⟩

/-- The number of copies in front of something else is determined. -/
theorem replicate_unique {α : Type} {a b b' : α} {n n' : Nat} {rest rest' : List α} (hb : b ≠ a)
    (hb' : b' ≠ a) (heq : List.replicate n a ++ b :: rest = List.replicate n' a ++ b' :: rest') :
    n = n' ∧ b = b' ∧ rest = rest' := by
  induction n generalizing n' with
  | zero =>
    cases n' with
    | zero => exact ⟨rfl, List.cons.inj heq⟩
    | succ n' => exact absurd (List.cons.inj heq).1 hb
  | succ n ih =>
    cases n' with
    | zero => exact absurd (List.cons.inj heq).1.symm hb'
    | succ n' =>
      obtain ⟨rfl, hrest⟩ := ih (List.cons.inj heq).2
      exact ⟨rfl, hrest⟩

namespace Listing

/-- The lines of a text are determined if there are no line breaks in them. -/
theorem lines_unique {lines lines' : List String} (h : ∀ line ∈ lines, '\n' ∉ line.toList)
    (h' : ∀ line ∈ lines', '\n' ∉ line.toList) (heq : text lines = text lines') :
    lines = lines' := by
  have htext (line : String) (lines : List String) :
      (text (line :: lines)).toList = line.toList ++ '\n' :: (text lines).toList := by
    rw [text, List.map_cons, String.join_cons, String.toList_append, String.toList_append,
      List.append_assoc]
    rfl
  induction lines generalizing lines' with
  | nil =>
    cases lines' with
    | nil => rfl
    | cons line' lines' =>
      have hlists := congrArg String.toList heq
      rw [htext] at hlists
      exact absurd hlists.symm (by simp [text])
  | cons line lines ih =>
    cases lines' with
    | nil =>
      have hlists := congrArg String.toList heq
      rw [htext] at hlists
      exact absurd hlists (by simp [text])
    | cons line' lines' =>
      have hlists := congrArg String.toList heq
      rw [htext, htext] at hlists
      rw [List.forall_mem_cons] at h h'
      obtain ⟨hline, hrest⟩ := parts_unique h.1 h'.1 hlists
      rw [String.toList_inj.1 hline, ih h.2 h'.2 (String.toList_inj.1 hrest)]

/-! ### The beginning of a line -/

/-- The beginning of a line consists of blanks, a number and a colon. -/
theorem exists_toList_margin (depth index : Nat) : ∃ digit digits,
    (toString index).toList = digit :: digits ∧ digit.isDigit = true ∧ ':' ∉ digit :: digits ∧
      (margin depth index).toList =
        List.replicate (2 * depth + (4 - (digits.length + 1))) ' ' ++
          digit :: (digits ++ [':', ' ']) := by
  have hall (c : Char) (hc : c ∈ (toString index).toList) : c.isDigit = true :=
    isDigit_of_mem_toString hc
  rcases hdigits : (toString index).toList with _ | ⟨digit, digits⟩
  · rw [Nat.toString_eq_repr, Nat.toList_repr] at hdigits
    exact absurd hdigits Nat.toDigits_ne_nil
  · rw [hdigits] at hall
    refine ⟨digit, digits, rfl, hall digit List.mem_cons_self, fun hcolon => ?_, ?_⟩
    · exact absurd (hall _ hcolon) (by decide)
    · have hlength : (toString index).length = digits.length + 1 := by
        rw [← String.length_toList, hdigits, List.length_cons]
      rw [margin, Text.padLeft, Text.indent, hlength]
      simp only [String.toList_append, String.toList_ofList, hdigits, List.replicate_add,
        List.append_assoc, List.cons_append]
      rfl

/-- A line begins with only one depth and one number. -/
theorem margin_unique {depth depth' index index' : Nat} {rest rest' : String}
    (h : margin depth index ++ rest = margin depth' index' ++ rest') :
    depth = depth' ∧ index = index' ∧ rest = rest' := by
  obtain ⟨digit, digits, hnumber, hdigit, hcolon, hmargin⟩ := exists_toList_margin depth index
  obtain ⟨digit', digits', hnumber', hdigit', hcolon', hmargin'⟩ :=
    exists_toList_margin depth' index'
  have hlists := congrArg String.toList h
  rw [String.toList_append, String.toList_append, hmargin, hmargin', List.append_assoc,
    List.append_assoc, List.cons_append, List.cons_append] at hlists
  have hblank {c : Char} (hc : c.isDigit = true) : c ≠ ' ' := by
    rintro rfl
    exact absurd hc (by decide)
  obtain ⟨hblanks, rfl, htail⟩ := replicate_unique (hblank hdigit) (hblank hdigit') hlists
  rw [List.append_assoc, List.append_assoc] at htail
  obtain ⟨rfl, hafter⟩ := parts_unique (fun hmem => hcolon (List.mem_cons_of_mem _ hmem))
    (fun hmem => hcolon' (List.mem_cons_of_mem _ hmem)) htail
  have hnumbers := hnumber.trans hnumber'.symm
  rw [Nat.toString_eq_repr, Nat.toString_eq_repr, Nat.toList_repr, Nat.toList_repr] at hnumbers
  have hindex := congrArg (Nat.ofDigitChars 10 · 0) hnumbers
  simp only [Nat.ofDigitChars_toDigits (b := 10) (by decide) (by decide)] at hindex
  refine ⟨by omega, hindex, ?_⟩
  exact String.toList_inj.1 (List.cons.inj hafter).2

/-- The line above a branch has no number. -/
theorem margin_ne_indent {depth depth' index : Nat} {rest word : String} {letter : Char}
    {letters : List Char} (hword : word.toList = letter :: letters) (hblank : letter ≠ ' ')
    (hdigit : letter.isDigit = false) :
    Text.indent depth' ++ word ≠ margin depth index ++ rest := by
  intro h
  obtain ⟨digit, digits, -, hnumber, -, hmargin⟩ := exists_toList_margin depth index
  have hlists := congrArg String.toList h
  rw [String.toList_append, String.toList_append, hmargin, hword, Text.indent, String.toList_ofList,
    List.append_assoc, List.cons_append] at hlists
  have hother : digit ≠ ' ' := by
    rintro rfl
    exact absurd hnumber (by decide)
  obtain ⟨-, rfl, -⟩ := replicate_unique hblank hother hlists
  rw [hdigit] at hnumber
  cases hnumber

/-- Only characters that can belong to a symbol are in the symbol of an instruction. -/
theorem isSymbolPart_of_mem_mnemonic {op : Opcode} {c : Char} (hc : c ∈ op.mnemonic.toList) :
    isSymbolPart c = true := by
  have hall : op.mnemonic.toList.all isSymbolPart = true := by
    cases op with
    | unary op => cases op <;> decide
    | binary op =>
      cases op with
      | arithmetic op => cases op <;> decide
      | _ => decide
    | _ => decide
  exact List.all_eq_true.1 hall c hc

/-- What stands next to the symbol of an instruction is empty or begins with a blank, so both are
determined. -/
theorem mnemonic_unique {op op' : Opcode} {beside beside' : String}
    (h : beside = "" ∨ ∃ rest, beside = " " ++ rest)
    (h' : beside' = "" ∨ ∃ rest, beside' = " " ++ rest)
    (heq : op.mnemonic ++ beside = op'.mnemonic ++ beside') : op = op' ∧ beside = beside' := by
  have hblank (op : Opcode) : ' ' ∉ op.mnemonic.toList :=
    fun hmem => absurd (isSymbolPart_of_mem_mnemonic hmem) (by decide)
  have hop (hsame : op.mnemonic = op'.mnemonic) : op = op' :=
    Option.some.inj (((Opcode.ofName?_mnemonic op).symm.trans (congrArg _ hsame)).trans
      (Opcode.ofName?_mnemonic op'))
  have hlists := congrArg String.toList heq
  rw [String.toList_append, String.toList_append] at hlists
  rcases h with rfl | ⟨rest, rfl⟩ <;> rcases h' with rfl | ⟨rest', rfl⟩
  · rw [String.append_empty, String.append_empty] at heq
    exact ⟨hop heq, rfl⟩
  · refine absurd (?_ : ' ' ∈ op.mnemonic.toList) (hblank op)
    rw [String.toList_empty, List.append_nil] at hlists
    rw [hlists]
    simp
  · refine absurd (?_ : ' ' ∈ op'.mnemonic.toList) (hblank op')
    rw [String.toList_empty, List.append_nil] at hlists
    rw [← hlists]
    simp
  · rw [String.toList_append, String.toList_append] at hlists
    have hparts : op.mnemonic.toList ++ ' ' :: rest.toList =
        op'.mnemonic.toList ++ ' ' :: rest'.toList := hlists
    obtain ⟨hfirst, hrest⟩ := parts_unique (hblank op) (hblank op') hparts
    exact ⟨hop (String.toList_inj.1 hfirst), by rw [String.toList_inj.1 hrest]⟩

/-- There is no line break in the beginning of a line. -/
theorem newline_not_mem_margin (depth index : Nat) : '\n' ∉ (margin depth index).toList := by
  obtain ⟨digit, digits, hnumber, -, -, hmargin⟩ := exists_toList_margin depth index
  have hdigits : '\n' ∉ digit :: digits := by
    rw [← hnumber]
    intro hmem
    exact absurd (isDigit_of_mem_toString hmem) (by decide)
  rw [hmargin]
  simp_all [List.mem_replicate]

/-- There is no line break in the line above a branch. -/
theorem newline_not_mem_indent {word : String} (hword : '\n' ∉ word.toList) (depth : Nat) :
    '\n' ∉ (Text.indent depth ++ word).toList := by
  simp [Text.indent, hword, List.mem_replicate]

/-! ### Lines that load blocks -/

/-- The line of an instruction that loads a block, with the label of the block if it has one. -/
def blockLine (depth index : Nat) : Option String → String
  | some label => margin depth index ++ ("LDF  ; " ++ label)
  | none => margin depth index ++ "LDF"

/-- What stands next to the symbol of an instruction that loads a block. -/
def labelText : Option String → String
  | some label => "  ; " ++ label
  | none => ""

/-- A label is set off by blanks. -/
theorem labelText_eq_or (label : Option String) :
    labelText label = "" ∨ ∃ rest, labelText label = " " ++ rest := by
  cases label with
  | none => exact .inl rfl
  | some label =>
    refine .inr ⟨" ; " ++ label, ?_⟩
    rw [labelText, ← String.append_assoc]
    rfl

/-- The symbol on the line is that of `LDF`. -/
theorem blockLine_eq (depth index : Nat) (label : Option String) :
    blockLine depth index label =
      margin depth index ++ (Opcode.ldf.mnemonic ++ labelText label) := by
  cases label with
  | none => rfl
  | some label =>
    have hword : "LDF  ; " = Opcode.ldf.mnemonic ++ "  ; " := rfl
    rw [blockLine, labelText, hword, String.append_assoc]

/-- The beginning of the line of a block, and the line. -/
theorem margin_append_blockHead (depth index : Nat) (label : Option String) :
    margin depth index ++ blockHead label = blockLine depth index label := by
  rw [blockLine_eq]
  cases label with
  | none => rfl
  | some label => rw [blockHead, labelText, String.append_assoc]

/-- The depth, the number and the label of a line that loads a block are known. -/
theorem blockLine_unique {depth depth' index index' : Nat} {label label' : Option String}
    (h : blockLine depth index label = blockLine depth' index' label') :
    depth = depth' ∧ index = index' ∧ label = label' := by
  rw [blockLine_eq, blockLine_eq] at h
  obtain ⟨rfl, rfl, hrest⟩ := margin_unique h
  refine ⟨rfl, rfl, ?_⟩
  have htext := (mnemonic_unique (labelText_eq_or _) (labelText_eq_or _) hrest).2
  cases label <;> cases label'
  · rfl
  · exact absurd (congrArg String.toList htext) (by simp [labelText])
  · exact absurd (congrArg String.toList htext) (by simp [labelText])
  · exact congrArg some ((String.append_right_inj _).1 htext)

/-- No line break is in the line of a block if none is in its label. -/
theorem newline_not_mem_blockLine {label : Option String}
    (h : ∀ name ∈ label, '\n' ∉ name.toList) (depth index : Nat) :
    '\n' ∉ (blockLine depth index label).toList := by
  rw [blockLine_eq]
  simp only [String.toList_append, List.mem_append, not_or]
  refine ⟨newline_not_mem_margin depth index, by decide, ?_⟩
  cases label with
  | none => exact List.not_mem_nil
  | some name =>
    rw [labelText, String.toList_append, List.mem_append, not_or]
    exact ⟨by decide, h name rfl⟩

/-- The line is not that of an instruction that loads a block. -/
def NoBlockLine (line : String) : Prop :=
  ∀ depth index label, line ≠ blockLine depth index label

/-- The line of another instruction, with whatever stands next to its symbol. -/
theorem noBlockLine_of_instruction {op : Opcode} (hop : op ≠ .ldf) {beside : String}
    (h : beside = "" ∨ ∃ rest, beside = " " ++ rest) (depth index : Nat) :
    NoBlockLine (margin depth index ++ (op.mnemonic ++ beside)) := by
  intro depth' index' label heq
  rw [blockLine_eq] at heq
  exact hop (mnemonic_unique h (labelText_eq_or label) (margin_unique heq).2.2).1

/-- The line of an instruction whose operand is missing. -/
theorem noBlockLine_of_missing (op : Opcode) (depth index : Nat) :
    NoBlockLine (margin depth index ++ (op.mnemonic ++ " ???")) := by
  intro depth' index' label heq
  rw [blockLine_eq] at heq
  have htext := (mnemonic_unique (.inr ⟨"???", rfl⟩) (labelText_eq_or label)
    (margin_unique heq).2.2).2
  cases label <;> exact absurd (congrArg String.toList htext) (by simp [labelText])

/-- The line of an item that is no instruction. -/
theorem noBlockLine_of_item (text : String) (depth index : Nat) :
    NoBlockLine (margin depth index ++ ("??? " ++ text)) := by
  intro depth' index' label heq
  rw [blockLine_eq] at heq
  have hrest := congrArg String.toList (margin_unique heq).2.2
  rw [String.toList_append, String.toList_append] at hrest
  exact absurd (List.cons.inj hrest).1 (by decide)

/-- A line without a number. -/
theorem noBlockLine_of_word {word : String} {letter : Char} {letters : List Char}
    (hword : word.toList = letter :: letters) (hblank : letter ≠ ' ')
    (hdigit : letter.isDigit = false) (depth : Nat) : NoBlockLine (Text.indent depth ++ word) := by
  intro depth' index label
  rw [blockLine_eq]
  exact margin_ne_indent hword hblank hdigit

end Listing

end Secd
