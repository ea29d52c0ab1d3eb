import Secd.Proofs.Module.Lines
import Secd.Proofs.Module.Listed

/-!
# Labels on the lines of a listing

Each block that code loads has a line of its own in the listing of the code, with the label of the
block if there is one, and the code of the block is listed right below this line. No other line
looks like one of these. So the labels can be read off the lines, and two listings of the same code
differ in nothing but the labels.
-/

namespace Secd

namespace Listing

/-- The lines show the blocks with their labels, one after the other: each block has a line that
carries its label, with the lines of its code right below, and all other lines load no block. -/
inductive Shows (name? : Sexp → Option String) :
    List String → List (Sexp × Option String) → Prop where
  | nil : Shows name? [] []
  | block {depth index : Nat} {block : Sexp} {label : Option String} {after : List String}
      {shown : List (Sexp × Option String)}
      (hrest : Shows name? (lines name? (depth + 1) 0 block ++ after) shown) :
      Shows name? (blockLine depth index label :: (lines name? (depth + 1) 0 block ++ after))
        ((block, label) :: shown)
  | other {line : String} {after : List String} {shown : List (Sexp × Option String)}
      (hline : NoBlockLine line) (hrest : Shows name? after shown) :
      Shows name? (line :: after) shown

namespace Shows

variable {name? name?' : Sexp → Option String} {ls ls' : List String}
  {shown shown' : List (Sexp × Option String)}

/-- Lines that follow each other show the blocks of the one and then those of the other. -/
theorem append (h : Shows name? ls shown) (h' : Shows name? ls' shown') :
    Shows name? (ls ++ ls') (shown ++ shown') := by
  induction h with
  | nil => exact h'
  | block _ ih =>
    rw [List.append_assoc] at ih
    rw [List.cons_append, List.append_assoc]
    exact .block ih
  | other hline _ ih => exact .other hline ih

/-- The labels are known from the lines. -/
theorem labels_unique (h : Shows name? ls shown) (h' : Shows name?' ls shown') :
    shown.map Prod.snd = shown'.map Prod.snd := by
  induction h generalizing shown' with
  | nil =>
    cases h'
    rfl
  | @block depth index block label after shown _ ih =>
    generalize hlines : blockLine depth index label :: (lines name? (depth + 1) 0 block ++ after) =
      ls at h'
    cases h' with
    | nil => cases hlines
    | block hrest =>
      obtain ⟨hline, hafter⟩ := List.cons.inj hlines
      obtain ⟨-, -, rfl⟩ := blockLine_unique hline
      rw [← hafter] at hrest
      exact congrArg (label :: ·) (ih hrest)
    | other hline _ => exact absurd (List.cons.inj hlines).1.symm (hline depth index label)
  | @other line after shown hline _ ih =>
    generalize hlines : line :: after = ls at h'
    cases h' with
    | nil => cases hlines
    | block _ => exact absurd (List.cons.inj hlines).1 (hline _ _ _)
    | other _ hrest =>
      rw [← (List.cons.inj hlines).2] at hrest
      exact ih hrest

end Shows

/-! ### The lines of code -/

/-- The lines that name the branches load no block. -/
theorem noBlockLine_then (depth : Nat) : NoBlockLine (Text.indent depth ++ "then:") :=
  noBlockLine_of_word (show "then:".toList = 't' :: ['h', 'e', 'n', ':'] from rfl) (by decide)
    (by decide) depth

/-- The same for the second branch. -/
theorem noBlockLine_else (depth : Nat) : NoBlockLine (Text.indent depth ++ "else:") :=
  noBlockLine_of_word (show "else:".toList = 'e' :: ['l', 's', 'e', ':'] from rfl) (by decide)
    (by decide) depth

/-- The line for the end of code that is no list loads no block. -/
theorem noBlockLine_ending (depth : Nat) (text : String) :
    NoBlockLine (Text.indent depth ++ "??? . " ++ text) := by
  rw [String.append_assoc]
  have hword : ("??? . " ++ text).toList = '?' :: (['?', '?', ' ', '.', ' '] ++ text.toList) :=
    String.toList_append
  exact noBlockLine_of_word hword (by decide) (by decide) depth

/-- The line with the symbol of another instruction loads no block. -/
theorem noBlockLine_of_symbol {op : Opcode} (hop : op ≠ .ldf) (depth index : Nat) :
    NoBlockLine (margin depth index ++ op.mnemonic) := by
  have hline := noBlockLine_of_instruction hop (.inl rfl) depth index
  rwa [String.append_empty] at hline

/-- The line of another instruction with its operand loads no block. -/
theorem noBlockLine_of_operand {op : Opcode} (hop : op ≠ .ldf) (text : String)
    (depth index : Nat) : NoBlockLine (margin depth index ++ op.mnemonic ++ " " ++ text) := by
  rw [String.append_assoc, String.append_assoc]
  exact noBlockLine_of_instruction hop (.inr ⟨text, rfl⟩) depth index

/-- The line of an instruction without operands comes before the lines of the rest. -/
theorem lines_of_symbol {name? : Sexp → Option String} {op : Opcode} {cell : Nat} {head rest : Sexp}
    (hop : Opcode.ofValue? head.value = some op) (hcount : op.operandCount = 0)
    (depth index : Nat) : lines name? depth index (.pair cell head rest) =
      (margin depth index ++ op.mnemonic) :: lines name? depth (index + 1) rest := by
  cases op <;> simp_all [lines, Opcode.operandCount]

/-- Where operands of an instruction are missing, its line is the last one. -/
theorem lines_of_missing {name? : Sexp → Option String} {op : Opcode} {cell : Nat}
    {head rest : Sexp}
    (hop : Opcode.ofValue? head.value = some op) (hcount : op.operandCount ≠ 0)
    (hldf : ∀ cell block tail, rest = .pair cell block tail → op = .ldf → False)
    (hsel : ∀ cell yes cell' no tail, rest = .pair cell yes (.pair cell' no tail) →
      op = .sel → False)
    (hld : ∀ cell item tail, rest = .pair cell item tail → op = .ld → False)
    (hldc : ∀ cell item tail, rest = .pair cell item tail → op = .ldc → False)
    (depth index : Nat) : lines name? depth index (.pair cell head rest) =
      [margin depth index ++ op.mnemonic ++ " ???"] := by
  cases op <;> simp_all [lines, Opcode.operandCount]

/-- The lines of code show its blocks with the names that are found for them. -/
theorem shows_lines (name? : Sexp → Option String) (depth index : Nat) (c : Sexp) :
    Shows name? (lines name? depth index c) ((blocks c).map fun b => (b, name? b)) := by
  fun_induction blocks c generalizing depth index with
  | case1 a =>
    cases a with
    | nil => exact .nil
    | _ => exact .other (noBlockLine_ending depth _) .nil
  | case2 cell head rest hop ih =>
    simp only [lines, hop, String.append_assoc]
    exact .other (noBlockLine_of_item _ depth index) (ih depth (index + 1))
  | case3 cell head cell' block rest hop ihBlock ihRest =>
    simp only [lines, hop, margin_append_blockHead, List.map_cons, List.map_append]
    exact .block ((ihBlock (depth + 1) 0).append (ihRest depth (index + 1)))
  | case4 cell head cell' yes cell'' no rest hop ihYes ihNo ihRest =>
    simp only [lines, hop, List.map_append]
    refine .other (noBlockLine_of_symbol (by simp) depth index) (.other (noBlockLine_then _) ?_)
    exact (ihYes (depth + 2) 0).append
      (.other (noBlockLine_else _) ((ihNo (depth + 2) 0).append (ihRest depth (index + 1))))
  | case5 cell head cell' operand rest hop ih
  | case6 cell head cell' operand rest hop ih =>
    simp only [lines, hop]
    exact .other (noBlockLine_of_operand (by simp) _ depth index) (ih depth (index + 1))
  | case7 cell head op rest hldf hsel hld hldc hop hcount ih =>
    have hne : op ≠ .ldf := by
      rintro rfl
      cases hcount
    rw [lines_of_symbol hop hcount]
    exact .other (noBlockLine_of_symbol hne depth index) (ih depth (index + 1))
  | case8 cell head op rest hldf hsel hld hldc hop hcount =>
    rw [lines_of_missing hop hcount hldf hsel hld hldc, String.append_assoc]
    exact .other (noBlockLine_of_missing op depth index) .nil

/-! ### Other labels -/

/-- The lines are the same, or both load a block in the same place, with the labels that are found
for it. -/
def SameButLabel (name? name?' : Sexp → Option String) (line line' : String) : Prop :=
  line = line' ∨ ∃ depth index block, line = blockLine depth index (name? block) ∧
    line' = blockLine depth index (name?' block)

/-- Nothing but the labels depends on the names that are found for blocks. -/
theorem sameButLabel_lines (name? name?' : Sexp → Option String) (depth index : Nat) (c : Sexp) :
    List.Forall₂ (SameButLabel name? name?') (lines name? depth index c)
      (lines name?' depth index c) := by
  have hrefl (line : String) : SameButLabel name? name?' line line := .inl rfl
  fun_induction lines name? depth index c with
  | case1 depth index => exact .nil
  | case2 depth index a ha =>
    cases a with
    | nil => exact absurd rfl ha
    | _ => exact .cons (hrefl _) .nil
  | case3 depth index cell head rest _ hop ih =>
    simp only [lines, hop]
    exact .cons (hrefl _) ih
  | case4 depth index cell head _ cell' block rest hop ihBlock ihRest =>
    simp only [lines, hop, margin_append_blockHead]
    exact .cons (.inr ⟨depth, index, block, margin_append_blockHead _ _ _, rfl⟩)
      (List.rel_append ihBlock ihRest)
  | case5 depth index cell head _ cell' yes cell'' no rest hop ihYes ihNo ihRest =>
    simp only [lines, hop]
    exact .cons (hrefl _) (.cons (hrefl _)
      (List.rel_append ihYes (.cons (hrefl _) (List.rel_append ihNo ihRest))))
  | case6 depth index cell head _ cell' operand rest hop ih
  | case7 depth index cell head _ cell' operand rest hop ih =>
    simp only [lines, hop]
    exact .cons (hrefl _) ih
  | case8 depth index cell head _ op rest hldf hsel hld hldc hop hcount ih =>
    rw [lines_of_symbol hop hcount]
    exact .cons (hrefl _) ih
  | case9 depth index cell head _ op rest hldf hsel hld hldc hop hcount =>
    rw [lines_of_missing hop hcount hldf hsel hld hldc]
    exact .cons (hrefl _) .nil

/-- There are no line breaks in lines with labels if there are none in the lines without labels, nor
in the names that are found for blocks. -/
theorem newline_not_mem_lines {name? : Sexp → Option String} (depth index : Nat) {c : Sexp}
    (hlines : ∀ line ∈ lines (fun _ => none) depth index c, '\n' ∉ line.toList)
    (hnames : ∀ block, ∀ name ∈ name? block, '\n' ∉ name.toList) :
    ∀ line ∈ lines name? depth index c, '\n' ∉ line.toList := by
  have hlabelled (line line' : String) (hline : '\n' ∉ line.toList)
      (hsame : SameButLabel (fun _ => none) name? line line') : '\n' ∉ line'.toList := by
    rcases hsame with rfl | ⟨depth', index', block, -, rfl⟩
    · exact hline
    · exact newline_not_mem_blockLine (hnames block) depth' index'
  have hsame := sameButLabel_lines (fun _ => none) name? depth index c
  generalize lines (fun _ => none) depth index c = plain at hlines hsame
  generalize lines name? depth index c = labelled at hsame
  induction hsame with
  | nil => exact List.forall_mem_nil _
  | cons hfirst _ ih =>
    obtain ⟨hline, hothers⟩ := List.forall_mem_cons.1 hlines
    exact List.forall_mem_cons.2 ⟨hlabelled _ _ hline hfirst, ih hothers⟩

/-! ### What a listing presents -/

/-- The listing is made of single lines: those above the code, and below these the lines that show
the blocks with their labels. -/
structure Presents (name? : Sexp → Option String) (listing : String) (above below : List String)
    (shown : List (Sexp × Option String)) : Prop where
  eq_text : listing = text (above ++ below)
  single : ∀ line ∈ above ++ below, '\n' ∉ line.toList
  shows : Shows name? below shown

/-- A listing has only one label for each block. -/
theorem Presents.labels_unique {name? name?' : Sexp → Option String} {listing : String}
    {above below below' : List String} {shown shown' : List (Sexp × Option String)}
    (h : Presents name? listing above below shown)
    (h' : Presents name?' listing above below' shown') :
    shown.map Prod.snd = shown'.map Prod.snd := by
  have hlines := lines_unique h.single h'.single (h.eq_text.symm.trans h'.eq_text)
  obtain rfl := List.append_cancel_left hlines
  exact h.shows.labels_unique h'.shows

end Listing

end Secd
