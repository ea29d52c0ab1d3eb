import Mathlib.Data.List.Induction
import Secd.Diagnostic
import Secd.Proofs.Span.Within

/-!
# Positions identify offsets

Bytes, characters and lines are three different counts of the same text. A reader goes from a
position back to the text with nothing but the last two: past one line feed less than the line
says, and then over one character less than the column says. The main theorem says that this walk
ends at the byte from which the position was computed, so that a position tells offsets apart, and
that positions grow with offsets.

The induction for the walk is on the text from its end: the text before an offset consists of
complete lines and of a part of a line, and one more character either adds to the part or completes
the line. The induction for the order is on the characters between the two offsets.
-/

namespace Secd

namespace Position

/-- The bytes of the first `columns` characters; `none` if there are fewer, or if one of them is a
line feed. -/
def walkColumns? : (columns : Nat) → List Char → Option Nat
  | 0, _ => some 0
  | _ + 1, [] => none
  | columns + 1, c :: rest =>
    if c = '\n' then none else (walkColumns? columns rest).map (c.utf8Size + ·)

/-- Walks past `lines` line feeds, and then over `columns` further characters none of which is a
line feed: the number of bytes up to there, and `none` if the text does not allow the walk. -/
def walk? : (lines columns : Nat) → List Char → Option Nat
  | 0, columns, text => walkColumns? columns text
  | _ + 1, _, [] => none
  | lines + 1, columns, c :: rest =>
    (walk? (if c = '\n' then lines else lines + 1) columns rest).map (c.utf8Size + ·)

/-- The line is an earlier one, or it is the same line and the column is an earlier one. -/
def Before (p q : Position) : Prop :=
  p.line < q.line ∨ p.line = q.line ∧ p.column < q.column

/-- The position counts from one, and the walk that it describes goes from the beginning of the
source text exactly to byte `offset`. -/
structure Marks (p : Position) (source : String) (offset : Nat) : Prop where
  one_le_line : 1 ≤ p.line
  one_le_column : 1 ≤ p.column
  walk?_eq : walk? (p.line - 1) (p.column - 1) source.toList = some offset

/-- A position marks at most one byte. -/
theorem Marks.unique {p : Position} {source : String} {a b : Nat} (ha : p.Marks source a)
    (hb : p.Marks source b) : a = b :=
  Option.some.inj (ha.walk?_eq.symm.trans hb.walk?_eq)

/-! ### Walking -/

/-- Without lines only columns are left to walk over. -/
theorem walk?_zero (columns : Nat) (text : List Char) :
    walk? 0 columns text = walkColumns? columns text := by
  cases text <;> rw [walk?]

/-- A part of a line is as many columns as it has characters. -/
theorem walkColumns?_length {part : List Char} (hpart : '\n' ∉ part) (rest : List Char) :
    walkColumns? part.length (part ++ rest) = some (utf8Length part) := by
  induction part with
  | nil => cases rest <;> rfl
  | cons c part ih =>
    obtain ⟨hc, hpart⟩ : '\n' ≠ c ∧ '\n' ∉ part := by simpa using hpart
    rw [List.length_cons, List.cons_append, walkColumns?, if_neg (Ne.symm hc), ih hpart]
    rfl

/-- The walk over a completed line, and over the lines before it, leaves the columns for the
text that follows. -/
theorem walk?_count (text rest : List Char) (columns : Nat) :
    walk? ((text ++ ['\n']).count '\n') columns ((text ++ ['\n']) ++ rest) =
      (walkColumns? columns rest).map (utf8Length (text ++ ['\n']) + ·) := by
  induction text with
  | nil =>
    rw [List.nil_append, List.count_singleton_self, List.cons_append, walk?, if_pos rfl,
      walk?_zero]
    rfl
  | cons c text ih =>
    -- The line feed at the end is still to come, whatever the first character is.
    have positive : 0 < (text ++ ['\n']).count '\n' := List.count_pos_iff.2 (by simp)
    obtain ⟨n, hn⟩ : ∃ n, (text ++ ['\n']).count '\n' = n + 1 :=
      ⟨_, (Nat.succ_pred_eq_of_pos positive).symm⟩
    have step : walk? ((c :: text ++ ['\n']).count '\n') columns (c :: text ++ ['\n'] ++ rest) =
        (walk? (n + 1) columns (text ++ ['\n'] ++ rest)).map (c.utf8Size + ·) := by
      by_cases hc : c = '\n'
      · have hcount : (c :: text ++ ['\n']).count '\n' = n + 1 + 1 := by
          rw [List.cons_append, hc, List.count_cons_self, hn]
        rw [hcount, List.cons_append, List.cons_append, walk?, if_pos hc]
      · have hcount : (c :: text ++ ['\n']).count '\n' = n + 1 := by
          rw [List.cons_append, List.count_cons_of_ne hc, hn]
        rw [hcount, List.cons_append, List.cons_append, walk?, if_neg hc]
    rw [step, ← hn, ih, Option.map_map, List.cons_append, utf8Length]
    congr 1
    funext bytes
    exact (Nat.add_assoc _ _ _).symm

/-! ### The place after a text -/

/-- Every text consists of completed lines and of a part of a line, and these two are what the
place after the text counts. -/
theorem exists_after_eq (text : List Char) :
    ∃ lines part, text = lines ++ part ∧ (lines = [] ∨ ∃ init, lines = init ++ ['\n']) ∧
      '\n' ∉ part ∧ after text = ⟨lines.count '\n' + 1, part.length + 1⟩ := by
  induction text using List.reverseRecOn with
  | nil => exact ⟨[], [], rfl, .inl rfl, List.not_mem_nil, rfl⟩
  | append_singleton text c ih =>
    obtain ⟨lines, part, rfl, hlines, hpart, hafter⟩ := ih
    have place : after (lines ++ part ++ [c]) =
        advance ⟨lines.count '\n' + 1, part.length + 1⟩ c := by
      rw [after_append, hafter]
      rfl
    by_cases hc : c = '\n'
    · refine ⟨lines ++ part ++ [c], [], (List.append_nil _).symm, .inr ⟨lines ++ part, by rw [hc]⟩,
        List.not_mem_nil, ?_⟩
      rw [place, advance, if_pos hc, List.count_append, List.count_append, hc,
        List.count_eq_zero_of_not_mem hpart]
      rfl
    · refine ⟨lines, part ++ [c], List.append_assoc .., hlines, ?_, ?_⟩
      · simp [hpart, Ne.symm hc]
      · rw [place, advance, if_neg hc, List.length_append]
        rfl

/-- The walk that the place after a text describes ends at the end of the text, whatever
follows. -/
theorem walk?_after (text rest : List Char) :
    walk? ((after text).line - 1) ((after text).column - 1) (text ++ rest) =
      some (utf8Length text) := by
  obtain ⟨lines, part, rfl, hlines, hpart, hafter⟩ := exists_after_eq text
  have hcolumns := walkColumns?_length hpart rest
  rw [hafter, Nat.add_sub_cancel, Nat.add_sub_cancel, List.append_assoc]
  obtain rfl | ⟨init, rfl⟩ := hlines
  · rw [List.count_nil, walk?_zero]
    exact hcolumns
  · rw [walk?_count, hcolumns, utf8Length_append _ part]
    rfl

/-- The place after a text counts from one. -/
theorem one_le_after (text : List Char) : 1 ≤ (after text).line ∧ 1 ≤ (after text).column := by
  obtain ⟨lines, part, -, -, -, hafter⟩ := exists_after_eq text
  rw [hafter]
  exact ⟨Nat.le_add_left .., Nat.le_add_left ..⟩

/-! ### The order of places -/

/-- A place that is before another one is before all that come later. -/
theorem Before.trans {p q r : Position} (hpq : p.Before q) (hqr : q.Before r) : p.Before r := by
  unfold Before at *
  omega

/-- One more character leads to a later place. -/
theorem before_advance (p : Position) (c : Char) : p.Before (p.advance c) := by
  rw [advance]
  split
  · exact .inl (Nat.lt_succ_self _)
  · exact .inr ⟨rfl, Nat.lt_succ_self _⟩

/-- Some more characters lead to a later place. -/
theorem before_foldl_advance (p : Position) {text : List Char} (h : text ≠ []) :
    p.Before (text.foldl advance p) := by
  induction text generalizing p with
  | nil => exact absurd rfl h
  | cons c rest ih =>
    rw [List.foldl_cons]
    by_cases hrest : rest = []
    · rw [hrest]
      exact before_advance p c
    · exact (before_advance p c).trans (ih _ hrest)

/-! ### Offsets of a source text -/

/-- A boundary is where some first part of the text ends, and its place is the one after that
part. -/
theorem exists_ofOffset_eq {source : String} {offset : Nat} (h : OnBoundary source offset) :
    ∃ before rest, source.toList = before ++ rest ∧ utf8Length before = offset ∧
      ofOffset source offset = after before := by
  obtain ⟨before, rest, htext, hbefore⟩ := h
  refine ⟨before, rest, htext, hbefore, ?_⟩
  rw [ofOffset, htext, ← hbefore, textBefore?_utf8Length]
  rfl

/-- The place of a boundary marks the boundary. -/
theorem marks_ofOffset {source : String} {offset : Nat} (h : OnBoundary source offset) :
    (ofOffset source offset).Marks source offset := by
  obtain ⟨before, rest, htext, hbefore, hplace⟩ := exists_ofOffset_eq h
  obtain ⟨hline, hcolumn⟩ := one_le_after before
  rw [hplace]
  refine ⟨hline, hcolumn, ?_⟩
  rw [htext, walk?_after, hbefore]

/-- A later boundary has a later place. -/
theorem before_ofOffset {source : String} {a b : Nat} (ha : OnBoundary source a)
    (hb : OnBoundary source b) (hlt : a < b) :
    (ofOffset source a).Before (ofOffset source b) := by
  obtain ⟨short, rest, htext, hshort, hplace⟩ := exists_ofOffset_eq ha
  obtain ⟨long, rest', htext', hlong, hplace'⟩ := exists_ofOffset_eq hb
  obtain ⟨more, rfl, -⟩ | ⟨more, rfl, -⟩ :=
    List.append_eq_append_iff.1 (htext.symm.trans htext')
  · have nonempty : more ≠ [] := by
      rintro rfl
      rw [List.append_nil] at hlong
      omega
    rw [hplace, hplace', after_append]
    exact before_foldl_advance _ nonempty
  · rw [utf8Length_append] at hshort
    omega

end Position

namespace Diagnostic

/-- The position of a diagnostic that begins on a character boundary counts from one, and the walk
past one line feed less than its line and over one character less than its column ends exactly where
the diagnostic begins. So diagnostics with the same position begin at the same byte, and one that
begins later has a later position. -/
theorem position_identifies (source : String) (d : Diagnostic)
    (h : OnBoundary source d.span.start) :
    (d.position source).Marks source d.span.start ∧
      ∀ d' : Diagnostic, OnBoundary source d'.span.start →
        (d.position source = d'.position source → d.span.start = d'.span.start) ∧
        (d.span.start < d'.span.start → (d.position source).Before (d'.position source)) := by
  have hmarks : (d.position source).Marks source d.span.start := Position.marks_ofOffset h
  refine ⟨hmarks, fun d' h' => ⟨fun heq => ?_, fun hlt => Position.before_ofOffset h h' hlt⟩⟩
  have hmarks' : (d'.position source).Marks source d'.span.start := Position.marks_ofOffset h'
  exact hmarks.unique (heq ▸ hmarks')

/-- A text with characters of one, two and three bytes, the line ends of two systems, an empty line
and a line feed at the end. -/
def mixedLines : String := "aé\r\n\n\nñ∑b\n"

/-- The character of three bytes begins at byte nine, on the fourth line and in the second column;
after the last line feed, at the end of the text, a fifth line begins. -/
theorem position_identifies_mixedLines :
    OnBoundary mixedLines 9 ∧ OnBoundary mixedLines 14 ∧
      (position ⟨"", ⟨9, 12⟩⟩ mixedLines).Marks mixedLines 9 ∧
      (position ⟨"", ⟨9, 12⟩⟩ mixedLines).Before (position ⟨"", ⟨14, 14⟩⟩ mixedLines) ∧
      position ⟨"", ⟨9, 12⟩⟩ mixedLines = ⟨4, 2⟩ ∧ position ⟨"", ⟨14, 14⟩⟩ mixedLines = ⟨5, 1⟩ := by
  have hnine : OnBoundary mixedLines 9 := by decide +kernel
  have hend : OnBoundary mixedLines 14 := by decide +kernel
  obtain ⟨hmarks, hother⟩ := position_identifies mixedLines ⟨"", ⟨9, 12⟩⟩ hnine
  have hbefore := (hother ⟨"", ⟨14, 14⟩⟩ hend).2 (by decide)
  exact ⟨hnine, hend, hmarks, hbefore, by decide +kernel, by decide +kernel⟩

end Diagnostic

end Secd
