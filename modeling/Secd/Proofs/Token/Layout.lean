import Secd.Proofs.Span.Within
import Secd.Token.Lexer

/-!
# Where the tokens of a text stand

The tokens of a text are laid out one after the other: each begins no earlier than the one before it
has ended, its span is within the text, and a quote is one byte wide.
-/

namespace Secd

namespace Token

/-- The characters that belong to a token besides its first one come next in the text. -/
theorem scan_append_drop (c : Char) (rest : List Char) :
    (Token.scan c rest).2 ++ rest.drop (Token.scan c rest).2.length = rest := by
  have htake (p : Char → Bool) :
      rest.takeWhile p ++ rest.drop (rest.takeWhile p).length = rest :=
    List.prefix_iff_eq_append.1 (List.takeWhile_prefix p)
  unfold Token.scan
  split
  · rfl
  split
  · rfl
  split
  · rfl
  split
  · rfl
  split
  · exact htake _
  split
  · exact htake _
  · rfl

/-- The token of digits is no quote. -/
theorem ofDigits_ne_quote (digits : List Char) : Token.ofDigits digits ≠ .quote := by
  unfold Token.ofDigits
  split <;> exact Token.noConfusion

/-- The token of a run is no quote. -/
theorem ofRun_ne_quote (run : List Char) : Token.ofRun run ≠ .quote := by
  unfold Token.ofRun
  split
  · split
    · exact ofDigits_ne_quote _
    · exact Token.noConfusion
  · exact Token.noConfusion

/-- A quote is the quote mark and nothing else. -/
theorem scan_eq_quote {c : Char} {rest : List Char} (h : (Token.scan c rest).1 = .quote) :
    c = '\x27' ∧ (Token.scan c rest).2 = [] := by
  unfold Token.scan at h ⊢
  split at h
  · cases h
  split at h
  · cases h
  split at h
  · cases h
  split at h
  · next hlparen hrparen hdot hquote =>
    rw [if_neg hlparen, if_neg hrparen, if_neg hdot, if_pos hquote]
    exact ⟨hquote, rfl⟩
  split at h
  · exact absurd h (ofDigits_ne_quote _)
  split at h
  · exact absurd h (ofRun_ne_quote _)
  · cases h

end Token

namespace Lexeme

/-- The span of the token is within the text and not empty, and a quote is one byte wide. -/
structure Proper (l : Lexeme) (source : String) : Prop where
  within : l.span.Within source
  start_lt_stop : l.span.start < l.span.stop
  quote_stop : l.token = .quote → l.span.stop = l.span.start + 1

/-- The tokens are laid out in the text from byte `offset` on. -/
inductive LaidOut (source : String) : (offset : Nat) → List Lexeme → Prop where
  | nil {offset : Nat} : LaidOut source offset []
  | cons {offset : Nat} {l : Lexeme} {rest : List Lexeme} (hle : offset ≤ l.span.start)
      (hproper : l.Proper source) (hrest : LaidOut source l.span.stop rest) :
      LaidOut source offset (l :: rest)

namespace LaidOut

variable {source : String}

/-- Tokens that are laid out from an offset on are so from every earlier one on. -/
theorem of_le {offset offset' : Nat} {ls : List Lexeme} (h : LaidOut source offset ls)
    (hle : offset' ≤ offset) : LaidOut source offset' ls := by
  cases h with
  | nil => exact .nil
  | cons hstart hproper hrest => exact .cons (Nat.le_trans hle hstart) hproper hrest

/-- The spans of tokens that are laid out are within the text. -/
theorem proper_of_mem {offset : Nat} {ls : List Lexeme} (h : LaidOut source offset ls)
    {l : Lexeme} (hl : l ∈ ls) : l.Proper source := by
  induction h with
  | nil => cases hl
  | cons _ hproper _ ih =>
    rcases List.mem_cons.1 hl with rfl | hl
    · exact hproper
    · exact ih hl

end LaidOut

/-- The tokens of the rest of a text are laid out in the text from there on. -/
theorem laidOut_scanFrom {source : String} {before text : List Char} {offset : Nat}
    (htext : source.toList = before ++ text) (hoffset : utf8Length before = offset) :
    LaidOut source offset (scanFrom offset text) := by
  fun_induction scanFrom offset text generalizing before with
  | case1 => exact .nil
  | case2 offset c rest hblank ih =>
    have hcut : source.toList = (before ++ [c]) ++ rest := by rw [htext, List.append_cons]
    have hlength : utf8Length (before ++ [c]) = offset + c.utf8Size := by
      rw [utf8Length_append, hoffset, utf8Length, utf8Length, Nat.add_zero]
    exact (ih hcut hlength).of_le (Nat.le_add_right _ _)
  | case3 offset rest comment hblank =>
    rename_i ih
    have hsplit := List.prefix_iff_eq_append.1 (List.takeWhile_prefix (· != '\n') (l := rest))
    have hcut : source.toList = (before ++ ';' :: rest.takeWhile (· != '\n')) ++
        rest.drop (rest.takeWhile (· != '\n')).length := by
      rw [htext, List.append_assoc, List.cons_append, hsplit]
    have hlength : utf8Length (before ++ ';' :: rest.takeWhile (· != '\n')) =
        offset + utf8Length (';' :: rest.takeWhile (· != '\n')) := by
      rw [utf8Length_append, hoffset]
    exact (ih hcut hlength).of_le (Nat.le_add_right _ _)
  | case4 offset c rest hblank hcomment token more hscan stop =>
    rename_i ih
    have hmore : (Token.scan c rest).2 = more := by rw [hscan]
    have htoken : (Token.scan c rest).1 = token := by rw [hscan]
    have hrest : more ++ rest.drop more.length = rest := hmore ▸ Token.scan_append_drop c rest
    have hcut : source.toList = (before ++ c :: more) ++ rest.drop more.length := by
      rw [List.append_assoc, List.cons_append, hrest, htext]
    have hstop : utf8Length (before ++ c :: more) = stop := by
      rw [utf8Length_append, hoffset]
    have hwide : stop = offset + utf8Length (c :: more) := rfl
    have hlt : offset < stop := by
      have hpos := c.utf8Size_pos
      rw [hwide, utf8Length]
      omega
    have hwithin : Span.Within ⟨offset, stop⟩ source :=
      .of_le (Nat.le_of_lt hlt) ⟨before, c :: rest, htext, hoffset⟩ ⟨_, _, hcut, hstop⟩
    have hquote : token = .quote → stop = offset + 1 := by
      intro hquote
      obtain ⟨rfl, hnone⟩ := Token.scan_eq_quote (htoken.trans hquote)
      rw [hwide, ← hmore, hnone]
      rfl
    exact .cons (Nat.le_refl _) ⟨hwithin, hlt, hquote⟩ (ih hcut hstop)

/-- The tokens of a text are laid out in it. -/
theorem laidOut_scan (source : String) : LaidOut source 0 (scan source) :=
  laidOut_scanFrom (List.nil_append _).symm rfl

end Lexeme

end Secd
