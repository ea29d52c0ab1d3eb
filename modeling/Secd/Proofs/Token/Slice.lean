import Mathlib.Tactic.SplitIfs
import Secd.Proofs.Token.Layout
import Secd.Proofs.Token.Printed

/-!
# Parts of a text

The text between the beginning of one token and the end of another has the same tokens as there are
in the whole text between these places. The reason is that a token is as long as possible, and that
a comment ends at the end of its line: neither gets shorter when the text ends where it ends anyway.
-/

namespace Secd

/-- The part of a text that a span covers; `none` if the span is reversed, is not in the text, or
cuts a character. -/
def Span.slice? (span : Span) (source : String) : Option String :=
  match textBefore? span.start source.toList, textBefore? span.stop source.toList with
  | some before, some upTo =>
    if span.start ≤ span.stop then some (String.ofList (upTo.drop before.length)) else none
  | _, _ => none

/-- A span covers the characters between the places where it begins and ends. -/
theorem Span.slice?_eq_some {source : String} {before text after : List Char} {start stop : Nat}
    (hsource : source.toList = before ++ (text ++ after)) (hstart : utf8Length before = start)
    (hstop : start + utf8Length text = stop) :
    Span.slice? ⟨start, stop⟩ source = some (String.ofList text) := by
  have hbefore : textBefore? start source.toList = some before := by
    rw [hsource, ← hstart]
    exact textBefore?_utf8Length before _
  have hupTo : textBefore? stop source.toList = some (before ++ text) := by
    rw [hsource, ← List.append_assoc, ← hstop, ← hstart, ← utf8Length_append]
    exact textBefore?_utf8Length (before ++ text) after
  have hle : start ≤ stop := by omega
  simp only [slice?, hbefore, hupTo, if_pos hle, List.drop_left]

/-- A run of characters ends where the text is cut after it. -/
theorem takeWhile_append_of_cut {p : Char → Bool} {run text after : List Char}
    (h : (run ++ (text ++ after)).takeWhile p = run) : (run ++ text).takeWhile p = run := by
  have hall : ∀ c ∈ run, p c = true := by
    have htake : ((run ++ (text ++ after)).takeWhile p).all p = true := List.all_takeWhile
    rw [h] at htake
    exact List.all_eq_true.1 htake
  rw [List.takeWhile_append_of_pos hall] at h ⊢
  have hnone : (text ++ after).takeWhile p = [] := List.append_right_eq_self.1 h
  cases text with
  | nil => rw [List.takeWhile_nil, List.append_nil]
  | cons c rest =>
    rw [List.cons_append, List.takeWhile_cons] at hnone
    split at hnone
    · cases hnone
    · next hc => rw [List.takeWhile_cons_of_neg hc, List.append_nil]

/-- A token stays the same when the text is cut somewhere after it. -/
theorem Token.scan_of_cut {c : Char} {more text after : List Char} {token : Token}
    (h : Token.scan c (more ++ (text ++ after)) = (token, more)) :
    Token.scan c (more ++ text) = (token, more) := by
  have hrun (p : Char → Bool) (ofChars : List Char → Token)
      (h : (ofChars (c :: (more ++ (text ++ after)).takeWhile p),
        (more ++ (text ++ after)).takeWhile p) = (token, more)) :
      (ofChars (c :: (more ++ text).takeWhile p), (more ++ text).takeWhile p) = (token, more) := by
    obtain ⟨htoken, hmore⟩ := Prod.mk.inj h
    rw [hmore] at htoken
    rw [takeWhile_append_of_cut hmore, htoken]
  unfold Token.scan at h ⊢
  split_ifs at h ⊢
  · exact h
  · exact h
  · exact h
  · exact h
  · exact hrun Char.isDigit ofDigits h
  · exact hrun isSymbolPart ofRun h
  · exact h

namespace Lexeme

/-- Where the last of some tokens ends; if there are none, the place before them. -/
def stopOf : (offset : Nat) → List Lexeme → Nat
  | offset, [] => offset
  | _, l :: rest => stopOf l.span.stop rest

/-- Tokens in two parts end where the second part ends. -/
theorem stopOf_append (offset : Nat) (ls ls' : List Lexeme) :
    stopOf offset (ls ++ ls') = stopOf (stopOf offset ls) ls' := by
  induction ls generalizing offset with
  | nil => rfl
  | cons l rest ih => exact ih l.span.stop

namespace LaidOut

variable {source : String}

/-- Tokens in two parts are laid out one part after the other. -/
theorem of_append {offset : Nat} {ls ls' : List Lexeme} (h : LaidOut source offset (ls ++ ls')) :
    LaidOut source offset ls ∧ LaidOut source (stopOf offset ls) ls' := by
  induction ls generalizing offset with
  | nil => exact ⟨.nil, h⟩
  | cons l rest ih =>
    cases h with
    | cons hle hproper hrest =>
      obtain ⟨hfirst, hsecond⟩ := ih hrest
      exact ⟨.cons hle hproper hfirst, hsecond⟩

/-- Tokens that are laid out end no earlier than the place from which on they are. -/
theorem le_stopOf {offset : Nat} {ls : List Lexeme} (h : LaidOut source offset ls) :
    offset ≤ stopOf offset ls := by
  induction h with
  | nil => exact Nat.le_refl _
  | cons hle hproper _ ih =>
    exact Nat.le_trans hle (Nat.le_trans hproper.within.start_le_stop ih)

/-- The end of tokens is on a boundary of the text. -/
theorem onBoundary_stopOf {offset : Nat} {ls : List Lexeme} (h : LaidOut source offset ls)
    (hoffset : OnBoundary source offset) : OnBoundary source (stopOf offset ls) := by
  induction h with
  | nil => exact hoffset
  | cons _ hproper _ ih => exact ih hproper.within.onBoundary_stop

/-- From the beginning of a token to the end of a later one there is a span within the text. -/
theorem within {offset : Nat} {l : Lexeme} {others : List Lexeme}
    (h : LaidOut source offset (l :: others)) :
    Span.Within ⟨l.span.start, stopOf l.span.stop others⟩ source := by
  cases h with
  | cons hle hproper hrest =>
    refine .of_le ?_ hproper.within.onBoundary_start ?_
    · exact Nat.le_trans hproper.within.start_le_stop hrest.le_stopOf
    · exact hrest.onBoundary_stopOf hproper.within.onBoundary_stop

end LaidOut

/-- Tokens that follow one another in a text are laid out in it. -/
theorem exists_laidOut_of_infix {source : String} {ls : List Lexeme} (h : ls <:+: scan source) :
    ∃ offset, LaidOut source offset ls := by
  obtain ⟨before, after, hscan⟩ := h
  have hall := laidOut_scan source
  rw [← hscan] at hall
  obtain ⟨hfront, -⟩ := hall.of_append
  exact ⟨_, hfront.of_append.2⟩

/-- The tokens from some token on are those of the text from the beginning of this token on. -/
theorem exists_text_from {offset : Nat} {text : List Char} {before rest : List Lexeme} {l : Lexeme}
    (h : scanFrom offset text = before ++ l :: rest) :
    ∃ passed text', text = passed ++ text' ∧ offset + utf8Length passed = l.span.start ∧
      scanFrom l.span.start text' = l :: rest := by
  fun_induction scanFrom offset text generalizing before with
  | case1 => cases before <;> cases h
  | case2 offset c others hblank ih =>
    obtain ⟨passed, text', rfl, hoffset, hscan⟩ := ih h
    refine ⟨c :: passed, text', rfl, ?_, hscan⟩
    rw [← hoffset, utf8Length, Nat.add_assoc]
  | case3 offset others comment hblank =>
    rename_i ih
    obtain ⟨passed, text', hsplit, hoffset, hscan⟩ := ih h
    have hcomment := List.prefix_iff_eq_append.1 (List.takeWhile_prefix (· != '\n') (l := others))
    refine ⟨';' :: (comment ++ passed), text', ?_, ?_, hscan⟩
    · rw [List.cons_append, List.append_assoc, ← hsplit, hcomment]
    · rw [← hoffset, ← List.cons_append, utf8Length_append, Nat.add_assoc]
  | case4 offset c others hblank hcomment token more hscan stop =>
    rename_i ih
    cases before with
    | nil =>
      obtain ⟨rfl, hrest⟩ := List.cons.inj h
      refine ⟨[], c :: others, rfl, rfl, ?_⟩
      rw [scanFrom, if_neg hblank, if_neg hcomment, hscan]
      exact congrArg _ hrest
    | cons first before =>
      obtain ⟨-, hrest⟩ := List.cons.inj h
      obtain ⟨passed, text', hsplit, hoffset, hfound⟩ := ih hrest
      have hmore : more ++ others.drop more.length = others := by
        have happend := Token.scan_append_drop c others
        rwa [hscan] at happend
      refine ⟨c :: (more ++ passed), text', ?_, ?_, hfound⟩
      · rw [List.cons_append, List.append_assoc, ← hsplit, hmore]
      · rw [← hoffset, ← List.cons_append, utf8Length_append, Nat.add_assoc]

/-- The first tokens are those of the text up to the end of the last one of them. -/
theorem exists_text_upTo {offset : Nat} {text : List Char} {ls after : List Lexeme}
    (h : scanFrom offset text = ls ++ after) :
    ∃ text' following, text = text' ++ following ∧ offset + utf8Length text' = stopOf offset ls ∧
      ∀ offset', (scanFrom offset' text').map Lexeme.token = ls.map Lexeme.token := by
  have hnone (offset' : Nat) : scanFrom offset' [] = [] := by rw [scanFrom]
  fun_induction scanFrom offset text generalizing ls with
  | case1 offset =>
    obtain ⟨rfl, -⟩ := List.append_eq_nil_iff.1 h.symm
    exact ⟨[], [], rfl, rfl, fun offset' => by rw [hnone]⟩
  | case2 offset c rest hblank ih =>
    cases ls with
    | nil => exact ⟨[], c :: rest, rfl, rfl, fun offset' => by rw [hnone]⟩
    | cons l others =>
      obtain ⟨text', following, rfl, hstop, hscan⟩ := ih h
      refine ⟨c :: text', following, rfl, ?_, fun offset' => ?_⟩
      · rw [utf8Length, ← Nat.add_assoc]
        exact hstop
      · rw [scanFrom, if_pos hblank]
        exact hscan _
  | case3 offset rest comment hblank =>
    rename_i ih
    cases ls with
    | nil => exact ⟨[], ';' :: rest, rfl, rfl, fun offset' => by rw [hnone]⟩
    | cons l others =>
      obtain ⟨text', following, hsplit, hstop, hscan⟩ := ih h
      have hcomment : comment ++ (text' ++ following) = rest := by
        rw [← hsplit]
        exact List.prefix_iff_eq_append.1 (List.takeWhile_prefix (· != '\n'))
      -- the cut text has the same comment: it ends before a line feed, or with the text
      have hcut : (comment ++ text').takeWhile (· != '\n') = comment := by
        have hwhole : (comment ++ (text' ++ following)).takeWhile (· != '\n') = comment := by
          rw [hcomment]
        exact takeWhile_append_of_cut hwhole
      refine ⟨';' :: (comment ++ text'), following, ?_, ?_, fun offset' => ?_⟩
      · rw [List.cons_append, List.append_assoc, hcomment]
      · rw [← List.cons_append, utf8Length_append, ← Nat.add_assoc]
        exact hstop
      · rw [scanFrom, if_neg (by decide), if_pos rfl]
        dsimp only
        rw [hcut, List.drop_left]
        exact hscan _
  | case4 offset c rest hblank hcomment token more hscan stop =>
    rename_i ih
    cases ls with
    | nil => exact ⟨[], c :: rest, rfl, rfl, fun offset' => by rw [hnone]⟩
    | cons l others =>
      obtain ⟨rfl, hothers⟩ := List.cons.inj h
      obtain ⟨text', following, hsplit, hstop, hfound⟩ := ih hothers
      have hmore : more ++ (text' ++ following) = rest := by
        have happend := Token.scan_append_drop c rest
        rwa [hscan, hsplit] at happend
      have hcut : Token.scan c (more ++ text') = (token, more) := by
        have hwhole : Token.scan c (more ++ (text' ++ following)) = (token, more) := by
          rw [hmore, hscan]
        exact Token.scan_of_cut hwhole
      refine ⟨c :: (more ++ text'), following, ?_, ?_, fun offset' => ?_⟩
      · rw [List.cons_append, List.append_assoc, hmore]
      · rw [← List.cons_append, utf8Length_append, ← Nat.add_assoc]
        exact hstop
      · obtain ⟨span, hspan⟩ := scanFrom_cons (Bool.eq_false_iff.2 hblank) hcomment hcut offset'
        rw [hspan, List.map_cons, List.map_cons, hfound]

/-- The text from the beginning of one token to the end of another has the tokens between them. -/
theorem exists_slice? {source : String} {l : Lexeme} {others : List Lexeme}
    (h : l :: others <:+: scan source) :
    ∃ text, Span.slice? ⟨l.span.start, stopOf l.span.stop others⟩ source = some text ∧
      l.span.start + utf8Length text.toList = stopOf l.span.stop others ∧
      (scan text).map Lexeme.token = (l :: others).map Lexeme.token := by
  obtain ⟨before, after, hscan⟩ := h
  rw [List.append_assoc] at hscan
  obtain ⟨passed, rest, hsource, hstart, hrest⟩ := exists_text_from hscan.symm
  have hfront : scanFrom l.span.start rest = (l :: others) ++ after := hrest
  obtain ⟨text, following, rfl, hstop, htokens⟩ := exists_text_upTo hfront
  rw [Nat.zero_add] at hstart
  refine ⟨String.ofList text, Span.slice?_eq_some hsource hstart hstop, ?_, ?_⟩
  · rw [String.toList_ofList]
    exact hstop
  · rw [scan, String.toList_ofList]
    exact htokens 0

/-- A text of one byte has one character. -/
theorem eq_singleton_of_utf8Length {text : List Char} (h : utf8Length text = 1) :
    ∃ c, text = [c] := by
  cases text with
  | nil => cases h
  | cons c rest =>
    cases rest with
    | nil => exact ⟨c, rfl⟩
    | cons d rest =>
      have hc := c.utf8Size_pos
      have hd := d.utf8Size_pos
      simp only [utf8Length] at h
      omega

/-- A text of one byte whose only token is a quote is the quote mark. -/
theorem eq_quote_of_scan {text : String} (hlength : utf8Length text.toList = 1)
    (hscan : (scan text).map Lexeme.token = [.quote]) : text = "'" := by
  obtain ⟨c, hc⟩ := eq_singleton_of_utf8Length hlength
  have hnone (offset : Nat) : scanFrom offset [] = [] := by rw [scanFrom]
  have hquote : c = '\x27' := by
    rw [scan, hc, scanFrom] at hscan
    split_ifs at hscan
    · rw [hnone] at hscan
      cases hscan
    · simp only [List.drop_nil, hnone] at hscan
      cases hscan
    · obtain ⟨hfirst, -⟩ := List.cons.inj hscan
      exact (Token.scan_eq_quote hfirst).1
  rw [← String.ofList_toList (s := text), hc, hquote]

end Lexeme

end Secd
