import Mathlib.Tactic.ByContra
import Mathlib.Tactic.SplitIfs
import Secd.Proofs.Token.Layout
import Secd.Proofs.Token.Printed

/-!
# The longest token

A text begins with many texts that could be tokens: `-5a` begins with a symbol of one character,
with an integer literal and with another symbol. The patterns of tokens are stated here without
regard to how a text is scanned, and the token that is cut off a text is shown to be the longest of
all. The patterns have a property that makes one pass enough: whatever begins a text that matches a
pattern matches one, too, so that a token is as long as possible if it cannot be made longer by one
character.
-/

namespace Secd

namespace Token

/-! ### Patterns -/

/-- Whether the characters are a parenthesis, a dot or a quote mark. -/
def isMark : List Char → Bool
  | [c] => c == '(' || c == ')' || c == '.' || c == '\x27'
  | _ => false

/-- Whether the characters have the form of a symbol, integer literals among them. -/
def isRun : List Char → Bool
  | c :: rest => isSymbolStart c && rest.all isSymbolPart
  | [] => false

/-- Whether the characters match the pattern of some token. -/
def isPattern (word : List Char) : Bool := isMark word || isLiteral word || isRun word

/-- The integer that a literal stands for. -/
def literalValue : List Char → Int
  | '-' :: digits => -(Nat.ofDigitChars 10 digits 0 : Int)
  | digits => Nat.ofDigitChars 10 digits 0

/-- What a word with the pattern of a token is read as. Of a run of characters that is both, an
integer literal is an integer and no symbol. -/
def Reads : Token → (word : List Char) → Prop
  | .lparen, word => word = ['(']
  | .rparen, word => word = [')']
  | .dot, word => word = ['.']
  | .quote, word => word = ['\x27']
  | .int n, word => isLiteral word = true ∧ literalValue word = n.toInt
  | .symbol name, word => isRun word = true ∧ isLiteral word = false ∧ name.toList = word
  | .outOfRange digits, word => isLiteral word = true ∧ digits.toList = word ∧
      ¬ (Int64.minValue.toInt ≤ literalValue word ∧ literalValue word ≤ Int64.maxValue.toInt)
  | .invalid _, _ => False

/-- The word is the longest one with the pattern of a token at the front of a text that goes on with
`rest`. -/
structure Longest (word rest : List Char) : Prop where
  isPattern_word : isPattern word = true
  length_le : ∀ other, other <+: word ++ rest → isPattern other = true → other.length ≤ word.length

/-- The token with the characters `word` stands at the front of a text that goes on with `rest`. A
character is a token of its own if nothing at the front of the text has a pattern, and if it is not
skipped, either. -/
inductive Cuts : Token → (word rest : List Char) → Prop where
  | longest {t : Token} {word rest : List Char} (hlongest : Longest word rest)
      (hreads : t.Reads word) : Cuts t word rest
  | invalid {c : Char} {rest : List Char} (hblank : isBlank c = false) (hcomment : c ≠ ';')
      (hnone : ∀ other, other <+: c :: rest → isPattern other = false) : Cuts (.invalid c) [c] rest

/-! ### The form of patterns -/

/-- One character is an integer literal if it is a digit. -/
theorem isLiteral_singleton (c : Char) : isLiteral [c] = c.isDigit := by
  have h : isLiteral [c] = [c].all Char.isDigit := by
    unfold isLiteral
    split
    · next heq => cases heq
    · next heq =>
      cases heq
      rfl
    · next heq => cases heq
  rw [h, List.all_cons, List.all_nil, Bool.and_true]

/-- After a minus sign there are the digits of a literal, and at least one. -/
theorem isLiteral_minus (rest : List Char) :
    isLiteral ('-' :: rest) = (!rest.isEmpty && rest.all Char.isDigit) := by
  cases rest with
  | nil => rfl
  | cons d digits => rfl

/-- A literal without a minus sign has only digits. -/
theorem isLiteral_cons {c : Char} (hc : c ≠ '-') (rest : List Char) :
    isLiteral (c :: rest) = (c :: rest).all Char.isDigit := by
  unfold isLiteral
  split
  · next heq => exact absurd (List.cons.inj heq).1 hc
  · next heq =>
    obtain ⟨rfl, rfl⟩ := List.cons.inj heq
    rfl
  · next heq => cases heq

/-- Whatever a literal begins with is a literal, too, but for the minus sign. -/
theorem isLiteral_of_append {c : Char} {a b : List Char} (h : isLiteral (c :: (a ++ b)) = true) :
    isLiteral (c :: a) = true ∨ c :: a = ['-'] := by
  by_cases hc : c = '-'
  · subst hc
    cases a with
    | nil => exact .inr rfl
    | cons d a =>
      rw [isLiteral_minus, List.all_append, Bool.and_eq_true, Bool.and_eq_true] at h
      rw [isLiteral_minus]
      exact .inl (Bool.and_eq_true_iff.2 ⟨rfl, h.2.1⟩)
  · rw [isLiteral_cons hc, ← List.cons_append, List.all_append, Bool.and_eq_true] at h
    rw [isLiteral_cons hc]
    exact .inl h.1

/-- Whatever a text with a pattern begins with matches a pattern, too. -/
theorem isPattern_of_append {c : Char} {a b : List Char} (h : isPattern (c :: (a ++ b)) = true) :
    isPattern (c :: a) = true := by
  rw [isPattern, Bool.or_eq_true, Bool.or_eq_true] at h
  rcases h with (hmark | hliteral) | hrun
  · cases hab : a ++ b with
    | nil =>
      obtain ⟨rfl, rfl⟩ := List.append_eq_nil_iff.1 hab
      have hmark : isMark [c] = true := hmark
      rw [isPattern, hmark]
      rfl
    | cons d rest =>
      rw [hab] at hmark
      cases hmark
  · rcases isLiteral_of_append hliteral with h | h
    · rw [isPattern, h, Bool.or_true, Bool.true_or]
    · rw [h]
      decide
  · rw [isRun, List.all_append, Bool.and_eq_true, Bool.and_eq_true] at hrun
    rw [isPattern, isRun, hrun.1, hrun.2.1]
    exact Bool.or_true _

/-- A character that begins a text with a pattern is one that begins tokens. -/
theorem starts_of_isPattern {c : Char} {rest : List Char} (h : isPattern (c :: rest) = true) :
    isMark [c] = true ∨ c.isDigit = true ∨ isSymbolStart c = true := by
  have hone : isPattern [c] = true := isPattern_of_append (a := []) h
  rw [isPattern, isLiteral_singleton, isRun, List.all_nil, Bool.and_true, Bool.or_eq_true,
    Bool.or_eq_true, or_assoc] at hone
  exact hone

/-- A text with a pattern that is longer than one character is a literal or a run. -/
theorem isPattern_cons {c : Char} {rest : List Char} (hrest : rest ≠ []) :
    isPattern (c :: rest) = true ↔ isLiteral (c :: rest) = true ∨ isRun (c :: rest) = true := by
  obtain ⟨d, others, rfl⟩ := List.exists_cons_of_ne_nil hrest
  have hmark : isMark (c :: d :: others) = false := rfl
  rw [isPattern, hmark, Bool.false_or, Bool.or_eq_true]

/-- It begins with a digit or like a symbol. -/
theorem begins_of_isPattern {c : Char} {rest : List Char} (hrest : rest ≠ [])
    (h : isPattern (c :: rest) = true) : c.isDigit = true ∨ isSymbolStart c = true := by
  rcases (isPattern_cons hrest).1 h with hliteral | hrun
  · by_cases hc : c = '-'
    · subst hc
      exact .inr rfl
    · rw [isLiteral_cons hc] at hliteral
      exact .inl (Bool.and_eq_true_iff.1 hliteral).1
  · exact .inr (Bool.and_eq_true_iff.1 hrun).1

/-- After a digit it goes on with digits. -/
theorem all_isDigit_of_isPattern {c : Char} {rest : List Char} (hrest : rest ≠ [])
    (hc : c.isDigit = true) (h : isPattern (c :: rest) = true) : rest.all Char.isDigit = true := by
  rcases (isPattern_cons hrest).1 h with hliteral | hrun
  · have hminus : c ≠ '-' := by
      rintro rfl
      cases hc
    rw [isLiteral_cons hminus] at hliteral
    exact (Bool.and_eq_true_iff.1 hliteral).2
  · rw [isDigit_eq_false_of_isSymbolStart (Bool.and_eq_true_iff.1 hrun).1] at hc
    cases hc

/-- Every character of an integer literal can belong to a symbol. -/
theorem all_isSymbolPart_of_isLiteral {word : List Char} (h : isLiteral word = true) :
    word.all isSymbolPart = true := by
  have hdigits {text : List Char} (h : text.all Char.isDigit = true) :
      text.all isSymbolPart = true :=
    List.all_eq_true.2 fun c hc => isSymbolPart_of_isDigit c (List.all_eq_true.1 h c hc)
  cases word with
  | nil => cases h
  | cons c rest =>
    by_cases hc : c = '-'
    · subst hc
      rw [isLiteral_minus] at h
      exact Bool.and_eq_true_iff.2 ⟨by decide, hdigits (Bool.and_eq_true_iff.1 h).2⟩
    · rw [isLiteral_cons hc] at h
      exact hdigits h

/-- So can every character of a run. -/
theorem all_isSymbolPart_of_isRun {word : List Char} (h : isRun word = true) :
    word.all isSymbolPart = true := by
  cases word with
  | nil => cases h
  | cons c rest =>
    obtain ⟨hstart, hrest⟩ := Bool.and_eq_true_iff.1 h
    refine Bool.and_eq_true_iff.2 ⟨?_, hrest⟩
    rw [isSymbolPart, hstart, Bool.true_or, Bool.true_or]

/-- In any case it goes on with characters that can belong to a symbol. -/
theorem all_isSymbolPart_of_isPattern {c : Char} {rest : List Char}
    (h : isPattern (c :: rest) = true) : rest.all isSymbolPart = true := by
  by_cases hrest : rest = []
  · rw [hrest]
    rfl
  · have hall : (c :: rest).all isSymbolPart = true := by
      rcases (isPattern_cons hrest).1 h with hliteral | hrun
      · exact all_isSymbolPart_of_isLiteral hliteral
      · exact all_isSymbolPart_of_isRun hrun
    exact (Bool.and_eq_true_iff.1 hall).2

/-! ### Longest words -/

/-- A word with a pattern is the longest one if the next character cannot be added. -/
theorem longest_of_next {word rest : List Char} (hword : isPattern word = true)
    (hnext : ∀ c ∈ rest.head?, isPattern (word ++ [c]) = false) : Longest word rest := by
  refine ⟨hword, fun other hother hpattern => ?_⟩
  by_contra hlonger
  obtain ⟨more, rfl⟩ : word <+: other :=
    List.prefix_of_prefix_length_le (List.prefix_append word rest) hother
      (Nat.le_of_lt (Nat.lt_of_not_le hlonger))
  have hmore : more <+: rest := (List.prefix_append_right_inj word).1 hother
  cases word with
  | nil => cases hword
  | cons first word =>
    cases more with
    | nil =>
      rw [List.append_nil] at hlonger
      exact hlonger (Nat.le_refl _)
    | cons c more =>
      obtain ⟨after, rfl⟩ := hmore
      have hprefix : first :: (word ++ c :: more) = first :: ((word ++ [c]) ++ more) := by
        rw [List.append_assoc, List.singleton_append]
      rw [List.cons_append, hprefix] at hpattern
      have hadded := isPattern_of_append hpattern
      rw [← List.cons_append, hnext c rfl] at hadded
      cases hadded

/-- Whether a word is the longest one shows from the next character. -/
theorem Longest.of_head? {word rest rest' : List Char} (h : Longest word rest)
    (hrest : rest'.head? = rest.head?) : Longest word rest' := by
  refine longest_of_next h.isPattern_word fun c hc => ?_
  rw [hrest] at hc
  obtain ⟨after, rfl⟩ : ∃ after, rest = c :: after := by
    cases rest with
    | nil => cases hc
    | cons d after =>
      obtain rfl := Option.some.inj hc
      exact ⟨after, rfl⟩
  rw [Bool.eq_false_iff]
  intro hpattern
  have hle := h.length_le (word ++ [c]) (by simp) hpattern
  rw [List.length_append, List.length_singleton] at hle
  omega

/-- No token goes on with a character that cannot belong to a symbol. -/
theorem Longest.of_separated {word rest : List Char} (h : isPattern word = true)
    (hrest : Separated rest) : Longest word rest := by
  refine longest_of_next h fun c hc => ?_
  rw [Bool.eq_false_iff]
  intro hpattern
  cases word with
  | nil => cases h
  | cons first word =>
    cases rest with
    | nil => cases hc
    | cons d rest =>
      obtain rfl := Option.some.inj hc
      have hall : (word ++ [d]).all isSymbolPart = true := all_isSymbolPart_of_isPattern hpattern
      have hd : isSymbolPart d = true := List.all_eq_true.1 hall d (by simp)
      rw [show isSymbolPart d = false from hrest] at hd
      cases hd

/-! ### What a word is read as -/

/-- Digits stand for a machine integer if their value is one. -/
theorem ofDigits?_eq (word : List Char) :
    Integer.ofDigits? word = Integer.ofInt? (literalValue word) := by
  rw [Integer.ofDigits?.eq_def]
  split
  · rfl
  · next hminus => rw [literalValue.eq_2 _ hminus]

/-- A literal is read as the integer that it stands for, or as a number out of range. -/
theorem reads_ofDigits {word : List Char} (h : isLiteral word = true) :
    (ofDigits word).Reads word := by
  unfold ofDigits
  split
  · next n hn =>
    rw [ofDigits?_eq] at hn
    exact ⟨h, (Integer.toInt_eq_of_ofInt? hn).symm⟩
  · next hn =>
    refine ⟨h, String.toList_ofList, fun hrange => ?_⟩
    rw [ofDigits?_eq, Integer.ofInt?, if_pos hrange] at hn
    cases hn

/-- A run of symbol characters is read as an integer literal if it is one, and otherwise as a
symbol. -/
theorem reads_ofRun {word : List Char} (h : isRun word = true) : (ofRun word).Reads word := by
  cases hliteral : isLiteral word with
  | false =>
    rw [ofRun_of_isLiteral hliteral]
    exact ⟨h, hliteral, String.toList_ofList⟩
  | true =>
    cases word with
    | nil => cases h
    | cons c rest =>
      have hc : c = '-' := by
        by_contra hc
        rw [isLiteral_cons hc] at hliteral
        have hdigit : c.isDigit = true := (Bool.and_eq_true_iff.1 hliteral).1
        rw [isDigit_eq_false_of_isSymbolStart (Bool.and_eq_true_iff.1 h).1] at hdigit
        cases hdigit
      subst hc
      cases rest with
      | nil => cases hliteral
      | cons d digits =>
        have hdigits : (d :: digits).all Char.isDigit = true := hliteral
        rw [ofRun, if_pos hdigits]
        exact reads_ofDigits hliteral

/-- The token that a word with a pattern is read as. -/
def ofWord (word : List Char) : Token :=
  if isLiteral word then ofDigits word
  else if isRun word then .symbol (String.ofList word)
  else
    match word with
    | ['('] => .lparen
    | [')'] => .rparen
    | ['.'] => .dot
    | _ => .quote

/-- A word is read as one token only. -/
theorem Reads.eq_ofWord {t : Token} {word : List Char} (h : t.Reads word) : t = ofWord word := by
  unfold ofWord
  cases t with
  | int n => rw [if_pos h.1, ofDigits, ofDigits?_eq, h.2, Integer.ofInt?_toInt]
  | outOfRange digits =>
    rw [if_pos h.1, ofDigits, ofDigits?_eq, Integer.ofInt?, if_neg h.2.2, ← h.2.1,
      String.ofList_toList]
  | symbol name =>
    obtain ⟨hrun, hliteral, rfl⟩ := h
    rw [if_neg (Bool.eq_false_iff.1 hliteral), if_pos hrun, String.ofList_toList]
  | invalid c => exact h.elim
  | _ =>
    obtain rfl := h
    rfl

/-! ### Scanning -/

/-- A run of characters ends in front of one that does not belong to it. -/
theorem eq_false_of_head?_drop {p : Char → Bool} {text : List Char} {d : Char}
    (h : d ∈ (text.drop (text.takeWhile p).length).head?) : p d = false := by
  induction text with
  | nil => cases h
  | cons c text ih =>
    cases hc : p c with
    | true =>
      rw [List.takeWhile_cons_of_pos hc] at h
      exact ih h
    | false =>
      rw [List.takeWhile_cons_of_neg (Bool.eq_false_iff.1 hc)] at h
      obtain rfl := Option.some.inj h
      exact hc

/-- A mark is a token by itself. -/
theorem cuts_mark {t : Token} {c : Char} (hmark : isMark [c] = true) (hdigit : c.isDigit = false)
    (hstart : isSymbolStart c = false) (hreads : t.Reads [c]) (rest : List Char) :
    Cuts t [c] rest := by
  have hpattern : isPattern [c] = true := by
    rw [isPattern, hmark]
    rfl
  refine .longest (longest_of_next hpattern fun d _ => ?_) hreads
  rw [Bool.eq_false_iff]
  intro hmore
  rcases begins_of_isPattern (List.cons_ne_nil d []) hmore with h | h
  · rw [hdigit] at h
    cases h
  · rw [hstart] at h
    cases h

/-- The first token of a text is the longest one, and is cut off. -/
theorem cuts_scan {c : Char} (hblank : isBlank c = false) (hcomment : c ≠ ';') (rest : List Char) :
    Cuts (scan c rest).1 (c :: (scan c rest).2) (rest.drop (scan c rest).2.length) := by
  unfold scan
  split_ifs with hlparen hrparen hdot hquote hdigit hstart
  · subst hlparen
    exact cuts_mark (t := .lparen) rfl rfl rfl rfl rest
  · subst hrparen
    exact cuts_mark (t := .rparen) rfl rfl rfl rfl rest
  · subst hdot
    exact cuts_mark (t := .dot) rfl rfl rfl rfl rest
  · subst hquote
    exact cuts_mark (t := .quote) rfl rfl rfl rfl rest
  · have hc : c ≠ '-' := by
      rintro rfl
      cases hdigit
    have hliteral : isLiteral (c :: rest.takeWhile Char.isDigit) = true := by
      rw [isLiteral_cons hc, List.all_cons, hdigit, List.all_takeWhile]
      rfl
    have hpattern : isPattern (c :: rest.takeWhile Char.isDigit) = true := by
      rw [isPattern, hliteral, Bool.or_true, Bool.true_or]
    refine .longest (longest_of_next hpattern fun d hd => ?_) (reads_ofDigits hliteral)
    rw [Bool.eq_false_iff]
    intro hmore
    have hall : (rest.takeWhile Char.isDigit ++ [d]).all Char.isDigit = true :=
      all_isDigit_of_isPattern (by simp) hdigit hmore
    have hd' : d.isDigit = true := List.all_eq_true.1 hall d (by simp)
    rw [eq_false_of_head?_drop hd] at hd'
    cases hd'
  · have hrun : isRun (c :: rest.takeWhile isSymbolPart) = true := by
      rw [isRun, hstart, List.all_takeWhile]
      rfl
    have hpattern : isPattern (c :: rest.takeWhile isSymbolPart) = true := by
      rw [isPattern, hrun, Bool.or_true]
    refine .longest (longest_of_next hpattern fun d hd => ?_) (reads_ofRun hrun)
    rw [Bool.eq_false_iff]
    intro hmore
    have hall : (rest.takeWhile isSymbolPart ++ [d]).all isSymbolPart = true :=
      all_isSymbolPart_of_isPattern hmore
    have hd' : isSymbolPart d = true := List.all_eq_true.1 hall d (by simp)
    rw [eq_false_of_head?_drop hd] at hd'
    cases hd'
  · refine .invalid hblank hcomment fun other hother => ?_
    rw [Bool.eq_false_iff]
    intro hpattern
    cases other with
    | nil => cases hpattern
    | cons first others =>
      obtain ⟨rfl, -⟩ := List.cons_prefix_cons.1 hother
      rcases starts_of_isPattern hpattern with h | h | h
      · simp [isMark, hlparen, hrparen, hdot, hquote] at h
      · exact hdigit h
      · exact hstart h

/-- A character that is a token of its own is one whatever comes after it. -/
theorem cuts_invalid {c : Char} {rest : List Char} (hblank : isBlank c = false) (hcomment : c ≠ ';')
    (hnone : ∀ other, other <+: c :: rest → isPattern other = false) (rest' : List Char) :
    Cuts (.invalid c) [c] rest' := by
  refine .invalid hblank hcomment fun other hother => ?_
  rw [Bool.eq_false_iff]
  intro hpattern
  cases other with
  | nil => cases hpattern
  | cons first others =>
    obtain ⟨rfl, -⟩ := List.cons_prefix_cons.1 hother
    have hone : isPattern [first] = true := isPattern_of_append (a := []) hpattern
    rw [hnone [first] (List.prefix_append [first] rest)] at hone
    cases hone

/-- What is cut off a text is cut off every text that goes on with the same character. -/
theorem Cuts.of_head? {t : Token} {word rest rest' : List Char} (h : Cuts t word rest)
    (hrest : rest'.head? = rest.head?) : Cuts t word rest' := by
  cases h with
  | longest hlongest hreads => exact .longest (hlongest.of_head? hrest) hreads
  | invalid hblank hcomment hnone => exact cuts_invalid hblank hcomment hnone rest'

/-- What is cut off a text is cut off every text that goes on with a character that no token goes on
with. -/
theorem Cuts.of_separated {t : Token} {word rest rest' : List Char} (h : Cuts t word rest)
    (hrest : Separated rest') : Cuts t word rest' := by
  cases h with
  | longest hlongest hreads =>
    exact .longest (Longest.of_separated hlongest.isPattern_word hrest) hreads
  | invalid hblank hcomment hnone => exact cuts_invalid hblank hcomment hnone rest'

/-- Only one token can be cut off a text. -/
theorem Cuts.unique {t t' : Token} {word word' rest rest' : List Char} (h : Cuts t word rest)
    (h' : Cuts t' word' rest') (htext : word ++ rest = word' ++ rest') :
    t = t' ∧ word = word' ∧ rest = rest' := by
  cases h with
  | longest hlongest hreads =>
    cases h' with
    | longest hlongest' hreads' =>
      have hlength : word.length = word'.length := Nat.le_antisymm
        (hlongest'.length_le word (htext ▸ List.prefix_append word rest) hlongest.isPattern_word)
        (hlongest.length_le word' (htext ▸ List.prefix_append word' rest') hlongest'.isPattern_word)
      obtain ⟨rfl, rfl⟩ := List.append_inj htext hlength
      exact ⟨hreads.eq_ofWord.trans hreads'.eq_ofWord.symm, rfl, rfl⟩
    | invalid _ _ hnone =>
      have hpattern := hlongest.isPattern_word
      have hfront : word <+: word ++ rest := List.prefix_append word rest
      rw [htext] at hfront
      rw [hnone word hfront] at hpattern
      cases hpattern
  | invalid _ _ hnone =>
    cases h' with
    | longest hlongest' hreads' =>
      have hpattern := hlongest'.isPattern_word
      have hfront : word' <+: word' ++ rest' := List.prefix_append word' rest'
      rw [← htext] at hfront
      rw [hnone word' hfront] at hpattern
      cases hpattern
    | invalid _ _ _ =>
      obtain ⟨rfl, rfl⟩ := List.cons.inj htext
      exact ⟨rfl, rfl, rfl⟩

end Token

end Secd
