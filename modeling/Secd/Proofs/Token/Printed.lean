import Secd.Proofs.Sexp.Atoms
import Secd.Token.Lexer

/-!
# The tokens of printed forms

The printed form of a tree is cut into exactly the tokens that were written: a parenthesis for each
list, a dot in front of a tail that is no list, and one token for each atom. What makes this work is
that an atom is always followed by a blank, by a closing parenthesis or by the end of the text, and
none of these can belong to a symbol or to a number. So the longest possible token is the atom, also
for symbols that contain dots, signs and digits.
-/

namespace Secd

/-! ### Runs of characters -/

/-- The text does not go on with a character that can belong to a symbol. -/
def Separated : List Char → Prop
  | [] => True
  | c :: _ => isSymbolPart c = false

/-- A run of characters ends where the text goes on with another character. -/
theorem takeWhile_append_of_separated {p : Char → Bool}
    (hp : ∀ c, p c = true → isSymbolPart c = true) {run more : List Char}
    (hrun : run.all p = true) (hmore : Separated more) :
    (run ++ more).takeWhile p = run := by
  have hnone : more.takeWhile p = [] := by
    cases more with
    | nil => rfl
    | cons c rest =>
      refine List.takeWhile_cons_of_neg ?_
      intro hc
      have hpart : isSymbolPart c = true := hp c hc
      rw [show isSymbolPart c = false from hmore] at hpart
      cases hpart
  rw [List.takeWhile_append_of_pos (List.all_eq_true.1 hrun), hnone, List.append_nil]

/-- Digits can belong to a symbol. -/
theorem isSymbolPart_of_isDigit (c : Char) (h : c.isDigit = true) : isSymbolPart c = true := by
  rw [isSymbolPart, h, Bool.or_true, Bool.true_or]

/-- No letter is a digit. -/
theorem isDigit_eq_false_of_isAlpha {c : Char} (h : c.isAlpha = true) : c.isDigit = false := by
  rw [Bool.eq_false_iff]
  intro hdigit
  have hle : c.toNat ≤ 57 := (Char.isDigit_iff_toNat.1 hdigit).2
  rcases Bool.or_eq_true_iff.1 h with hupper | hlower
  · have hge : 65 ≤ c.toNat := UInt32.le_iff_toNat_le.1 (of_decide_eq_true hupper).1
    omega
  · have hge : 97 ≤ c.toNat :=
      UInt32.le_iff_toNat_le.1 (of_decide_eq_true (Bool.and_eq_true_iff.1 hlower).1)
    omega

/-- No symbol begins with a digit. -/
theorem isDigit_eq_false_of_isSymbolStart {c : Char} (h : isSymbolStart c = true) :
    c.isDigit = false := by
  have hmarks : symbolMarks.any Char.isDigit = false := by decide
  rw [isSymbolStart, Bool.or_eq_true] at h
  rcases h with h | h
  · exact isDigit_eq_false_of_isAlpha h
  · exact Bool.eq_false_iff.2 (List.any_eq_false.1 hmarks c (List.contains_iff_mem.1 h))

/-- A character that can belong to a symbol is none of those that cannot. -/
theorem ne_of_isSymbolPart {c d : Char} (h : isSymbolPart c = true)
    (hd : isSymbolPart d = false) : c ≠ d := by
  rintro rfl
  rw [h] at hd
  cases hd

/-- A character that can belong to a symbol is no blank. -/
theorem isBlank_eq_false_of_isSymbolPart {c : Char} (h : isSymbolPart c = true) :
    isBlank c = false := by
  have hblanks : [' ', '\t', '\r', '\n', '\x0c'].any isSymbolPart = false := by decide
  have hne : ∀ b ∈ [' ', '\t', '\r', '\n', '\x0c'], c ≠ b := fun b hb =>
    ne_of_isSymbolPart h (Bool.eq_false_iff.2 (List.any_eq_false.1 hblanks b hb))
  simpa [isBlank, and_assoc] using hne

namespace Token

/-- Whether the characters are an integer literal: digits after an optional minus sign. -/
def isLiteral : List Char → Bool
  | '-' :: d :: digits => (d :: digits).all Char.isDigit
  | d :: digits => (d :: digits).all Char.isDigit
  | [] => false

/-- Whether the characters are the name of a symbol: those that a symbol may consist of, unless they
are an integer literal. -/
def isName : List Char → Bool
  | c :: rest => isSymbolStart c && rest.all isSymbolPart && !isLiteral (c :: rest)
  | [] => false

/-- A run of symbol characters that is no integer literal is a symbol. -/
theorem ofRun_of_isLiteral {run : List Char} (h : isLiteral run = false) :
    ofRun run = .symbol (String.ofList run) := by
  unfold ofRun
  split
  · rw [isLiteral] at h
    rw [h]
    rfl
  · rfl

/-- The name of a symbol is one token. -/
theorem scan_of_isName {c : Char} {rest more : List Char} (h : isName (c :: rest) = true)
    (hmore : Separated more) :
    scan c (rest ++ more) = (.symbol (String.ofList (c :: rest)), rest) := by
  rw [isName, Bool.and_eq_true, Bool.and_eq_true, Bool.not_eq_true'] at h
  obtain ⟨⟨hstart, hrest⟩, hliteral⟩ := h
  have hpart : isSymbolPart c = true := by rw [isSymbolPart, hstart, Bool.true_or, Bool.true_or]
  have hdot : c ≠ '.' := by
    rintro rfl
    revert hstart
    decide
  have hdigit : ¬ c.isDigit = true := by simp [isDigit_eq_false_of_isSymbolStart hstart]
  rw [scan, if_neg (ne_of_isSymbolPart hpart (by decide)),
    if_neg (ne_of_isSymbolPart hpart (by decide)), if_neg hdot,
    if_neg (ne_of_isSymbolPart hpart (by decide)), if_neg hdigit, if_pos hstart]
  dsimp only
  rw [takeWhile_append_of_separated (fun _ => id) hrest hmore, ofRun_of_isLiteral hliteral]

/-- The token of digits is no symbol. -/
theorem ofDigits_ne_symbol (digits : List Char) (name : String) :
    Token.ofDigits digits ≠ .symbol name := by
  unfold Token.ofDigits
  split <;> exact Token.noConfusion

/-- The symbol of a run of symbol characters has the name of a symbol. -/
theorem isName_of_ofRun {c : Char} {rest : List Char} {name : String}
    (hstart : isSymbolStart c = true) (hrest : rest.all isSymbolPart = true)
    (h : ofRun (c :: rest) = .symbol name) : isName name.toList = true := by
  have hname (hliteral : isLiteral (c :: rest) = false) : isName (c :: rest) = true := by
    rw [isName, hstart, hrest, hliteral]
    rfl
  unfold ofRun at h
  split at h
  · next d digits heq =>
    split at h
    · exact absurd h (ofDigits_ne_symbol _ _)
    · next hdigits =>
      obtain rfl := Token.symbol.inj h
      rw [String.toList_ofList, ← heq]
      refine hname ?_
      rw [heq]
      exact Bool.eq_false_iff.2 hdigits
  · next hrun =>
    obtain rfl := Token.symbol.inj h
    rw [String.toList_ofList]
    refine hname ?_
    unfold isLiteral
    split
    · next d digits heq => exact absurd heq (hrun d digits)
    · next heq =>
      obtain ⟨rfl, rfl⟩ := List.cons.inj heq
      rw [List.all_cons, isDigit_eq_false_of_isSymbolStart hstart, Bool.false_and]
    · rfl

/-- The symbols among the tokens have names of symbols. -/
theorem isName_of_scan {c : Char} {rest : List Char} {name : String}
    (h : (scan c rest).1 = .symbol name) : isName name.toList = true := by
  unfold scan at h
  split at h
  · cases h
  split at h
  · cases h
  split at h
  · cases h
  split at h
  · cases h
  split at h
  · exact absurd h (ofDigits_ne_symbol _ _)
  split at h
  · next hstart => exact isName_of_ofRun hstart (List.all_takeWhile) h
  · cases h

/-- The decimal digits of a number are digits, and stand for the number. -/
theorem exists_toDigits_eq (m : Nat) : ∃ d rest, Nat.toDigits 10 m = d :: rest ∧
    (d :: rest).all Char.isDigit = true ∧ Nat.ofDigitChars 10 (d :: rest) 0 = m := by
  obtain ⟨d, rest, hrun⟩ : ∃ d rest, Nat.toDigits 10 m = d :: rest :=
    List.exists_cons_of_ne_nil Nat.toDigits_ne_nil
  refine ⟨d, rest, hrun, ?_, ?_⟩
  · rw [← hrun, List.all_eq_true]
    intro c hc
    exact Nat.isDigit_of_mem_toDigits (by decide) (by decide) hc
  · rw [← hrun]
    exact Nat.ofDigitChars_toDigits (by decide) (by decide)

/-- A run of digits is one token. -/
theorem scan_of_isDigit {d : Char} {rest more : List Char}
    (h : (d :: rest).all Char.isDigit = true) (hmore : Separated more) :
    scan d (rest ++ more) = (ofDigits (d :: rest), rest) := by
  obtain ⟨hd, hrest⟩ := Bool.and_eq_true_iff.1 h
  rw [scan, if_neg (by rintro rfl; cases hd), if_neg (by rintro rfl; cases hd),
    if_neg (by rintro rfl; cases hd), if_neg (by rintro rfl; cases hd), if_pos hd]
  dsimp only
  rw [takeWhile_append_of_separated isSymbolPart_of_isDigit hrest hmore]

/-- A minus sign with a run of digits is one token. -/
theorem scan_minus {d : Char} {rest more : List Char} (h : (d :: rest).all Char.isDigit = true)
    (hmore : Separated more) :
    scan '-' ((d :: rest) ++ more) = (ofDigits ('-' :: d :: rest), d :: rest) := by
  have hpart : (d :: rest).all isSymbolPart = true :=
    List.all_eq_true.2 fun c hc => isSymbolPart_of_isDigit c (List.all_eq_true.1 h c hc)
  rw [scan, if_neg (by decide), if_neg (by decide), if_neg (by decide), if_neg (by decide),
    if_neg (by decide), if_pos (by decide)]
  dsimp only
  rw [takeWhile_append_of_separated (fun _ => id) hpart hmore, ofRun, if_pos h]

/-- The decimal notation of an integer is one token. -/
theorem scan_text (n : Int64) :
    ∃ c rest, (Integer.text n).toList = c :: rest ∧ isSymbolPart c = true ∧
      ∀ more, Separated more → scan c (rest ++ more) = (.int n, rest) := by
  have hword : Integer.ofInt? n.toInt = some n := Integer.ofInt?_toInt n
  cases hn : n.toInt with
  | ofNat m =>
    obtain ⟨d, rest, hrun, hall, hvalue⟩ := exists_toDigits_eq m
    have htext : (Integer.text n).toList = d :: rest := by
      rw [Integer.text, hn, ← hrun]
      exact Nat.toList_repr
    have hd : d.isDigit = true := (Bool.and_eq_true_iff.1 hall).1
    have hliteral : Integer.ofDigits? (d :: rest) = some n := by
      rw [Integer.ofDigits?.eq_def]
      split
      · next heq =>
        obtain ⟨rfl, -⟩ := List.cons.inj heq
        cases hd
      · rw [hvalue, ← hword, hn]
        rfl
    refine ⟨d, rest, htext, isSymbolPart_of_isDigit d hd, fun more hmore => ?_⟩
    rw [scan_of_isDigit hall hmore, ofDigits, hliteral]
  | negSucc m =>
    obtain ⟨d, rest, hrun, hall, hvalue⟩ := exists_toDigits_eq (m + 1)
    have htext : (Integer.text n).toList = '-' :: (d :: rest) := by
      rw [Integer.text, hn, ← hrun, ← Nat.toList_repr]
      exact String.toList_append
    have hliteral : Integer.ofDigits? ('-' :: d :: rest) = some n := by
      rw [Integer.ofDigits?, hvalue, ← hword, hn]
      rfl
    refine ⟨'-', d :: rest, htext, by decide, fun more hmore => ?_⟩
    rw [scan_minus hall hmore, ofDigits, hliteral]

end Token

namespace Atom

/-- The atom is one that can be read: no callable, and a symbol only if its name is one, and is not
that of the empty list. -/
def Readable : Atom → Prop
  | .symbol name => Token.isName name.toList = true ∧ name ≠ "NIL"
  | .callable _ => False
  | _ => True

instance decidableReadable : DecidablePred Readable
  | .nil => .isTrue trivial
  | .symbol name => inferInstanceAs (Decidable (Token.isName name.toList = true ∧ name ≠ "NIL"))
  | .int _ => .isTrue trivial
  | .callable _ => .isFalse id

/-- An atom that can be read is no callable. -/
theorem Readable.plain {a : Atom} (h : a.Readable) : a.Plain := by
  cases a with
  | callable c => exact h
  | _ => exact trivial

/-- The token that is written for an atom. -/
def token : Atom → Token
  | .int n => .int n
  | a => .symbol a.text

end Atom

namespace Sexp

mutual

/-- The characters of the printed form of a tree. -/
def chars : Sexp → List Char
  | .atom a => a.text.toList
  | .pair _ head tail => '(' :: (head.chars ++ tail.tailChars)

/-- The characters of what is printed after the head of a list. -/
def tailChars : Sexp → List Char
  | .nil => [')']
  | .atom a => ' ' :: '.' :: ' ' :: (a.text.toList ++ [')'])
  | .pair _ head tail => ' ' :: (head.chars ++ tail.tailChars)

end

mutual

/-- The tokens that are written for a tree. -/
def tokens : Sexp → List Token
  | .atom a => [a.token]
  | .pair _ head tail => .lparen :: (head.tokens ++ tail.tailTokens)

/-- The tokens that are written after the head of a list. -/
def tailTokens : Sexp → List Token
  | .nil => [.rparen]
  | .atom a => [.dot, a.token, .rparen]
  | .pair _ head tail => head.tokens ++ tail.tailTokens

end

/-- The characters of a printed form are appended to the text. -/
theorem toList_write (e : Sexp) (out : String) :
    (e.write out).toList = out.toList ++ e.chars ∧
      (e.writeTail out).toList = out.toList ++ e.tailChars := by
  induction e generalizing out with
  | atom a => cases a <;> simp [write, writeTail, chars, tailChars]
  | pair _ head tail ihHead ihTail =>
    simp only [write, writeTail, chars, tailChars, (ihHead _).1, (ihTail _).2]
    simp

end Sexp

namespace Lexeme

/-- The text is cut into these tokens, wherever it stands, unless it goes on with a character that
can belong to a symbol. -/
def Scans (text : List Char) (tokens : List Token) : Prop :=
  ∀ offset more, Separated more → ∃ ls offset', ls.map Lexeme.token = tokens ∧
    scanFrom offset (text ++ more) = ls ++ scanFrom offset' more

/-- A token comes before the tokens of the rest of a text. -/
theorem scanFrom_cons {c : Char} {rest more : List Char} {token : Token}
    (hblank : isBlank c = false) (hcomment : c ≠ ';')
    (hscan : Token.scan c (rest ++ more) = (token, rest)) (offset : Nat) :
    ∃ span, scanFrom offset (c :: (rest ++ more)) =
      ⟨token, span⟩ :: scanFrom (offset + utf8Length (c :: rest)) more := by
  refine ⟨⟨offset, offset + utf8Length (c :: rest)⟩, ?_⟩
  rw [scanFrom, if_neg (by rw [hblank]; exact Bool.noConfusion), if_neg hcomment, hscan]
  dsimp only
  rw [List.drop_left]

/-- A text is one token if it is scanned as such in front of every text that does not continue
it. -/
theorem scans_token {c : Char} {rest : List Char} {token : Token} (hpart : isSymbolPart c = true)
    (hscan : ∀ more, Separated more → Token.scan c (rest ++ more) = (token, rest)) :
    Scans (c :: rest) [token] := by
  intro offset more hmore
  obtain ⟨span, hspan⟩ := scanFrom_cons (isBlank_eq_false_of_isSymbolPart hpart)
    (ne_of_isSymbolPart hpart (by decide)) (hscan more hmore) offset
  exact ⟨[⟨token, span⟩], _, rfl, hspan⟩

/-- A character that is always a token of its own comes before the tokens of the rest. -/
theorem Scans.cons {c : Char} {token : Token} (hblank : isBlank c = false) (hcomment : c ≠ ';')
    (hscan : ∀ rest, Token.scan c rest = (token, [])) {text : List Char} {tokens : List Token}
    (h : Scans text tokens) : Scans (c :: text) (token :: tokens) := by
  intro offset more hmore
  have hfirst : Token.scan c ([] ++ (text ++ more)) = (token, []) := hscan (text ++ more)
  obtain ⟨span, hspan⟩ := scanFrom_cons hblank hcomment hfirst offset
  obtain ⟨ls, offset', hls, hrest⟩ := h (offset + utf8Length [c]) more hmore
  refine ⟨⟨token, span⟩ :: ls, offset', by rw [List.map_cons, hls], ?_⟩
  rw [List.cons_append, List.cons_append, ← hrest]
  exact hspan

/-- A blank in front of a text does not matter. -/
theorem Scans.blank {text : List Char} {tokens : List Token} (h : Scans text tokens) :
    Scans (' ' :: text) tokens := by
  intro offset more hmore
  obtain ⟨ls, offset', hls, hrest⟩ := h (offset + ' '.utf8Size) more hmore
  refine ⟨ls, offset', hls, ?_⟩
  rw [List.cons_append, scanFrom, if_pos (by decide), hrest]

/-- The tokens of two texts follow one another if the second one does not go on with the last token
of the first one. -/
theorem Scans.append {text text' : List Char} {tokens tokens' : List Token} (h : Scans text tokens)
    (h' : Scans text' tokens') (hsep : ∀ more, Separated (text' ++ more)) :
    Scans (text ++ text') (tokens ++ tokens') := by
  intro offset more hmore
  obtain ⟨ls, middle, hls, hfirst⟩ := h offset (text' ++ more) (hsep more)
  obtain ⟨ls', offset', hls', hsecond⟩ := h' middle more hmore
  refine ⟨ls ++ ls', offset', by rw [List.map_append, hls, hls'], ?_⟩
  rw [List.append_assoc, hfirst, hsecond, List.append_assoc]

/-- No text is cut into no tokens. -/
theorem scans_nil : Scans [] [] := fun offset _ _ => ⟨[], offset, rfl, rfl⟩

/-- A parenthesis that closes is a token of its own. -/
theorem scans_rparen : Scans [')'] [.rparen] :=
  scans_nil.cons (by decide) (by decide) fun _ => rfl

/-- The printed form of an atom that can be read is one token. -/
theorem scans_atom {a : Atom} (ha : a.Readable) : Scans a.text.toList [a.token] := by
  have hname (name : String) (h : Token.isName name.toList = true) :
      Scans name.toList [.symbol name] := by
    rcases hlist : name.toList with _ | ⟨c, rest⟩
    · rw [hlist] at h
      cases h
    · rw [hlist] at h
      have hpart : isSymbolPart c = true := by
        rw [Token.isName, Bool.and_eq_true, Bool.and_eq_true] at h
        rw [isSymbolPart, h.1.1, Bool.true_or, Bool.true_or]
      have hsymbol : String.ofList (c :: rest) = name := by rw [← hlist, String.ofList_toList]
      rw [← hsymbol]
      exact scans_token hpart fun more hmore => Token.scan_of_isName h hmore
  cases a with
  | nil => exact hname "NIL" (by decide)
  | symbol name => exact hname name ha.1
  | int n =>
    obtain ⟨c, rest, htext, hpart, hscan⟩ := Token.scan_text n
    rw [Atom.text, htext]
    exact scans_token hpart hscan
  | callable c => exact ha.elim

/-- What is printed after the head of a list does not go on with the last token of the head. -/
theorem separated_tailChars_append (e : Sexp) (more : List Char) :
    Separated (e.tailChars ++ more) := by
  have hblank : isSymbolPart ' ' = false := by decide
  cases e with
  | atom a =>
    cases a with
    | nil => exact (by decide : isSymbolPart ')' = false)
    | _ => exact hblank
  | pair _ head tail => exact hblank

/-- The printed form of a tree that can be read is cut into the tokens that were written. -/
theorem scans_chars {e : Sexp} (he : e.AllAtoms Atom.Readable) :
    Scans e.chars e.tokens ∧ Scans e.tailChars e.tailTokens := by
  induction e with
  | atom a =>
    refine ⟨scans_atom he, ?_⟩
    have hdotted : Scans (' ' :: '.' :: ' ' :: (a.text.toList ++ [')']))
        [.dot, a.token, .rparen] := by
      have hrparen : isSymbolPart ')' = false := by decide
      have hend := (scans_atom he).append scans_rparen fun _ => hrparen
      exact (hend.blank.cons (by decide) (by decide) fun _ => rfl).blank
    cases a with
    | nil => exact scans_rparen
    | _ => exact hdotted
  | pair _ head tail ihHead ihTail =>
    have hparts : Scans (head.chars ++ tail.tailChars) (head.tokens ++ tail.tailTokens) :=
      (ihHead he.1).1.append (ihTail he.2).2 (separated_tailChars_append tail)
    exact ⟨hparts.cons (by decide) (by decide) fun _ => rfl, hparts.blank⟩

/-- The tokens of the printed form of a tree that can be read are those that were written. -/
theorem tokens_scan_render {e : Sexp} (he : e.AllAtoms Atom.Readable) :
    (scan e.render).map Lexeme.token = e.tokens := by
  have htext : e.render.toList = e.chars := by
    rw [Sexp.render, (e.toList_write "").1]
    rfl
  obtain ⟨ls, offset, hls, hscan⟩ := (scans_chars he).1 0 [] trivial
  rw [List.append_nil] at hscan
  have hnone : scanFrom offset [] = [] := by rw [scanFrom]
  rw [scan, htext, hscan, hnone, List.append_nil, hls]

/-- The symbols among the tokens of a text have names of symbols. -/
theorem isName_of_mem_scanFrom {offset : Nat} {text : List Char} {l : Lexeme}
    (hl : l ∈ scanFrom offset text) {name : String} (hname : l.token = .symbol name) :
    Token.isName name.toList = true := by
  fun_induction scanFrom offset text with
  | case1 => cases hl
  | case2 offset c rest hblank ih => exact ih hl
  | case3 offset rest comment hblank ih => exact ih hl
  | case4 offset c rest hblank hcomment token more hscan stop ih =>
    rcases List.mem_cons.1 hl with rfl | hl
    · have hfirst : (Token.scan c rest).1 = .symbol name := by
        rw [hscan]
        exact hname
      exact Token.isName_of_scan hfirst
    · exact ih hl

end Lexeme

end Secd
