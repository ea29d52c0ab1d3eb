import Secd.Proofs.Datum.Viability
import Secd.Proofs.Diagnostic.Rendering
import Secd.Proofs.Reader.RoundTrip
import Secd.Proofs.Token.Partition
import Secd.Session.Dialogue

/-!
# Lines that are still to be completed

A dialogue waits for more lines while more parentheses have been opened than closed, and counts them
in the characters that have been typed. The count is that of the tokens: no parenthesis outside
comments belongs to a longer token, and comments end for the dialogue where they end for the lexer.
The parser has as many lists open as the tokens have parentheses to be closed. So a dialogue never
waits with a text that can be read, and it always waits with one that ends within a list.
-/

namespace Secd

/-! ### Parentheses among the tokens -/

/-- By how much a token changes the number of open lists. -/
def Token.nesting : Token → Int
  | .lparen => 1
  | .rparen => -1
  | _ => 0

/-- How many more parentheses tokens open than they close. -/
def Token.nestingOf (ts : List Token) : Int := (ts.count .lparen : Int) - ts.count .rparen

/-- This is the sum of what each token counts. -/
theorem Token.nestingOf_cons (t : Token) (ts : List Token) :
    nestingOf (t :: ts) = t.nesting + nestingOf ts := by
  rw [nestingOf, nestingOf, List.count_cons, List.count_cons]
  cases t <;> simp [nesting] <;> omega

namespace Dialogue

open Token Lexeme

/-! ### Parentheses among the characters -/

/-- A comment does not count, up to the end of its line. -/
theorem balanceFrom_true {text rest : List Char} (htext : '\n' ∉ text)
    (hend : ∀ c ∈ rest.head?, c = '\n') :
    balanceFrom true (text ++ rest) = balanceFrom false rest := by
  induction text with
  | nil =>
    cases rest with
    | nil => rfl
    | cons c rest =>
      obtain rfl := hend c rfl
      rfl
  | cons c text ih =>
    obtain ⟨hc, htext⟩ := not_or.1 (mt List.mem_cons.2 htext)
    rw [List.cons_append, balanceFrom.eq_3 _ _ _ (Ne.symm hc), if_pos rfl]
    exact ih htext

/-- A character that is no parenthesis and begins no comment does not count. -/
theorem balanceFrom_cons {c : Char} (hcomment : c ≠ ';') (hlparen : c ≠ '(') (hrparen : c ≠ ')')
    (rest : List Char) : balanceFrom false (c :: rest) = balanceFrom false rest := by
  by_cases hc : c = '\n'
  · subst hc
    rfl
  · rw [balanceFrom.eq_3 _ _ _ hc, if_neg Bool.noConfusion, if_neg hcomment, if_neg hlparen,
      if_neg hrparen]

/-- What is skipped between tokens does not count. -/
theorem balanceFrom_skipped {rest gap : List Char} (h : Skipped rest gap) :
    balanceFrom false (gap ++ rest) = balanceFrom false rest := by
  induction h with
  | nil => rfl
  | @blank c gap hblank _ ih =>
    have hne {d : Char} (hd : isBlank d = false) : c ≠ d := by
      rintro rfl
      rw [hd] at hblank
      cases hblank
    rw [List.cons_append, balanceFrom_cons (hne (by decide)) (hne (by decide)) (hne (by decide)),
      ih]
  | @comment text gap htext hend _ ih =>
    rw [List.cons_append, List.append_assoc]
    exact (balanceFrom_true htext hend).trans ih

/-- Characters that can belong to symbols do not count. -/
theorem balanceFrom_word {word : List Char} (hword : word.all isSymbolPart = true)
    (rest : List Char) : balanceFrom false (word ++ rest) = balanceFrom false rest := by
  induction word with
  | nil => rfl
  | cons c word ih =>
    obtain ⟨hc, hword⟩ := Bool.and_eq_true_iff.1 hword
    have hne {d : Char} (hd : isSymbolPart d = false) : c ≠ d := ne_of_isSymbolPart hc hd
    rw [List.cons_append, balanceFrom_cons (hne (by decide)) (hne (by decide)) (hne (by decide)),
      ih hword]

/-- A token counts by its nesting. -/
theorem balanceFrom_cuts {t : Token} {word rest : List Char} (h : Cuts t word rest) :
    balanceFrom false (word ++ rest) = t.nesting + balanceFrom false rest := by
  cases h with
  | longest hlongest hreads =>
    have hother (hword : word.all isSymbolPart = true) :
        balanceFrom false (word ++ rest) = 0 + balanceFrom false rest := by
      rw [Int.zero_add, balanceFrom_word hword]
    cases t with
    | lparen =>
      obtain rfl := hreads
      exact Int.add_comm _ _
    | rparen =>
      obtain rfl := hreads
      exact Int.add_comm _ _
    | dot =>
      obtain rfl := hreads
      exact (Int.zero_add _).symm
    | quote =>
      obtain rfl := hreads
      exact (Int.zero_add _).symm
    | int n => exact hother (all_isSymbolPart_of_isLiteral hreads.1)
    | symbol name => exact hother (all_isSymbolPart_of_isRun hreads.1)
    | outOfRange digits => exact hother (all_isSymbolPart_of_isLiteral hreads.1)
    | invalid c => exact hreads.elim
  | @invalid c _ hblank hcomment hnone =>
    have hne {d : Char} (hd : isPattern [d] = true) : c ≠ d := by
      rintro rfl
      rw [hnone [c] (List.prefix_append [c] rest)] at hd
      cases hd
    rw [List.singleton_append, balanceFrom_cons hcomment (hne (by decide)) (hne (by decide))]
    exact (Int.zero_add _).symm

/-- The parentheses of a text are those of its tokens. -/
theorem balanceFrom_partition {offset : Nat} {text : List Char} {ls : List Lexeme}
    (h : Partition offset text ls) :
    balanceFrom false text = nestingOf (ls.map Lexeme.token) := by
  induction h with
  | @nil _ gap hgap =>
    have hskipped := balanceFrom_skipped hgap
    rwa [List.append_nil] at hskipped
  | cons hgap hword _ _ _ ih =>
    rw [balanceFrom_skipped hgap, balanceFrom_cuts hword, ih, List.map_cons, nestingOf_cons]

/-- A dialogue waits for more lines exactly if the tokens leave lists open. -/
theorem needsMoreLines_iff_nesting {text : String} :
    needsMoreLines text = true ↔ 0 < nestingOf ((scan text).map Lexeme.token) := by
  rw [needsMoreLines, decide_eq_true_iff, balanceFrom_partition (partition_iff.2 rfl)]
  exact Iff.rfl

end Dialogue

/-! ### Open lists -/

/-- Whether the construct is a list. -/
def Construct.isList : Construct → Bool
  | .quoted _ => false
  | .list _ _ | .dotted _ _ => true

namespace ParserState

/-- The number of lists that have been begun and are still to be closed. -/
def openLists : ParserState → Nat
  | .ready _ pending => pending.countP Construct.isList
  | .closing _ _ _ _ outer => outer.countP Construct.isList + 1

/-- A datum closes no list. -/
theorem openLists_supply (complete : List Datum) (d : Datum) (pending : List Construct) :
    (supply complete d pending).openLists = pending.countP Construct.isList := by
  induction pending generalizing d with
  | nil => rfl
  | cons c outer ih =>
    cases c with
    | quoted start =>
      rw [List.countP_cons_of_neg Bool.false_ne_true]
      exact ih _
    | list start items => rfl
    | dotted start items =>
      rw [List.countP_cons_of_pos rfl]
      rfl

/-- A token changes the number of open lists by its nesting. -/
theorem openLists_of_step? {state next : ParserState} {l : Lexeme}
    (hstep : state.step? l = some next) :
    (next.openLists : Int) = state.openLists + l.token.nesting := by
  obtain ⟨token, span⟩ := l
  cases state with
  | ready complete pending =>
    cases token with
    | int n =>
      cases hstep
      rw [openLists_supply]
      exact (Int.add_zero _).symm
    | symbol name =>
      cases hstep
      rw [openLists_supply]
      exact (Int.add_zero _).symm
    | quote =>
      cases hstep
      simp only [openLists, List.countP_cons, Construct.isList, Token.nesting, Bool.false_eq_true,
        reduceIte]
      omega
    | lparen =>
      cases hstep
      simp only [openLists, List.countP_cons, Construct.isList, Token.nesting, reduceIte]
      omega
    | rparen =>
      -- only an open list may be closed
      rcases pending with _ | ⟨_ | ⟨start, items⟩ | _, outer⟩ <;> try cases hstep
      rw [openLists_supply]
      simp only [openLists, List.countP_cons, Construct.isList, Token.nesting, reduceIte]
      omega
    | dot =>
      -- a dot stands after an item of an open list
      rcases pending with _ | ⟨_ | ⟨start, _ | ⟨item, items⟩⟩ | _, outer⟩ <;> try cases hstep
      exact (Int.add_zero _).symm
    | _ => cases hstep
  | closing complete start items tail outer =>
    cases token with
    | rparen =>
      cases hstep
      rw [openLists_supply]
      simp only [openLists, Token.nesting]
      omega
    | _ => cases hstep

/-- Tokens change the number of open lists by their nesting. -/
theorem openLists_of_after? {state next : ParserState} {ls : List Lexeme}
    (hafter : state.after? ls = some next) :
    (next.openLists : Int) = state.openLists + Token.nestingOf (ls.map Lexeme.token) := by
  induction ls generalizing state with
  | nil =>
    obtain rfl := Option.some.inj hafter
    exact (Int.add_zero _).symm
  | cons l rest ih =>
    obtain ⟨middle, hstep, hrest⟩ := Option.bind_eq_some_iff.1 hafter
    rw [ih hrest, openLists_of_step? hstep, List.map_cons, Token.nestingOf_cons, Int.add_assoc]

end ParserState

namespace Dialogue

open ParserState

/-- If the tokens of a text lead to a state, a dialogue waits for more lines exactly if a list is
open in this state. -/
theorem needsMoreLines_iff_openLists {text : String} {state : ParserState}
    (h : ParserState.start.after? (Lexeme.scan text) = some state) :
    needsMoreLines text = true ↔ 0 < state.openLists := by
  have hopen := openLists_of_after? h
  have hnone : ParserState.start.openLists = 0 := rfl
  rw [needsMoreLines_iff_nesting]
  omega

/-- The tokens of a text that is cut short lead to a state. -/
theorem exists_after?_of_cutShort {text : String} (h : Reader.CutShort text) :
    ∃ state, ParserState.start.after? (Lexeme.scan text) = some state := by
  obtain ⟨-, fault, hparse, hfound⟩ := h
  obtain ⟨before, after, state, hscan, hafter, rfl, -, -⟩ :=
    Datum.exists_of_parseFrom_eq_error hparse
  cases after with
  | nil =>
    rw [hscan, List.append_nil]
    exact ⟨state, hafter⟩
  | cons l after => cases hfound

/-- A dialogue waits for more lines exactly if there are more parentheses that open among the tokens
of the text than parentheses that close. So it does not wait if the text can be read; and if it
cannot be read because it ends too early, the dialogue waits exactly if a list is open there. -/
theorem needsMoreLines_iff (text : String) :
    (needsMoreLines text = true ↔
      ((Lexeme.scan text).map Lexeme.token).count .rparen <
        ((Lexeme.scan text).map Lexeme.token).count .lparen) ∧
    (∀ s s' rs, Reader.readAll text s = (.ok rs, s') → needsMoreLines text = false) ∧
    (Reader.CutShort text → ∃ state, ParserState.start.after? (Lexeme.scan text) = some state ∧
      (needsMoreLines text = true ↔ 0 < state.openLists)) := by
  refine ⟨?_, fun s s' rs hread => ?_, fun hcut => ?_⟩
  · rw [needsMoreLines_iff_nesting, Token.nestingOf]
    omega
  · obtain ⟨data, hparse⟩ : ∃ data, Reader.parse text = .ok data := by
      rw [Reader.readAll] at hread
      split at hread
      · next data hparse => exact ⟨data, hparse⟩
      · cases (Prod.mk.inj hread).1
    have hafter := Datum.parseFrom_eq_ok_iff.1 (Reader.parse_scan_of_parse hparse).2
    rw [Bool.eq_false_iff]
    intro hneeds
    exact Nat.lt_irrefl 0 ((needsMoreLines_iff_openLists hafter).1 hneeds)
  · obtain ⟨state, hafter⟩ := exists_after?_of_cutShort hcut
    exact ⟨state, hafter, needsMoreLines_iff_openLists hafter⟩

/-- The theorem at a list with a parenthesis in a comment: a dialogue waits while a quote may still
get its datum, and no longer when the list has been closed. -/
theorem needsMoreLines_iff_comment :
    Reader.CutShort "(a ; )\n '" ∧ needsMoreLines "(a ; )\n '" = true ∧
      (∃ rs s, Reader.readAll "(a ; )\n )" .empty = (.ok rs, s)) ∧
      needsMoreLines "(a ; )\n )" = false := by
  have hscan : Lexeme.scan "(a ; )\n '" =
      [⟨.lparen, ⟨0, 1⟩⟩, ⟨.symbol "a", ⟨1, 2⟩⟩, ⟨.quote, ⟨8, 9⟩⟩] := by decide +kernel
  have hscan' : Lexeme.scan "(a ; )\n )" =
      [⟨.lparen, ⟨0, 1⟩⟩, ⟨.symbol "a", ⟨1, 2⟩⟩, ⟨.rparen, ⟨8, 9⟩⟩] := by decide +kernel
  have hcut : Reader.CutShort "(a ; )\n '" := by
    rw [Reader.CutShort, hscan]
    exact ⟨rfl, _, rfl, rfl⟩
  obtain ⟨rs, s, hread⟩ : ∃ rs s, Reader.readAll "(a ; )\n )" .empty = (.ok rs, s) := by
    rw [Reader.readAll, Reader.parse, hscan']
    exact ⟨_, _, rfl⟩
  obtain ⟨state, hafter, hneeds⟩ := (needsMoreLines_iff _).2.2 hcut
  rw [hscan] at hafter
  obtain rfl := Option.some.inj hafter
  exact ⟨hcut, hneeds.2 (by decide), ⟨rs, s, hread⟩, (needsMoreLines_iff _).2.1 _ _ _ hread⟩

end Dialogue

end Secd
