import Secd.Proofs.Datum.Denotation
import Secd.Proofs.Token.Slice

/-!
# The tokens of a datum

Every datum that the parser gives has been read from tokens that follow one another: its span goes
from the beginning of the first one to the end of the last one, and the tokens of its parts are
among them, in the same order. The tokens alone say what the datum denotes. So wherever the same
tokens stand, even in another text, a datum with the same tree is read from them.
-/

namespace Secd

namespace Datum

mutual

/-- The datum with its spans has been read from these tokens. -/
def Spells : Datum → List Lexeme → Prop
  | .int n span, ls => ls = [⟨.int n, span⟩]
  | .symbol name span, ls => ls = [⟨.symbol name, span⟩]
  | .quoted d span, ls => ∃ mark inner, ls = ⟨.quote, mark⟩ :: inner ∧
      span = ⟨mark.start, d.span.stop⟩ ∧ d.Spells inner
  | .list items span, ls => ∃ left inner right,
      ls = ⟨.lparen, left⟩ :: (inner ++ [⟨.rparen, right⟩]) ∧
        span = ⟨left.start, right.stop⟩ ∧ SpellsAll items inner
  | .dotted items tail span, ls => ∃ left inner dot last right,
      ls = ⟨.lparen, left⟩ :: (inner ++ ⟨.dot, dot⟩ :: (last ++ [⟨.rparen, right⟩])) ∧
        span = ⟨left.start, right.stop⟩ ∧ items ≠ [] ∧ SpellsAll items inner ∧ tail.Spells last

/-- The data have been read from these tokens, one after the other. -/
def SpellsAll : List Datum → List Lexeme → Prop
  | [], ls => ls = []
  | d :: ds, ls => ∃ first rest, ls = first ++ rest ∧ d.Spells first ∧ SpellsAll ds rest

end

/-- One more datum has been read from the tokens that follow. -/
theorem SpellsAll.concat {ds : List Datum} {d : Datum} {ls ls' : List Lexeme}
    (hds : SpellsAll ds ls) (hd : d.Spells ls') : SpellsAll (ds ++ [d]) (ls ++ ls') := by
  induction ds generalizing ls with
  | nil =>
    obtain rfl := hds
    exact ⟨ls', [], (List.append_nil _).symm, hd, rfl⟩
  | cons first ds ih =>
    obtain ⟨tokens, rest, rfl, hfirst, hrest⟩ := hds
    exact ⟨tokens, rest ++ ls', List.append_assoc _ _ _, hfirst, ih hrest⟩

/-- The same for data of which the last one has been read first. -/
theorem SpellsAll.reverse_cons {ds : List Datum} {d : Datum} {ls ls' : List Lexeme}
    (hds : SpellsAll ds.reverse ls) (hd : d.Spells ls') :
    SpellsAll (d :: ds).reverse (ls ++ ls') := by
  rw [List.reverse_cons]
  exact hds.concat hd

/-- The span of a datum goes from the beginning of its first token to the end of its last one. -/
theorem exists_span_of_spells {ls : List Lexeme} : (d : Datum) → d.Spells ls →
    ∃ l others, ls = l :: others ∧
      d.span = ⟨l.span.start, Lexeme.stopOf l.span.stop others⟩
  | .int n span, h => ⟨⟨.int n, span⟩, [], h, rfl⟩
  | .symbol name span, h => ⟨⟨.symbol name, span⟩, [], h, rfl⟩
  | .quoted d span, h => by
    obtain ⟨mark, inner, rfl, rfl, hinner⟩ := h
    obtain ⟨l, others, rfl, hspan⟩ := exists_span_of_spells d hinner
    refine ⟨_, _, rfl, ?_⟩
    rw [span, hspan]
    rfl
  | .list items span, h => by
    obtain ⟨left, inner, right, rfl, rfl, -⟩ := h
    refine ⟨_, _, rfl, ?_⟩
    rw [Lexeme.stopOf_append]
    rfl
  | .dotted items tail span, h => by
    obtain ⟨left, inner, dot, last, right, rfl, rfl, -⟩ := h
    refine ⟨_, _, rfl, ?_⟩
    rw [Lexeme.stopOf_append, Lexeme.stopOf, Lexeme.stopOf_append]
    rfl

end Datum

/-! ### What the parser has read -/

/-- The construct has been begun with these tokens. -/
def Construct.Spells : Construct → List Lexeme → Prop
  | .quoted start, ls => ∃ mark, ls = [⟨.quote, mark⟩] ∧ start = mark.start
  | .list start items, ls => ∃ left inner, ls = ⟨.lparen, left⟩ :: inner ∧ start = left.start ∧
      Datum.SpellsAll items.reverse inner
  | .dotted start items, ls => ∃ left inner dot,
      ls = ⟨.lparen, left⟩ :: (inner ++ [⟨.dot, dot⟩]) ∧ start = left.start ∧ items ≠ [] ∧
        Datum.SpellsAll items.reverse inner

namespace ParserState

/-- The complete data and the open constructs, from the outermost one to the innermost, have been
read from these tokens. -/
def SpellsOpen (complete : List Datum) : List Construct → List Lexeme → Prop
  | [], ls => Datum.SpellsAll complete.reverse ls
  | c :: outer, ls => ∃ before own, ls = before ++ own ∧ SpellsOpen complete outer before ∧
      c.Spells own

/-- All that the parser knows has been read from these tokens. -/
def Spells : ParserState → List Lexeme → Prop
  | .ready complete pending, ls => SpellsOpen complete pending ls
  | .closing complete start items tail outer, ls => ∃ before last, ls = before ++ last ∧
      SpellsOpen complete (.dotted start items :: outer) before ∧ tail.Spells last

/-- A datum has been read from the tokens that follow. -/
theorem spells_supply {complete : List Datum} {d : Datum} {pending : List Construct}
    {before last : List Lexeme} (hbefore : SpellsOpen complete pending before)
    (hd : d.Spells last) : (supply complete d pending).Spells (before ++ last) := by
  induction pending generalizing d before last with
  | nil => exact Datum.SpellsAll.reverse_cons hbefore hd
  | cons c outer ih =>
    cases c with
    | quoted start =>
      obtain ⟨before, own, rfl, houter, mark, rfl, rfl⟩ := hbefore
      rw [List.append_assoc]
      exact ih houter (d := .quoted d _) ⟨mark, last, rfl, rfl, hd⟩
    | list start items =>
      obtain ⟨before, own, rfl, houter, left, inner, rfl, rfl, hitems⟩ := hbefore
      rw [List.append_assoc]
      exact ⟨before, _, rfl, houter, left, inner ++ last, rfl, rfl, hitems.reverse_cons hd⟩
    | dotted start items => exact ⟨before, last, rfl, hbefore, hd⟩

/-- One more token has been read. -/
theorem spells_of_step? {state next : ParserState} {l : Lexeme} {ls : List Lexeme}
    (h : state.Spells ls) (hstep : state.step? l = some next) : next.Spells (ls ++ [l]) := by
  obtain ⟨token, span⟩ := l
  cases state with
  | ready complete pending =>
    cases token with
    | int n =>
      cases hstep
      exact spells_supply h (d := .int n span) rfl
    | symbol name =>
      cases hstep
      exact spells_supply h (d := .symbol name span) rfl
    | quote =>
      cases hstep
      exact ⟨ls, _, rfl, h, span, rfl, rfl⟩
    | lparen =>
      cases hstep
      exact ⟨ls, _, rfl, h, span, [], rfl, rfl, rfl⟩
    | rparen =>
      -- only an open list may be closed
      rcases pending with _ | ⟨_ | ⟨start, items⟩ | _, outer⟩ <;> try cases hstep
      obtain ⟨before, own, rfl, houter, left, inner, rfl, rfl, hitems⟩ := h
      rw [List.append_assoc]
      exact spells_supply houter (d := .list _ _) ⟨left, inner, span, rfl, rfl, hitems⟩
    | dot =>
      -- a dot stands after an item of an open list
      rcases pending with _ | ⟨_ | ⟨start, _ | ⟨item, items⟩⟩ | _, outer⟩ <;> try cases hstep
      obtain ⟨before, own, rfl, houter, left, inner, rfl, rfl, hitems⟩ := h
      rw [List.append_assoc]
      exact ⟨before, _, rfl, houter, left, inner, span, rfl, rfl, List.cons_ne_nil _ _, hitems⟩
    | _ => cases hstep
  | closing complete start items tail outer =>
    cases token with
    | rparen =>
      cases hstep
      obtain ⟨-, last, rfl, ⟨before, own, rfl, houter, left, inner, dot, rfl, rfl, hne, hitems⟩,
        htail⟩ := h
      have hsome : items.reverse ≠ [] := fun h => hne (List.reverse_eq_nil_iff.1 h)
      have hlist : (Datum.dotted items.reverse tail ⟨left.start, span.stop⟩).Spells
          (⟨.lparen, left⟩ :: (inner ++ ⟨.dot, dot⟩ :: (last ++ [⟨.rparen, span⟩]))) :=
        ⟨left, inner, dot, last, span, rfl, rfl, hsome, hitems, htail⟩
      have hread := spells_supply houter hlist
      simpa using hread
    | _ => cases hstep

end ParserState

namespace Datum

/-- The data that the parser gives have been read from all tokens. -/
theorem spellsAll_of_parseFrom {state : ParserState} {before ls : List Lexeme} {data : List Datum}
    (hstate : state.Spells before) (hparse : parseFrom state ls = .ok data) :
    SpellsAll data (before ++ ls) := by
  induction ls generalizing state before with
  | nil =>
    obtain rfl := eq_ready_of_parseFrom_nil hparse
    rw [← List.reverse_reverse data, List.append_nil]
    exact hstate
  | cons l rest ih =>
    rw [parseFrom_cons] at hparse
    split at hparse
    · next hstep =>
      have hread := ih (ParserState.spells_of_step? hstate hstep) hparse
      rwa [List.append_assoc, List.singleton_append] at hread
    · cases hparse

/-- The data of a sequence of tokens have been read from these tokens. -/
theorem spellsAll_of_parse {ls : List Lexeme} {data : List Datum} (hparse : parse ls = .ok data) :
    SpellsAll data ls := by
  have hstart : ParserState.start.Spells [] := rfl
  exact spellsAll_of_parseFrom hstart hparse

/-- The tokens of each datum are among those of all data. -/
theorem exists_infix_of_spellsAll {ds : List Datum} {ls : List Lexeme} (h : SpellsAll ds ls)
    {d : Datum} (hd : d ∈ ds) : ∃ own, own <:+: ls ∧ d.Spells own := by
  induction ds generalizing ls with
  | nil => cases hd
  | cons first ds ih =>
    obtain ⟨tokens, rest, rfl, hfirst, hrest⟩ := h
    rcases List.mem_cons.1 hd with rfl | hd
    · exact ⟨tokens, (List.prefix_append _ _).isInfix, hfirst⟩
    · obtain ⟨own, hown, hspells⟩ := ih hrest hd
      exact ⟨own, hown.trans (List.suffix_append _ _).isInfix, hspells⟩

/-! ### The same tokens again -/

open ParserState

/-- The only token of an atom, wherever it stands, is a datum that denotes the atom. -/
theorem written_singleton {l : Lexeme} {ls : List Lexeme} {e : Sexp} (d : Span → Datum)
    (htree : ∀ span, (d span).tree = e)
    (hstep : ∀ span complete pending, step? (.ready complete pending) ⟨l.token, span⟩ =
      some (supply complete (d span) pending))
    (hls : ls.map Lexeme.token = [l].map Lexeme.token) : Written ls e := by
  obtain ⟨⟨token, span⟩, rfl, hl⟩ := List.map_eq_singleton_iff.1 hls
  obtain rfl : token = l.token := hl
  refine ⟨d span, ?_, fun complete pending rest => ?_⟩
  · rw [htree]
    exact e.same_refl
  · rw [List.singleton_append, parseFrom_cons, hstep]

/-- A quote and the tokens of a datum are a datum that denotes the quoted one. -/
theorem Written.quoted {mark : Lexeme} {ls : List Lexeme} {d : Datum} {span : Span}
    (hmark : mark.token = .quote) (hd : Written ls d.tree) :
    Written (mark :: ls) (Datum.quoted d span).tree := by
  obtain ⟨d', hsame, hparse⟩ := hd
  obtain ⟨token, start⟩ := mark
  obtain rfl : token = .quote := hmark
  refine ⟨.quoted d' ⟨start.start, d'.span.stop⟩, ?_, fun complete pending rest => ?_⟩
  · simp only [tree, Sexp.same, hsame, Atom.same_refl, Bool.true_and]
  · rw [List.cons_append, parseFrom_cons]
    exact hparse complete (.quoted start.start :: pending) rest

/-- Parentheses around nothing are a datum that denotes the empty list. -/
theorem written_nil {lparen rparen : Lexeme} (hlparen : lparen.token = .lparen)
    (hrparen : rparen.token = .rparen) : Written [lparen, rparen] .nil := by
  obtain ⟨token, span⟩ := lparen
  obtain rfl : token = .lparen := hlparen
  obtain ⟨token, span'⟩ := rparen
  obtain rfl : token = .rparen := hrparen
  refine ⟨.list [] ⟨span.start, span'.stop⟩, Sexp.same_refl _, fun complete pending rest => ?_⟩
  rw [List.cons_append, parseFrom_cons]
  exact parseFrom_cons _ _ _

mutual

/-- The tokens from which a datum has been read are those of a datum with the same tree, wherever
they stand. -/
theorem written_of_spells {ls ls' : List Lexeme} : (d : Datum) → d.Spells ls →
    ls'.map Lexeme.token = ls.map Lexeme.token → Written ls' d.tree
  | .int n span, h, hls => by
    obtain rfl := h
    exact written_singleton (fun span => .int n span) (fun _ => rfl) (fun _ _ _ => rfl) hls
  | .symbol name span, h, hls => by
    obtain rfl := h
    exact written_singleton (fun span => .symbol name span) (fun _ => rfl) (fun _ _ _ => rfl) hls
  | .quoted d span, h, hls => by
    obtain ⟨mark, inner, rfl, -, hinner⟩ := h
    obtain ⟨mark', inner', rfl, hmark, hls⟩ := List.map_eq_cons_iff.1 hls
    exact (written_of_spells d hinner hls).quoted hmark
  | .list [] span, h, hls => by
    obtain ⟨left, inner, right, rfl, -, rfl⟩ := h
    obtain ⟨lparen, ls', rfl, hlparen, hls⟩ := List.map_eq_cons_iff.1 hls
    obtain ⟨rparen, rfl, hrparen⟩ := List.map_eq_singleton_iff.1 hls
    exact written_nil hlparen hrparen
  | .list (d :: ds) span, h, hls => by
    obtain ⟨left, inner, right, rfl, -, first, rest, rfl, hfirst, hrest⟩ := h
    obtain ⟨lparen, ls', rfl, hlparen, hls⟩ := List.map_eq_cons_iff.1 hls
    rw [List.append_assoc, List.map_append, List.map_append] at hls
    obtain ⟨first', others, rfl, hfirst', hothers⟩ := List.map_eq_append_iff.1 hls
    obtain ⟨rest', close, rfl, hrest', hclose⟩ := List.map_eq_append_iff.1 hothers
    obtain ⟨rparen, rfl, hrparen⟩ := List.map_eq_singleton_iff.1 hclose
    have hend := completes_of_spellsAll (completes_nil hrparen) ds hrest hrest'
    exact .list hlparen (written_of_spells d hfirst hfirst') hend
  | .dotted [] tail span, h, hls => by
    obtain ⟨left, inner, dot, last, right, rfl, -, hne, -⟩ := h
    exact absurd rfl hne
  | .dotted (d :: ds) tail span, h, hls => by
    obtain ⟨left, inner, dot, last, right, rfl, -, -, ⟨first, rest, rfl, hfirst, hrest⟩, htail⟩ := h
    obtain ⟨lparen, ls', rfl, hlparen, hls⟩ := List.map_eq_cons_iff.1 hls
    rw [List.append_assoc, List.map_append, List.map_append] at hls
    obtain ⟨first', others, rfl, hfirst', hothers⟩ := List.map_eq_append_iff.1 hls
    obtain ⟨rest', close, rfl, hrest', hclose⟩ := List.map_eq_append_iff.1 hothers
    obtain ⟨dot', close, rfl, hdot, hclose⟩ := List.map_eq_cons_iff.1 hclose
    rw [List.map_append] at hclose
    obtain ⟨last', close, rfl, hlast, hclose⟩ := List.map_eq_append_iff.1 hclose
    obtain ⟨rparen, rfl, hrparen⟩ := List.map_eq_singleton_iff.1 hclose
    have hdotted := completes_dotted hdot hrparen (written_of_spells tail htail hlast)
    have hend := completes_of_spellsAll hdotted ds hrest hrest'
    exact .list hlparen (written_of_spells d hfirst hfirst') hend

/-- The tokens from which data have been read are those of further items of a list. -/
theorem completes_of_spellsAll {ls ls' close : List Lexeme} {tail : Sexp}
    (hclose : Completes close tail) : (ds : List Datum) → SpellsAll ds ls →
    ls'.map Lexeme.token = ls.map Lexeme.token → Completes (ls' ++ close) (treeOf ds tail)
  | [], h, hls => by
    obtain rfl := h
    obtain rfl := List.map_eq_nil_iff.1 hls
    exact hclose
  | d :: ds, h, hls => by
    obtain ⟨first, rest, rfl, hfirst, hrest⟩ := h
    rw [List.map_append] at hls
    obtain ⟨first', rest', rfl, hfirst', hrest'⟩ := List.map_eq_append_iff.1 hls
    rw [List.append_assoc]
    have hothers := completes_of_spellsAll hclose ds hrest hrest'
    exact (written_of_spells d hfirst hfirst').completes hothers

end

end Datum

end Secd
