import Secd.Proofs.Datum.Charted
import Secd.Proofs.Datum.Spelling
import Secd.Proofs.Reader.RoundTrip

/-!
# Reading a part of a text again

The source map says for every cell where the datum in its head was written. If just this part of the
text is read, the same value is got again. So a message that points at a span points at text that
stands for the value that it is about. The cells that hold the symbol of a quoted datum are an
exception: their span is that of the quote mark.
-/

namespace Secd

namespace Reader

open Datum

variable {source : String}

/-- What the span covers is a single datum that denotes the tree. -/
def Denotes (source : String) (span : Span) (e : Sexp) : Prop :=
  ∃ text d, span.slice? source = some text ∧ parseOne text = .ok d ∧ d.tree.same e = true

/-- The span is within the text and covers a quote mark, which stands for the symbol of a quoted
datum, or a single datum that denotes the tree. -/
def Legible (source : String) (span : Span) (e : Sexp) : Prop :=
  span.Within source ∧
    (span.slice? source = some "'" ∧ e = .symbol "QUOTE" ∨ Denotes source span e)

/-! ### The spans of a datum -/

/-- What is at a quote is the quote mark. -/
theorem legible_of_quote {mark : Span} {ls : List Lexeme}
    (hls : ⟨.quote, mark⟩ :: ls <:+: Lexeme.scan source) {offset : Nat}
    (hlaid : Lexeme.LaidOut source offset (⟨.quote, mark⟩ :: ls)) :
    Legible source ⟨mark.start, mark.start + 1⟩ (.symbol "QUOTE") := by
  have hfirst : [⟨.quote, mark⟩] <:+: Lexeme.scan source :=
    List.IsInfix.trans (List.prefix_append [_] ls).isInfix hls
  obtain ⟨text, hslice, hlength, htokens⟩ := Lexeme.exists_slice? hfirst
  cases hlaid with
  | cons hle hproper hrest =>
    have hstop : mark.stop = mark.start + 1 := hproper.quote_stop rfl
    have hbytes : mark.start + utf8Length text.toList = mark.stop := hlength
    have hone : utf8Length text.toList = 1 := by omega
    rw [← hstop]
    rw [Lexeme.eq_quote_of_scan hone htokens] at hslice
    exact ⟨hproper.within, .inl ⟨hslice, rfl⟩⟩

/-- A datum stands after the tokens before it, and ends with its last token. -/
theorem span_of_spells {d : Datum} {ls : List Lexeme} (hd : d.Spells ls) {offset : Nat}
    (hlaid : Lexeme.LaidOut source offset ls) :
    offset ≤ d.span.start ∧ d.span.start ≤ d.span.stop ∧ d.span.stop = Lexeme.stopOf offset ls := by
  obtain ⟨l, others, rfl, hspan⟩ := d.exists_span_of_spells hd
  have hwithin := hlaid.within
  rw [hspan]
  cases hlaid with
  | cons hle hproper hrest => exact ⟨hle, hwithin.start_le_stop, rfl⟩

section

variable (hfaults : ∀ l ∈ Lexeme.scan source, l.token.isFault = false)

include hfaults

/-- The span of a datum is within the text, and covers a datum with the same tree. -/
theorem denotes_of_spells {d : Datum} {ls : List Lexeme} (hd : d.Spells ls)
    (hls : ls <:+: Lexeme.scan source) : d.span.Within source ∧ Denotes source d.span d.tree := by
  obtain ⟨offset, hlaid⟩ := Lexeme.exists_laidOut_of_infix hls
  obtain ⟨l, others, rfl, hspan⟩ := d.exists_span_of_spells hd
  obtain ⟨text, hslice, -, htokens⟩ := Lexeme.exists_slice? hls
  -- the part has the tokens of the datum, and none of these is faulty
  have hslicefaults : ∀ l' ∈ Lexeme.scan text, l'.token.isFault = false := by
    intro l' hl'
    have hmem : l'.token ∈ (l :: others).map Lexeme.token := by
      rw [← htokens]
      exact List.mem_map_of_mem hl'
    obtain ⟨l'', hl'', htoken⟩ := List.mem_map.1 hmem
    rw [← htoken]
    exact hfaults l'' (hls.subset hl'')
  obtain ⟨d', hparse, hsame⟩ :=
    exists_parseOne_of_written (d.written_of_spells hd htokens) hslicefaults
  rw [hspan]
  exact ⟨hlaid.within, text, d', hslice, hparse, hsame⟩

/-- A datum is legible at its span. -/
theorem legible_of_spells {d : Datum} {ls : List Lexeme} (hd : d.Spells ls)
    (hls : ls <:+: Lexeme.scan source) : Legible source d.span d.tree := by
  obtain ⟨hwithin, hdenotes⟩ := denotes_of_spells hfaults hd hls
  exact ⟨hwithin, .inr hdenotes⟩

mutual

/-- The parts of a datum are arranged in the order of their tokens. -/
theorem arranged_of_spells {ls : List Lexeme} {offset : Nat} : (d : Datum) → d.Spells ls →
    ls <:+: Lexeme.scan source → Lexeme.LaidOut source offset ls → d.Arranged (Legible source)
  | .int _ _, _, _, _ => trivial
  | .symbol _ _, _, _, _ => trivial
  | .quoted d span, hd, hls, hlaid => by
    obtain ⟨mark, inner, rfl, rfl, hinner⟩ := hd
    have hmark := legible_of_quote hls hlaid
    have hinside : inner <:+: Lexeme.scan source :=
      (List.suffix_cons _ inner).isInfix.trans hls
    cases hlaid with
    | cons hle hproper hrest =>
      have hstop : mark.stop = mark.start + 1 := hproper.quote_stop rfl
      obtain ⟨hstart, hspan, -⟩ := span_of_spells hinner hrest
      exact ⟨hmark, hstop.symm.trans_le hstart, hspan, Nat.le_refl _,
        legible_of_spells hfaults hinner hinside, arranged_of_spells d hinner hinside hrest⟩
  | .list items span, hd, hls, hlaid => by
    obtain ⟨left, inner, right, rfl, rfl, hinner⟩ := hd
    have hinside : inner <:+: Lexeme.scan source := by
      refine List.IsInfix.trans ?_ hls
      exact List.infix_append [_] inner _
    cases hlaid with
    | cons hle hproper hrest =>
      obtain ⟨hlaidInner, hlaidRight⟩ := (hrest.of_le hproper.within.start_le_stop).of_append
      exact allArranged_of_spellsAll items hinner hinside hlaidInner hlaidRight.le_stopOf
  | .dotted items tail span, hd, hls, hlaid => by
    obtain ⟨left, inner, dot, last, right, rfl, rfl, -, hinner, htail⟩ := hd
    have hinside : inner <:+: Lexeme.scan source := by
      refine List.IsInfix.trans ?_ hls
      exact List.infix_append [_] inner _
    have hlast : last <:+: Lexeme.scan source := by
      refine List.IsInfix.trans ?_ hls
      refine List.IsInfix.trans ?_ (List.suffix_append (_ :: inner) _).isInfix
      exact List.infix_append [_] last _
    cases hlaid with
    | cons hle hproper hrest =>
      obtain ⟨hlaidInner, hlaidDot⟩ := (hrest.of_le hproper.within.start_le_stop).of_append
      cases hlaidDot with
      | cons hleDot hproperDot hrestDot =>
        obtain ⟨hlaidLast, hlaidRight⟩ := hrestDot.of_append
        obtain ⟨hstart, hspan, hend⟩ := span_of_spells htail hlaidLast
        have hbefore : Lexeme.stopOf left.start inner ≤ tail.span.start :=
          Nat.le_trans hleDot (Nat.le_trans hproperDot.within.start_le_stop hstart)
        have hafter : tail.span.stop ≤ right.stop := hend.trans_le hlaidRight.le_stopOf
        exact ⟨allArranged_of_spellsAll items hinner hinside hlaidInner hbefore, hspan, hafter,
          arranged_of_spells tail htail hlast hlaidLast⟩

/-- Data are arranged in the order of their tokens. -/
theorem allArranged_of_spellsAll {ls : List Lexeme} {start stop : Nat} : (ds : List Datum) →
    SpellsAll ds ls → ls <:+: Lexeme.scan source → Lexeme.LaidOut source start ls →
    Lexeme.stopOf start ls ≤ stop → AllArranged (Legible source) start stop ds
  | [], hds, _, _, hstop => by
    obtain rfl := hds
    exact hstop
  | d :: ds, hds, hls, hlaid, hstop => by
    obtain ⟨first, rest, rfl, hfirst, hrest⟩ := hds
    have hfront : first <:+: Lexeme.scan source :=
      (List.prefix_append first rest).isInfix.trans hls
    have hback : rest <:+: Lexeme.scan source :=
      (List.suffix_append first rest).isInfix.trans hls
    obtain ⟨hlaidFirst, hlaidRest⟩ := hlaid.of_append
    obtain ⟨hstart, hspan, hend⟩ := span_of_spells hfirst hlaidFirst
    rw [Lexeme.stopOf_append, ← hend] at hstop
    rw [← hend] at hlaidRest
    exact ⟨hstart, hspan, legible_of_spells hfaults hfirst hfront,
      arranged_of_spells d hfirst hfront hlaidFirst,
      allArranged_of_spellsAll ds hrest hback hlaidRest hstop⟩

end

end

/-! ### The spans of a reading -/

open Store

/-- The span covers a text that is read as a value that no path tells apart from the value `v` of
`s`, and that is equal to it in a store with both. -/
def ReadsBack (source : String) (span : Span) (s : Store) (v : Value) : Prop :=
  ∃ text, span.slice? source = some text ∧ ∀ s₁, ∃ r s₂, readOne text s₁ = (.ok r, s₂) ∧
    s.Corresponds s₂ v r.expression.value ∧
    (s.Extends s₁ → s₁.Closed → s₂.equal v r.expression.value = true)

/-- A span that covers a datum reads back as the values of the trees that the datum denotes. -/
theorem Denotes.readsBack {span : Span} {e e' : Sexp} {s : Store} (h : Denotes source span e')
    (he : s.Holds e) (hsame : e.same e' = true) : ReadsBack source span s e.value := by
  obtain ⟨text, d, hslice, hparse, htree⟩ := h
  refine ⟨text, hslice, fun s₁ => ?_⟩
  have hread : readOne text s₁ = (.ok (d.read s₁).1, (d.read s₁).2) := by
    rw [readOne, hparse]
  have hbuilds := d.builds_read s₁
  have hexpression : e.same (d.read s₁).1.expression = true := by
    rw [Sexp.same_comm] at hsame ⊢
    exact Sexp.same_trans (d.same_read s₁) (Sexp.same_trans htree hsame)
  refine ⟨_, _, hread, he.corresponds hbuilds.held hexpression, ?_⟩
  intro hextends hclosed
  have hheld := (he.extends hextends).extends hbuilds.extends_store
  exact (hbuilds.closed hclosed).equal_of_same hheld hbuilds.held hexpression

/-- A span at which a tree is legible covers a quote mark or reads back as the tree. -/
theorem Legible.readsBack {span : Span} {e e' : Sexp} {s : Store} (h : Legible source span e')
    (he : s.Holds e) (hsame : e.same e' = true) :
    span.slice? source = some "'" ∧ e.value = .symbol "QUOTE" ∨
      ReadsBack source span s e.value := by
  obtain ⟨-, ⟨hslice, rfl⟩ | hdenotes⟩ := h
  · refine .inl ⟨hslice, ?_⟩
    rw [Sexp.eq_symbol_of_same hsame]
    rfl
  · exact .inr (hdenotes.readsBack he hsame)

/-- What has been read from some data is the reading of one of them, in some store. -/
theorem exists_read_of_mem_readData {ds : List Datum} {s : Store} {r : Reading}
    (hr : r ∈ (readData ds s).1) : ∃ d ∈ ds, ∃ s₀, r = (d.read s₀).1 := by
  induction ds generalizing s with
  | nil => simp [readData] at hr
  | cons d ds ih =>
    rw [readData] at hr
    rcases List.mem_cons.1 hr with rfl | hr
    · exact ⟨d, List.mem_cons_self, s, rfl⟩
    · obtain ⟨d', hd', s₀, hread⟩ := ih hr
      exact ⟨d', List.mem_cons_of_mem _ hd', s₀, hread⟩

/-- Every reading of a text has a root, which covers a datum that denotes what has been read, and is
charted within its root. -/
theorem exists_root_of_readAll {s s' : Store} {rs : List Reading}
    (hread : readAll source s = (.ok rs, s')) {r : Reading} (hr : r ∈ rs) :
    ∃ root e, r.map.root = some root ∧ root.Within source ∧ Denotes source root e ∧
      r.expression.same e = true ∧
      Charted r.map (Legible source) root.start root.stop r.expression := by
  rw [readAll] at hread
  split at hread
  · next ds hparse =>
    obtain ⟨hrs, rfl⟩ := Prod.mk.inj hread
    obtain rfl := Except.ok.inj hrs
    obtain ⟨hfaults, hdata⟩ := parse_scan_of_parse hparse
    obtain ⟨d, hd, s₀, rfl⟩ := exists_read_of_mem_readData hr
    obtain ⟨ls, hls, hspells⟩ := exists_infix_of_spellsAll (spellsAll_of_parse hdata) hd
    obtain ⟨offset, hlaid⟩ := Lexeme.exists_laidOut_of_infix hls
    have harranged := arranged_of_spells hfaults d hspells hls hlaid
    have hbuilt := d.charts_build s₀ .empty harranged
    have hroot : (d.build s₀ .empty).2.2.Keeps (d.read s₀).1.map (d.build s₀ .empty).2.1.size :=
      fun _ _ => rfl
    obtain ⟨hwithin, hdenotes⟩ := denotes_of_spells hfaults hspells hls
    exact ⟨d.span, d.tree, rfl, hwithin, hdenotes, d.same_read s₀,
      hbuilt.charted.of_keeps hbuilt.builds.held hroot⟩
  · cases (Prod.mk.inj hread).1

/-- Every span that is noted when a text is read stands for what it is noted for. Each reading has a
root, which is a span within the text that reads back as the value; along the list that begins
there, the spans of the cells are in order and within the root. And whatever pair of the value a
path of heads and tails leads to, there is a span for its head: it is within the text, and it
covers a quote mark, if the head is the symbol of a quoted datum, or reads back as the head; along
the list that begins with the head, the spans of the cells are in order and within this span. -/
theorem readsBack_of_readAll {s s' : Store} {rs : List Reading}
    (hread : readAll source s = (.ok rs, s')) {r : Reading} (hr : r ∈ rs) :
    (∃ root, r.map.root = some root ∧ root.Within source ∧
      ReadsBack source root s' r.expression.value ∧
      r.map.Orders s' r.expression.value root) ∧
    ∀ path c, s'.follow path r.expression.value = some (.pair c) →
      ∃ span, r.map.headSpan? c = some span ∧ span.Within source ∧
        (span.slice? source = some "'" ∧ (s'.cell c).head = .symbol "QUOTE" ∨
          ReadsBack source span s' (s'.cell c).head) ∧
        r.map.Orders s' (s'.cell c).head span := by
  have hheld : s'.Holds r.expression := (holds_of_readAll hread).2 r hr
  obtain ⟨root, e, hroot, hwithin, hdenotes, hsame, hcharted⟩ := exists_root_of_readAll hread hr
  constructor
  · exact ⟨root, hroot, hwithin, hdenotes.readsBack hheld hsame, hcharted.orders hheld⟩
  · intro path c hpath
    obtain ⟨start, stop, head, tail, hpair, hpairCharted⟩ := hcharted.exists_of_follow hheld hpath
    obtain ⟨span, e', hnoted, -, -, -, hsameHead, hlegible, hhead, -⟩ := hpairCharted
    obtain ⟨-, hcell, heldHead, -⟩ := hpair
    rw [hcell]
    exact ⟨span, hnoted, hlegible.1, hlegible.readsBack heldHead hsameHead, hhead.orders heldHead⟩

/-- The datum of the text `(a . 'b)`. -/
def dottedQuote : Datum :=
  .dotted [.symbol "a" ⟨1, 2⟩] (.quoted (.symbol "b" ⟨6, 7⟩) ⟨5, 7⟩) ⟨0, 8⟩

/-- The text is read as the list `(a QUOTE b)`, which is built from the end: the cells of the quote
mark and of the symbol after it are those of the tail. -/
theorem readsBack_of_readAll_dottedQuote :
    let r := (dottedQuote.read .empty).1
    let s := (dottedQuote.read .empty).2
    readAll "(a . 'b)" .empty = (.ok [r], s) ∧ ReadsBack "(a . 'b)" ⟨0, 8⟩ s r.expression.value ∧
      s.follow [.tail] r.expression.value = some (.pair 1) ∧
      Span.slice? ⟨5, 6⟩ "(a . 'b)" = some "'" ∧ (s.cell 1).head = .symbol "QUOTE" ∧
      s.follow [.tail, .tail] r.expression.value = some (.pair 0) ∧
      ReadsBack "(a . 'b)" ⟨6, 7⟩ s (s.cell 0).head := by
  intro r s
  have hscan : Lexeme.scan "(a . 'b)" = [⟨.lparen, ⟨0, 1⟩⟩, ⟨.symbol "a", ⟨1, 2⟩⟩,
      ⟨.dot, ⟨3, 4⟩⟩, ⟨.quote, ⟨5, 6⟩⟩, ⟨.symbol "b", ⟨6, 7⟩⟩, ⟨.rparen, ⟨7, 8⟩⟩] := by
    decide +kernel
  have hread : readAll "(a . 'b)" .empty = (.ok [r], s) := by
    rw [readAll, parse, hscan]
    rfl
  obtain ⟨⟨root, hroot, -, hback, -⟩, hcells⟩ := readsBack_of_readAll hread List.mem_cons_self
  obtain rfl : ⟨0, 8⟩ = root := Option.some.inj hroot
  refine ⟨hread, hback, rfl, by decide, rfl, rfl, ?_⟩
  obtain ⟨span, hspan, -, hmark | hsymbol, -⟩ := hcells [.tail, .tail] 0 rfl
  · have hname : "b" = "QUOTE" := Atom.symbol.inj (Value.atom.inj hmark.2)
    exact absurd hname (by decide)
  · have hnoted : r.map.headSpan? 0 = some ⟨6, 7⟩ := by decide
    obtain rfl := Option.some.inj (hnoted.symm.trans hspan)
    exact hsymbol

end Reader

end Secd
