import Secd.Proofs.Datum.Denotation
import Secd.Proofs.Store.Correspondence
import Secd.Proofs.Store.Printer

/-!
# Reading what was printed

The printer writes every finite value of atoms that can be read in such a way that the reader gives
the same value again. So different values are printed differently, and since everything that is read
is such a value, printing what was read gives a text that is printed again after it has been read.
-/

namespace Secd

namespace Sexp

/-- No token that is written for a tree is faulty. -/
theorem isFault_of_mem_tokens (e : Sexp) :
    (∀ t ∈ e.tokens, t.isFault = false) ∧ ∀ t ∈ e.tailTokens, t.isFault = false := by
  induction e with
  | atom a => cases a <;> simp [tokens, tailTokens, Atom.token, Token.isFault]
  | pair _ head tail ihHead ihTail =>
    simp only [tokens, tailTokens, List.mem_cons, List.mem_append]
    constructor
    · rintro t (rfl | ht | ht)
      · rfl
      · exact ihHead.1 t ht
      · exact ihTail.2 t ht
    · rintro t (ht | ht)
      · exact ihHead.1 t ht
      · exact ihTail.2 t ht

end Sexp

namespace Reader

/-- The tokens of a text have no faults if none of them is faulty. -/
theorem tokenDiagnostics_eq_nil {ls : List Lexeme} (h : ∀ l ∈ ls, l.token.isFault = false) :
    tokenDiagnostics ls = [] := by
  rw [tokenDiagnostics, List.map_eq_nil_iff, List.filter_eq_nil_iff]
  intro l hl
  rw [h l hl]
  exact Bool.noConfusion

/-- A text whose tokens are written for a tree, and not faulty, is a single datum that denotes the
tree. -/
theorem exists_parseOne_of_written {text : String} {e : Sexp}
    (h : Datum.Written (Lexeme.scan text) e)
    (hfaults : ∀ l ∈ Lexeme.scan text, l.token.isFault = false) :
    ∃ d, parseOne text = .ok d ∧ d.tree.same e = true := by
  obtain ⟨d, hd, hparse⟩ := h
  have hdata : Datum.parse (Lexeme.scan text) = .ok [d] := by
    have hdone := hparse [] [] []
    rw [List.append_nil] at hdone
    exact hdone
  refine ⟨d, ?_, hd⟩
  simp only [parseOne, parse, tokenDiagnostics_eq_nil hfaults, hdata]

/-- The printed form of a tree that can be read is a single datum that denotes the tree. -/
theorem exists_parseOne_render {e : Sexp} (he : e.AllAtoms Atom.Readable) :
    ∃ d : Datum, parseOne e.render = .ok d ∧ d.tree.same e = true := by
  have htokens := Lexeme.tokens_scan_render he
  refine exists_parseOne_of_written ((Datum.written_of_tokens he _).1 htokens) fun l hl => ?_
  refine e.isFault_of_mem_tokens.1 l.token ?_
  rw [← htokens]
  exact List.mem_map_of_mem hl

/-- The tokens of a text with data are not faulty, and the data are those of the tokens. -/
theorem parse_scan_of_parse {source : String} {data : List Datum} (h : parse source = .ok data) :
    (∀ l ∈ Lexeme.scan source, l.token.isFault = false) ∧
      Datum.parse (Lexeme.scan source) = .ok data := by
  unfold parse at h
  dsimp only at h
  split at h
  · next hnone =>
    refine ⟨fun l hl => ?_, ?_⟩
    · have hfaults := List.filter_eq_nil_iff.1 (List.map_eq_nil_iff.1 hnone)
      exact Bool.eq_false_iff.2 (hfaults l hl)
    · split at h
      · next hdata => rwa [Except.ok.inj h] at hdata
      · cases h
  · cases h

/-- The data of a text denote trees that can be read. -/
theorem readable_of_parse {source : String} {data : List Datum} (h : parse source = .ok data) :
    ∀ d ∈ data, d.Readable := by
  obtain ⟨-, hdata⟩ := parse_scan_of_parse h
  have hnamed : Datum.Named (Lexeme.scan source) :=
    fun l hl name hname => Lexeme.isName_of_mem_scanFrom hl hname
  have hstart : ParserState.start.Readable := ⟨by simp, by simp⟩
  exact Datum.readable_of_parseFrom hstart hnamed hdata

/-- What is read from a datum that can be read consists of atoms that can be read. -/
theorem allAtoms_of_read {d : Datum} (hd : d.Readable) (s : Store) :
    (d.read s).1.expression.AllAtoms Atom.Readable := by
  refine hd.of_same ?_ ((Sexp.same_comm _ _).trans (d.same_read s))
  intro a b hab ha
  exact ha.plain.eq_of_same hab ▸ ha

/-- The text is read as a tree that is the same as `e`, into any store, and is the printed form of
what has been read. In a store with `e` in it, both values are equal. -/
def ReadsAs (text : String) (e : Sexp) : Prop :=
  ∀ s, ∃ r s', readOne text s = (.ok r, s') ∧ Builds s s' r.expression ∧
    e.same r.expression = true ∧ s'.render r.expression.value = text ∧
    (s.Closed → s.Holds e → s'.equal e.value r.expression.value = true)

/-- The printed form of a held tree is read as the tree. -/
theorem readsAs_render {s : Store} {e : Sexp} (he : s.Holds e) (hatoms : e.AllAtoms Atom.Readable) :
    ReadsAs (s.render e.value) e := by
  intro s₁
  obtain ⟨d, hparse, hd⟩ := exists_parseOne_render hatoms
  have hread : readOne (s.render e.value) s₁ = (.ok (d.read s₁).1, (d.read s₁).2) := by
    rw [Store.render_value he, readOne, hparse]
  have hbuilds := d.builds_read s₁
  have hsame : e.same (d.read s₁).1.expression = true := by
    rw [Sexp.same_comm]
    exact Sexp.same_trans (d.same_read s₁) hd
  refine ⟨_, _, hread, hbuilds, hsame, ?_, fun hs hheld => ?_⟩
  · rw [Store.render_value he, Store.render_value hbuilds.held]
    exact (Sexp.render_eq_of_same (hatoms.imp fun a => Atom.Readable.plain) hsame).symm
  · exact (hbuilds.closed hs).equal_of_same (hheld.extends hbuilds.extends_store) hbuilds.held hsame

/-- Values with the same printed form are read as the same value. -/
theorem same_of_render_eq {e e' : Sexp} (he : e.AllAtoms Atom.Readable)
    (he' : e'.AllAtoms Atom.Readable) (h : e.render = e'.render) : e.same e' = true := by
  obtain ⟨d, hparse, hd⟩ := exists_parseOne_render he
  obtain ⟨d', hparse', hd'⟩ := exists_parseOne_render he'
  rw [h, hparse'] at hparse
  obtain rfl := Except.ok.inj hparse
  exact Sexp.same_trans ((Sexp.same_comm _ _).trans hd) hd'

/-- The only datum of a text is all that the text consists of. -/
theorem parse_of_parseOne {source : String} {d : Datum} (h : parseOne source = .ok d) :
    parse source = .ok [d] := by
  unfold parseOne at h
  split at h
  · next hdata =>
    obtain rfl := Except.ok.inj h
    exact hdata
  · cases h
  · cases h
  · cases h

/-- What is read from a text as its only datum consists of atoms that can be read. -/
theorem allAtoms_of_readOne {source : String} {s s' : Store} {r : Reading}
    (h : readOne source s = (.ok r, s')) : r.expression.AllAtoms Atom.Readable := by
  rw [readOne] at h
  split at h
  · next d hparse =>
    obtain rfl := Except.ok.inj (Prod.mk.inj h).1
    exact allAtoms_of_read (readable_of_parse (parse_of_parseOne hparse) d (by simp)) s
  · cases (Prod.mk.inj h).1

/-- What is read from data that can be read consists of atoms that can be read. -/
theorem allAtoms_of_readData {ds : List Datum} (hds : ∀ d ∈ ds, d.Readable) (s : Store) :
    ∀ r ∈ (readData ds s).1, r.expression.AllAtoms Atom.Readable := by
  induction ds generalizing s with
  | nil => simp [readData]
  | cons d ds ih =>
    obtain ⟨hd, hds⟩ := List.forall_mem_cons.1 hds
    rw [readData]
    exact List.forall_mem_cons.2 ⟨allAtoms_of_read hd s, ih hds _⟩

/-- What is read from a text consists of atoms that can be read. -/
theorem allAtoms_of_readAll {source : String} {s s' : Store} {rs : List Reading}
    (h : readAll source s = (.ok rs, s')) : ∀ r ∈ rs, r.expression.AllAtoms Atom.Readable := by
  rw [readAll] at h
  split at h
  · next ds hparse =>
    obtain rfl := Except.ok.inj (Prod.mk.inj h).1
    exact allAtoms_of_readData (readable_of_parse hparse) s
  · cases (Prod.mk.inj h).1

/-- The reader undoes the printer on every finite value of atoms that can be read. So two of these
values have the same printed form only if they are the same. And whatever text has been read, what
was read from it has a printed form that is read as the same value and is printed again. -/
theorem readsAs_printed :
    (∀ (s : Store) (e : Sexp), s.Holds e → e.AllAtoms Atom.Readable →
      ReadsAs (s.render e.value) e) ∧
    (∀ (s s' : Store) (e e' : Sexp), s.Holds e → s'.Holds e' → e.AllAtoms Atom.Readable →
      e'.AllAtoms Atom.Readable →
      (s.render e.value = s'.render e'.value ↔ e.same e' = true)) ∧
    (∀ source s s' r, readOne source s = (.ok r, s') →
      r.expression.AllAtoms Atom.Readable ∧
        ReadsAs (s'.render r.expression.value) r.expression) ∧
    (∀ source s s' rs, readAll source s = (.ok rs, s') → ∀ r ∈ rs,
      r.expression.AllAtoms Atom.Readable ∧
        ReadsAs (s'.render r.expression.value) r.expression) := by
  refine ⟨?_, ?_, ?_, ?_⟩
  · intro s e he hatoms
    exact readsAs_render he hatoms
  · intro s s' e e' he he' hatoms hatoms'
    rw [Store.render_value he, Store.render_value he']
    constructor
    · exact same_of_render_eq hatoms hatoms'
    · exact Sexp.render_eq_of_same (hatoms.imp fun a => Atom.Readable.plain)
  · intro source s s' r hread
    have hatoms := allAtoms_of_readOne hread
    exact ⟨hatoms, readsAs_render (builds_of_readOne hread).held hatoms⟩
  · intro source s s' rs hread r hr
    have hatoms := allAtoms_of_readAll hread r hr
    exact ⟨hatoms, readsAs_render ((holds_of_readAll hread).2 r hr) hatoms⟩

/-- Cells of a list with symbols that look like numbers or end in a dot, and with the least integer
after the dot. -/
def signs : Store where
  cells := #[⟨.symbol "-", .symbol "-5a"⟩, ⟨.symbol "+5", .nil⟩,
    ⟨.pair 1, .int Int64.minValue⟩, ⟨.symbol "a.", .pair 2⟩, ⟨.pair 0, .pair 3⟩]

/-- The tree of the list. -/
def signsTree : Sexp :=
  .pair 4 (.pair 0 (.symbol "-") (.symbol "-5a"))
    (.pair 3 (.symbol "a.") (.pair 2 (.pair 1 (.symbol "+5") .nil) (.int Int64.minValue)))

/-- The list is read from its printed form, and what is read is printed again. -/
theorem readsAs_printed_signs :
    signs.Holds signsTree ∧ signsTree.AllAtoms Atom.Readable ∧
      ReadsAs "((- . -5a) a. (+5) . -9223372036854775808)" signsTree ∧
      ∃ r s, readOne "((- . -5a) a. (+5) . -9223372036854775808)" .empty = (.ok r, s) ∧
        ReadsAs (s.render r.expression.value) r.expression := by
  have hheld : signs.Holds signsTree :=
    ⟨by decide, rfl, ⟨by decide, rfl, trivial, trivial⟩, by decide, rfl, trivial,
      by decide, rfl, ⟨by decide, rfl, trivial, trivial⟩, trivial⟩
  have hatoms : signsTree.AllAtoms Atom.Readable := by decide
  have htext : signs.render signsTree.value = "((- . -5a) a. (+5) . -9223372036854775808)" := by
    decide +kernel
  have hreads := readsAs_printed.1 signs signsTree hheld hatoms
  rw [htext] at hreads
  obtain ⟨r, s, hread, -⟩ := hreads .empty
  exact ⟨hheld, hatoms, hreads, r, s, hread, (readsAs_printed.2.2.1 _ _ s r hread).2⟩

end Reader

end Secd
