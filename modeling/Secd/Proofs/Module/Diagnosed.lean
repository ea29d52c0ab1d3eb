import Secd.Proofs.Module.Accepted
import Secd.Proofs.Reader.ReadsBack
import Secd.Proofs.Term.Blame
import Secd.Proofs.Term.Sorted
import Secd.Proofs.Token.Partition

/-!
# Where compile errors point

If a text is read but not compiled, every error has a span, which is that of a datum of the text or
of a quote mark. The text there is what the error is about: the name that is not bound, the name of
the callable, or the function with too many parameters. The errors are in the order of the text, and
those that begin at the same place are in the order in which they have been found.
-/

namespace Secd

open Lexeme

/-! ### The text of tokens -/

namespace Lexeme

variable {source : String} {l : Lexeme}

/-- The span of a token covers the characters that are cut there. -/
theorem exists_cuts_of_mem_scan (hl : l ∈ scan source) :
    ∃ word after, Token.Cuts l.token word after ∧ l.span.start + utf8Length word = l.span.stop ∧
      l.span.slice? source = some (String.ofList word) := by
  obtain ⟨before, word, after, htext, hstart, hstop, hcuts⟩ :=
    (partition_iff.2 (rfl : scan source = _)).exists_cuts hl
  rw [Nat.zero_add] at hstart
  exact ⟨word, after, hcuts, hstop, Span.slice?_eq_some htext hstart hstop⟩

/-- The span of a symbol covers its name. -/
theorem slice?_of_symbol (hl : l ∈ scan source) {name : String} (hname : l.token = .symbol name) :
    l.span.slice? source = some name := by
  obtain ⟨word, after, hcuts, -, hslice⟩ := exists_cuts_of_mem_scan hl
  rw [hname] at hcuts
  cases hcuts with
  | longest _ hreads =>
    obtain ⟨-, -, rfl⟩ := hreads
    rw [hslice, String.ofList_toList]

/-- The span of a quote covers the quote mark, which is one byte. -/
theorem slice?_of_quote (hl : l ∈ scan source) (hquote : l.token = .quote) :
    l.span.slice? source = some "'" ∧ l.span.stop = l.span.start + 1 := by
  obtain ⟨word, after, hcuts, hstop, hslice⟩ := exists_cuts_of_mem_scan hl
  rw [hquote] at hcuts
  cases hcuts with
  | longest _ hreads =>
    obtain rfl : word = ['\x27'] := hreads
    exact ⟨hslice, hstop.symm⟩

end Lexeme

/-! ### The text of sites -/

namespace Datum

/-- The datum that denotes a symbol is the symbol, if it has been read from tokens. -/
theorem eq_symbol_of_tree {d : Datum} {ls : List Lexeme} (hd : d.Spells ls) {name : String}
    (htree : d.tree = .symbol name) : ∃ span, d = .symbol name span := by
  cases d with
  | int n span => cases htree
  | symbol text span =>
    rw [tree, Atom.ofName] at htree
    split at htree
    · cases htree
    · cases htree
      exact ⟨span, rfl⟩
  | quoted d span => cases htree
  | list items span => cases items <;> cases htree
  | dotted items tail span =>
    obtain ⟨-, -, -, -, -, -, -, hne, -⟩ := hd
    cases items with
    | nil => exact absurd rfl hne
    | cons item items => cases htree

/-- The span is that of a part of the datum, or that of a quote mark in it. -/
def HasSpan (d : Datum) (span : Span) : Prop :=
  (∃ part ∈ d.parts, part.span = span) ∨
    ∃ quoted whole, .quoted quoted whole ∈ d.parts ∧ span = ⟨whole.start, whole.start + 1⟩

/-- The span is that of a quote mark after a dot. -/
def HasDottedQuote (d : Datum) (span : Span) : Prop :=
  ∃ items quoted whole list, .dotted items (.quoted quoted whole) list ∈ d.parts ∧
    span = ⟨whole.start, whole.start + 1⟩

/-- What stands at a span of a datum has been written in the datum. -/
theorem Site.hasSpan {d : Datum} {isTail : Bool} {e : Sexp} {span : Span}
    (h : Site d.parts isTail e span) : d.HasSpan span := by
  cases h with
  | @datum _ part hpart _ => exact .inl ⟨part, hpart, rfl⟩
  | mark hd _ => exact .inr ⟨_, _, hd, rfl⟩

section

variable {source : String} {d : Datum} {ls : List Lexeme}

/-- Where a symbol stands there is its name, or a quote mark if the symbol is that of a quoted
datum. Such a symbol stands in a tail only if the datum stands after a dot. -/
theorem Site.slice?_symbol (hd : d.Spells ls) (hls : ls <:+: scan source) {isTail : Bool}
    {name : String} {span : Span} (h : Site d.parts isTail (.symbol name) span) :
    span.slice? source = some name ∨ name = "QUOTE" ∧ span.slice? source = some "'" ∧
      (isTail = true → d.HasDottedQuote span) := by
  generalize he : Sexp.symbol name = e at h
  cases h with
  | @datum _ part hpart hsame =>
    obtain ⟨own, hown, hspells⟩ := exists_infix_of_mem_parts d hd hpart
    rw [← he, Sexp.same_comm] at hsame
    obtain ⟨span, rfl⟩ := eq_symbol_of_tree hspells (Sexp.eq_symbol_of_same hsame)
    obtain rfl := hspells
    have hmem : ⟨.symbol name, span⟩ ∈ scan source :=
      (hown.trans hls).subset List.mem_cons_self
    exact .inl (slice?_of_symbol hmem rfl)
  | @mark quoted whole hquoted hdot =>
    obtain ⟨own, hown, mark, inner, rfl, rfl, -⟩ := exists_infix_of_mem_parts d hd hquoted
    have hmem : ⟨.quote, mark⟩ ∈ scan source := (hown.trans hls).subset List.mem_cons_self
    obtain ⟨hslice, hstop⟩ := slice?_of_quote hmem rfl
    cases he
    refine .inr ⟨rfl, ?_, fun htail => ?_⟩
    · rw [← hslice]
      exact congrArg (fun stop => Span.slice? ⟨mark.start, stop⟩ source) hstop.symm
    · obtain ⟨items, list, hmem⟩ := hdot htail
      exact ⟨items, quoted, _, list, hmem, rfl⟩

/-- The text is read as a function with so many parameters. -/
def ReadsLambda (text : String) (params : Nat) : Prop :=
  ∀ s, ∃ r s', Reader.readOne text s = (.ok r, s') ∧ r.expression.LambdaOf params

/-- Where a function stands there is a text that is read as a function with as many parameters. -/
theorem Site.readsLambda (hfaults : ∀ l ∈ scan source, l.token.isFault = false) (hd : d.Spells ls)
    (hls : ls <:+: scan source) {isTail : Bool} {e : Sexp} {span : Span}
    (h : Site d.parts isTail e span) {params : Nat} (he : e.LambdaOf params) :
    ∃ text, span.slice? source = some text ∧ ReadsLambda text params := by
  cases h with
  | @datum _ part hpart hsame =>
    obtain ⟨own, hown, hspells⟩ := exists_infix_of_mem_parts d hd hpart
    obtain ⟨-, text, d', hslice, hparse, htree⟩ :=
      Reader.denotes_of_spells hfaults hspells (hown.trans hls)
    refine ⟨text, hslice, fun s => ⟨(d'.read s).1, (d'.read s).2, ?_, ?_⟩⟩
    · rw [Reader.readOne, hparse]
    · refine he.of_same (Sexp.same_trans hsame ?_)
      rw [Sexp.same_comm]
      exact Sexp.same_trans (d'.same_read s) htree
  | mark _ _ =>
    obtain ⟨_, _, _, _, heq, -⟩ := he
    cases heq

end

end Datum

/-! ### The text of errors -/

open Datum

/-- The text at the span is what the fault is about. A name that is not bound may be written as a
quote mark, if it is the name of the symbol that a quoted datum after a dot contributes. -/
def CompileFault.Shows (source : String) (d : Datum) (span : Span) : CompileFault → Prop
  | .undeclaredIdentifier name => span.slice? source = some name ∨
      name = "QUOTE" ∧ span.slice? source = some "'" ∧ d.HasDottedQuote span
  | .arityMismatch name _ _ => span.slice? source = some name
  | .excessArity params => 4 < params ∧
      ∃ text, span.slice? source = some text ∧ ReadsLambda text params
  | .malformedForm _ => True

/-- An error that is about an expression of a text points at it. -/
theorem Justified.shows {source : String} {d : Datum} {ls : List Lexeme}
    (hfaults : ∀ l ∈ scan source, l.token.isFault = false) (hd : d.Spells ls)
    (hls : ls <:+: scan source) {e : CompileError} (h : Justified (Site d.parts) e) :
    ∃ span, e.span = some span ∧ d.HasSpan span ∧ e.fault.Shows source d span := by
  have hkeyword : Keyword.ofSexp? (.symbol "QUOTE") ≠ none := by decide
  cases h with
  | undeclaredIdentifier hsite hname =>
    refine ⟨_, rfl, hsite.hasSpan, ?_⟩
    rcases hsite.slice?_symbol hd hls with hslice | ⟨rfl, hslice, hdot⟩
    · exact .inl hslice
    · exact .inr ⟨rfl, hslice, hdot (hname.resolve_right hkeyword)⟩
  | arityMismatch hsite hname =>
    refine ⟨_, rfl, hsite.hasSpan, ?_⟩
    rcases hsite.slice?_symbol hd hls with hslice | ⟨rfl, -⟩
    · exact hslice
    · exact absurd hname hkeyword
  | excessArity hsite he hexcess =>
    exact ⟨_, rfl, hsite.hasSpan, hexcess, hsite.readsLambda hfaults hd hls he⟩
  | malformedForm hsite => exact ⟨_, rfl, hsite.hasSpan, trivial⟩

namespace Module

variable {source : String} {s s₁ s₂ s₃ : Store} {r : Reading} {shape : Shape}
  {prelude : Option Prelude} {errors : List CompileError}

/-- If a text is read but not compiled, its errors are in the order of the text, and those that
begin at the same place are in the order in which the analysis has found them. Every error has a
span, that of a datum of the text or of a quote mark, and the text there is what the error is
about. -/
theorem diagnosed_of_compile (hread : Reader.readOne source s = (.ok r, s₁))
    (hcompile : compile r.expression r.map shape prelude s₂ = (.error errors, s₃)) :
    errors.Pairwise (fun e f => ∀ m ∈ e.start?, ∀ n ∈ f.start?, m ≤ n) ∧
    (∀ start, errors.filter (fun e => e.start? = start) =
      (Term.faults ⟨r.map, prelude⟩ (Prelude.scopes prelude) r.map.root r.expression).filter
        fun e => e.start? = start) ∧
    ∃ d, Reader.parseOne source = .ok d ∧ ∀ e ∈ errors, ∃ span, e.span = some span ∧
      d.HasSpan span ∧ e.fault.Shows source d span := by
  obtain rfl := sort_faults_of_compile hcompile
  refine ⟨?_, CompileError.filter_sort _, ?_⟩
  · refine (CompileError.pairwise_sort _).imp fun h m hm n hn => ?_
    obtain ⟨m', hm', hle⟩ := CompileError.notAfter_iff.1 h n hn
    obtain rfl := Option.some.inj (hm.symm.trans hm')
    exact hle
  · rw [Reader.readOne] at hread
    split at hread
    · next d hparse =>
      obtain ⟨hr, rfl⟩ := Prod.mk.inj hread
      obtain rfl := Except.ok.inj hr
      obtain ⟨hfaults, hdata⟩ := Reader.parse_scan_of_parse (Reader.parse_of_parseOne hparse)
      obtain ⟨ls, hls, hspells⟩ :=
        exists_infix_of_spellsAll (spellsAll_of_parse hdata) List.mem_cons_self
      have hroot : Site d.parts true (d.read s).1.expression d.span :=
        .datum d.mem_parts_self (d.same_read s)
      have hjustified : Checked.AllErrors (Justified (Site d.parts))
          (Term.ofSexp ⟨(d.read s).1.map, prelude⟩ (Prelude.scopes prelude) (some d.span)
            (d.read s).1.expression) :=
        Term.justified_ofSexp _ _ hroot (.inl rfl) (d.located_read s)
      refine ⟨d, hparse, fun e he => ?_⟩
      exact (hjustified e ((CompileError.perm_sort _).mem_iff.1 he)).shows hfaults hspells hls
    · cases (Prod.mk.inj hread).1

/-- The errors of the program in a text, compiled with a prelude, if it is read but not compiled. -/
def errorsOf? (source : String) (prelude : Prelude) : Option (List CompileError) :=
  match Reader.readOne source .empty with
  | (.error _, _) => none
  | (.ok r, s) =>
    match compile r.expression r.map .expression (some prelude) s with
    | (.ok _, _) => none
    | (.error errors, _) => some errors

/-- The program has been read, and the compiler has reported the errors. -/
theorem exists_of_errorsOf? {p : Prelude} (h : errorsOf? source p = some errors) :
    ∃ r s s', Reader.readOne source .empty = (.ok r, s) ∧
      compile r.expression r.map .expression (some p) s = (.error errors, s') := by
  rw [errorsOf?] at h
  split at h
  · cases h
  · next r s hread =>
    split at h
    · cases h
    · next found s' hcompile =>
      obtain rfl := Option.some.inj h
      exact ⟨r, s, s', hread, hcompile⟩

/-- A call of a primitive with a function of five parameters and a quoted datum after the dot. -/
def dottedCall : String := "(MAX (LAMBDA (A B C D E) A) . 'X)"

/-- In this call there are three arguments, of which the first one has too many parameters; the
others are the names `QUOTE` and `X`, which are not bound. The errors begin at the name of the
primitive, at the function, at the quote mark and after it. -/
theorem diagnosed_of_compile_dottedCall : ∃ errors d,
    errorsOf? dottedCall (Prelude.standard {}).1 = some errors ∧
      errors.map CompileError.start? = [some 1, some 5, some 30, some 31] ∧
      Reader.parseOne dottedCall = .ok d ∧ ∀ e ∈ errors, ∃ span, e.span = some span ∧
        d.HasSpan span ∧ e.fault.Shows dottedCall d span := by
  have hstarts : (errorsOf? dottedCall (Prelude.standard {}).1).any (fun errors =>
      decide (errors.map CompileError.start? = [some 1, some 5, some 30, some 31])) = true := by
    decide +kernel
  obtain ⟨errors, herrors, hstarts⟩ := (Option.any_eq_true _ _).1 hstarts
  obtain ⟨r, s, s', hread, hcompile⟩ := exists_of_errorsOf? herrors
  obtain ⟨-, -, d, hparse, hall⟩ := diagnosed_of_compile hread hcompile
  exact ⟨errors, d, herrors, of_decide_eq_true hstarts, hparse, hall⟩

end Module

end Secd
