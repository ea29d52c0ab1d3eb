import Secd.Proofs.Datum.Spelling
import Secd.Proofs.Reader.RoundTrip
import Secd.Proofs.Token.Partition

/-!
# What stands between tokens

A text is divided into tokens and what is skipped between them in one way only, and each token is
the longest one that can stand at its place. What is skipped between two tokens does not matter:
other blanks and comments leave the tokens as they are, and what is read depends on nothing but the
tokens.
-/

namespace Secd

open Lexeme

namespace Datum

/-- The same tokens have data with the same trees. -/
theorem exists_parse_of_tokens {ls ls' : List Lexeme} {data : List Datum}
    (htokens : ls'.map Lexeme.token = ls.map Lexeme.token) (hparse : parse ls = .ok data) :
    ∃ data', parse ls' = .ok data' ∧
      List.Forall₂ (fun d d' : Datum => d'.tree.same d.tree = true) data data' := by
  -- outside all data, more data are read whatever is complete already
  have hmore {data : List Datum} {ls ls' : List Lexeme} (hspells : SpellsAll data ls)
      (htokens : ls'.map Lexeme.token = ls.map Lexeme.token) (complete : List Datum) :
      ∃ data', parseFrom (.ready complete []) ls' = .ok (complete.reverse ++ data') ∧
        List.Forall₂ (fun d d' : Datum => d'.tree.same d.tree = true) data data' := by
    induction data generalizing ls ls' complete with
    | nil =>
      obtain rfl := hspells
      obtain rfl := List.map_eq_nil_iff.1 htokens
      exact ⟨[], by rw [List.append_nil, parseFrom], .nil⟩
    | cons d data ih =>
      obtain ⟨first, rest, rfl, hfirst, hrest⟩ := hspells
      rw [List.map_append] at htokens
      obtain ⟨first', rest', rfl, hfirst', hrest'⟩ := List.map_eq_append_iff.1 htokens
      obtain ⟨d', hsame, hread⟩ := written_of_spells d hfirst hfirst'
      obtain ⟨data', hdata, hall⟩ := ih hrest hrest' (d' :: complete)
      refine ⟨d' :: data', ?_, .cons hsame hall⟩
      rw [hread, ParserState.supply, hdata, List.reverse_cons, List.append_assoc]
      rfl
  exact hmore (spellsAll_of_parse hparse) htokens []

end Datum

namespace Reader

/-- The tokens of both texts are the same. -/
def SameTokens (source source' : String) : Prop :=
  (scan source).map Lexeme.token = (scan source').map Lexeme.token

/-- The same values are read from both texts, into any stores, or both are refused. -/
def ReadAlike (source source' : String) : Prop :=
  ∀ s s', match (readAll source s).1, (readAll source' s').1 with
    | .ok rs, .ok rs' =>
      List.Forall₂ (fun r r' : Reading => r.expression.same r'.expression = true) rs rs'
    | .error _, .error _ => True
    | _, _ => False

/-- Data with the same trees are read as the same values. -/
theorem forall₂_readData {ds ds' : List Datum}
    (h : List.Forall₂ (fun d d' : Datum => d'.tree.same d.tree = true) ds ds') (s s' : Store) :
    List.Forall₂ (fun r r' : Reading => r.expression.same r'.expression = true)
      (readData ds s).1 (readData ds' s').1 := by
  induction h generalizing s s' with
  | nil => exact .nil
  | @cons d d' ds ds' hd _ ih =>
    have hfirst : (d.read s).1.expression.same d'.tree = true := by
      rw [Sexp.same_comm] at hd
      exact Sexp.same_trans (d.same_read s) hd
    have hsecond : d'.tree.same (d'.read s').1.expression = true := by
      rw [Sexp.same_comm]
      exact d'.same_read s'
    exact .cons (Sexp.same_trans hfirst hsecond) (ih _ _)

/-- A text has data if another one with the same tokens has. -/
theorem exists_parse_of_sameTokens {source source' : String} (h : SameTokens source source')
    {data : List Datum} (hparse : parse source = .ok data) : ∃ data', parse source' = .ok data' ∧
      List.Forall₂ (fun d d' : Datum => d'.tree.same d.tree = true) data data' := by
  obtain ⟨hfaults, hdata⟩ := parse_scan_of_parse hparse
  obtain ⟨data', hdata', hall⟩ := Datum.exists_parse_of_tokens h.symm hdata
  have hfaults' : ∀ l ∈ scan source', l.token.isFault = false := by
    intro l hl
    have htoken : l.token ∈ (scan source).map Lexeme.token := by
      rw [show (scan source).map Lexeme.token = _ from h]
      exact List.mem_map_of_mem hl
    obtain ⟨own, hown, heq⟩ := List.mem_map.1 htoken
    rw [← heq]
    exact hfaults own hown
  refine ⟨data', ?_, hall⟩
  simp only [parse, tokenDiagnostics_eq_nil hfaults', hdata']

/-- Texts with the same tokens are read alike. -/
theorem SameTokens.readAlike {source source' : String} (h : SameTokens source source') :
    ReadAlike source source' := by
  intro s s'
  cases hparse : parse source with
  | ok data =>
    obtain ⟨data', hparse', hall⟩ := exists_parse_of_sameTokens h hparse
    simp only [readAll, hparse, hparse']
    exact forall₂_readData hall s s'
  | error ds =>
    cases hparse' : parse source' with
    | ok data' =>
      obtain ⟨data, hdata, -⟩ := exists_parse_of_sameTokens h.symm hparse'
      rw [hparse] at hdata
      cases hdata
    | error ds' => simp only [readAll, hparse, hparse']

/-- The text is in three parts: up to the end of one token, from there to the beginning of another
one, and the rest. -/
structure Parted (source : String) (l l' : Lexeme) (before gap after : List Char) : Prop where
  toList_eq : source.toList = before ++ (gap ++ after)
  length_before : utf8Length before = l.span.stop
  length_gap : l.span.stop + utf8Length gap = l'.span.start

/-- A text is parted in one way only. -/
theorem Parted.unique {source : String} {l l' : Lexeme}
    {before before' gap gap' after after' : List Char} (h : Parted source l l' before gap after)
    (h' : Parted source l l' before' gap' after') :
    before = before' ∧ gap = gap' ∧ after = after' := by
  have hinj {a a' b b' : List Char} (htext : a ++ b = a' ++ b')
      (hlength : utf8Length a = utf8Length a') : a = a' ∧ b = b' := by
    have hbefore := textBefore?_utf8Length a b
    rw [htext, hlength, textBefore?_utf8Length] at hbefore
    obtain rfl := Option.some.inj hbefore
    exact ⟨rfl, List.append_cancel_left htext⟩
  obtain ⟨rfl, hrest⟩ := hinj (h.toList_eq.symm.trans h'.toList_eq)
    (h.length_before.trans h'.length_before.symm)
  have hlength : utf8Length gap = utf8Length gap' := by
    have hgap := h.length_gap
    have hgap' := h'.length_gap
    omega
  obtain ⟨rfl, rfl⟩ := hinj hrest hlength
  exact ⟨rfl, rfl, rfl⟩

/-- Other separators may stand between two tokens that follow one another. -/
theorem sameTokens_of_parted {source : String} {front back : List Lexeme} {l l' : Lexeme}
    (hscan : scan source = front ++ l :: l' :: back) {before gap after : List Char}
    (hparted : Parted source l l' before gap after) {gap' : List Char} (hne : gap' ≠ [])
    (hgap' : Separates gap') :
    SameTokens source (String.ofList (before ++ (gap' ++ after))) := by
  obtain ⟨before', own, after', htext, -, hbefore, hown, hreplace⟩ :=
    (partition_iff.2 hscan).replace
  rw [Nat.zero_add] at hbefore
  obtain ⟨rfl, rfl, rfl⟩ := hparted.unique ⟨htext, hbefore, hown⟩
  obtain ⟨ls, hls, htokens⟩ := hreplace gap' hne hgap' 0
  rw [SameTokens, scan, scan, String.toList_ofList, partition_iff.1 hls, htokens, ← hscan]
  rfl

/-- The tokens of a text have spans that are not empty, that begin and end on boundaries of
characters and follow one another. With the blanks and the comments between them they make up the
text, each the longest token that can stand there; no other tokens do. And between two of them,
whatever is skipped there, any blanks and comments with their line feeds may stand instead: the
tokens are the same then, and so are the values that are read. -/
theorem scan_partitions (source : String) :
    (∀ l ∈ scan source, l.span.start < l.span.stop ∧ OnBoundary source l.span.start ∧
      OnBoundary source l.span.stop) ∧
    (scan source).Pairwise (fun l l' => l.span.stop ≤ l'.span.start) ∧
    (∀ ls, Partition 0 source.toList ls ↔ scan source = ls) ∧
    ∀ front l l' back before gap after gap', scan source = front ++ l :: l' :: back →
      Parted source l l' before gap after → gap' ≠ [] → Separates gap' →
      SameTokens source (String.ofList (before ++ (gap' ++ after))) ∧
        ReadAlike source (String.ofList (before ++ (gap' ++ after))) := by
  refine ⟨fun l hl => ?_, ((laidOut_scan source).pairwise).2, fun ls => partition_iff, ?_⟩
  · have hproper := (laidOut_scan source).proper_of_mem hl
    exact ⟨hproper.start_lt_stop, hproper.within.onBoundary_start, hproper.within.onBoundary_stop⟩
  · intro front l l' back before gap after gap' hscan hparted hne hgap'
    have htokens := sameTokens_of_parted hscan hparted hne hgap'
    exact ⟨htokens, htokens.readAlike⟩

/-- The theorem at the list of a symbol that begins like a number and of a number in front of a
dot: a comment with a character of two bytes may stand between them in place of another one. -/
theorem scan_partitions_minus :
    (scan "(-5a ;x\n5.1)").map Lexeme.token =
        [.lparen, .symbol "-5a", .int 5, .dot, .int 1, .rparen] ∧
      SameTokens "(-5a ;x\n5.1)" "(-5a;é\n\t5.1)" ∧
      ReadAlike "(-5a ;x\n5.1)" "(-5a;é\n\t5.1)" := by
  have hscan : scan "(-5a ;x\n5.1)" = [⟨.lparen, ⟨0, 1⟩⟩] ++ ⟨.symbol "-5a", ⟨1, 4⟩⟩ ::
      ⟨.int 5, ⟨8, 9⟩⟩ :: [⟨.dot, ⟨9, 10⟩⟩, ⟨.int 1, ⟨10, 11⟩⟩, ⟨.rparen, ⟨11, 12⟩⟩] := by
    decide +kernel
  have hparted : Parted "(-5a ;x\n5.1)" ⟨.symbol "-5a", ⟨1, 4⟩⟩ ⟨.int 5, ⟨8, 9⟩⟩
      "(-5a".toList " ;x\n".toList "5.1)".toList := ⟨by decide, by decide, by decide⟩
  have hseparates : Separates ";é\n\t".toList :=
    .comment (by decide : '\n' ∉ ['é']) (.blank (by decide) .nil)
  have hboth := (scan_partitions "(-5a ;x\n5.1)").2.2.2 _ _ _ _ _ _ _ _ hscan hparted
    (by decide) hseparates
  refine ⟨?_, hboth⟩
  rw [hscan]
  rfl

end Reader

end Secd
