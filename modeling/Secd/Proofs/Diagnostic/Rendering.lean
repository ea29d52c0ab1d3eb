import Secd.Proofs.Datum.SourceMap
import Secd.Proofs.Term.ErrorSpan
import Secd.Report

/-!
# Which diagnostics can be drawn

The spans of diagnostics come from four places: faulty tokens, tokens that cannot come next, data
beyond the first, and the source map of the compiler. All of these are within the text, since the
tokens and the data of a text are. The exception is a text that ends too early. Its span goes from
the end of the text back to the end of the last token, so it is reversed as soon as anything that is
skipped, a blank or a comment, follows that token, and then the report cannot be drawn. The main
theorem says that this is the only exception.
-/

namespace Secd

namespace Reader

/-- Where the last token of a text ends; zero if there are no tokens. -/
def lastStop (source : String) : Nat :=
  ((Lexeme.scan source).getLast?.map fun l => l.span.stop).getD 0

/-- The text has no faulty tokens, and is at fault because more tokens had to come. -/
def CutShort (source : String) : Prop :=
  tokenDiagnostics (Lexeme.scan source) = [] ∧
    ∃ fault, Datum.parse (Lexeme.scan source) = .error fault ∧ fault.found = none

/-- The diagnostics that come from reading a source text, as a sequence of data or as a single
datum, and from compiling the datum that has been read. -/
inductive Reported (source : String) : Diagnostic → Prop where
  | parse {ds : List Diagnostic} {d : Diagnostic} (hparse : Reader.parse source = .error ds)
      (hd : d ∈ ds) : Reported source d
  | readAll {s : Store} {ds : List Diagnostic} {d : Diagnostic}
      (hread : (Reader.readAll source s).1 = .error ds) (hd : d ∈ ds) : Reported source d
  | readOne {s : Store} {ds : List Diagnostic} {d : Diagnostic}
      (hread : (Reader.readOne source s).1 = .error ds) (hd : d ∈ ds) : Reported source d
  | compile {s s' : Store} {r : Reading} {shape : Shape} {prelude : Option Prelude}
      {errors : List CompileError} {e : CompileError}
      (hread : (Reader.readOne source s).1 = .ok r)
      (hcompile : (Module.compile r.expression r.map shape prelude s').1 = .error errors)
      (he : e ∈ errors) : Reported source (e.diagnostic r.map.root)

variable {source : String}

/-! ### Texts that are cut short -/

/-- The last token ends in the text. -/
theorem lastStop_le_utf8ByteSize (source : String) : lastStop source ≤ source.utf8ByteSize := by
  unfold lastStop
  cases hlast : (Lexeme.scan source).getLast? with
  | none => exact Nat.zero_le _
  | some l =>
    have hmem : l ∈ Lexeme.scan source := List.mem_of_getLast? hlast
    exact ((Lexeme.laidOut_scan source).proper_of_mem hmem).within.stop_le

/-- A text that can be parsed is not cut short. -/
theorem not_cutShort_of_parse {data : List Datum} (h : Reader.parse source = .ok data) :
    ¬ CutShort source := by
  rintro ⟨htokens, fault, hfault, -⟩
  simp only [Reader.parse, htokens, hfault] at h
  cases h

/-- The data of a text that can be parsed are within it. -/
theorem within_of_parse {data : List Datum} (h : Reader.parse source = .ok data) :
    ∀ d ∈ data, d.Within source := by
  unfold Reader.parse at h
  dsimp only at h
  split at h
  · split at h
    · next hdata =>
      cases h
      exact Datum.within_of_parse hdata
    · cases h
  · cases h

/-- The span of a diagnostic is within the text, unless the text is cut short: then it goes from the
end of the text to the end of its last token. -/
def Placed (source : String) (d : Diagnostic) : Prop :=
  (¬ CutShort source ∧ d.span.Within source) ∨
    (CutShort source ∧ d.span = ⟨source.utf8ByteSize, lastStop source⟩)

/-- The diagnostics of a text that cannot be parsed are placed. -/
theorem placed_of_parse {ds : List Diagnostic} (h : Reader.parse source = .error ds)
    {d : Diagnostic} (hd : d ∈ ds) : Placed source d := by
  have hproper {l : Lexeme} (hl : l ∈ Lexeme.scan source) : l.span.Within source :=
    ((Lexeme.laidOut_scan source).proper_of_mem hl).within
  unfold Reader.parse at h
  dsimp only at h
  split at h
  · next htokens =>
    split at h
    · cases h
    · next fault hfault =>
      cases h
      obtain rfl := List.mem_singleton.1 hd
      cases hfound : fault.found with
      | none =>
        refine .inr ⟨⟨htokens, fault, hfault, hfound⟩, ?_⟩
        simp only [syntaxDiagnostic, hfound]
        rfl
      | some l =>
        refine .inl ⟨?_, ?_⟩
        · rintro ⟨-, other, hother, hnone⟩
          rw [hfault] at hother
          cases hother
          rw [hfound] at hnone
          cases hnone
        · simp only [syntaxDiagnostic, hfound]
          exact hproper (Datum.mem_of_parseFrom_error hfault hfound)
  · next hfaulty =>
    cases h
    refine .inl ⟨fun hcut => hfaulty hcut.1, ?_⟩
    obtain ⟨l, hl, rfl⟩ := List.mem_map.1 hd
    exact hproper (List.mem_filter.1 hl).1

/-- The diagnostics of a text that does not hold exactly one datum are placed. -/
theorem placed_of_parseOne {ds : List Diagnostic} (h : parseOne source = .error ds)
    {d : Diagnostic} (hd : d ∈ ds) : Placed source d := by
  unfold parseOne at h
  split at h
  · cases h
  · next hparse =>
    cases h
    obtain rfl := List.mem_singleton.1 hd
    exact .inl ⟨not_cutShort_of_parse hparse, .atEnd source⟩
  · next first second rest hparse =>
    cases h
    obtain rfl := List.mem_singleton.1 hd
    have hsecond : second.Within source := within_of_parse hparse second (by simp)
    exact .inl ⟨not_cutShort_of_parse hparse, hsecond.span⟩
  · next hparse =>
    cases h
    exact placed_of_parse hparse hd

/-- A text of one datum can be parsed, and the spans of its reading are within the text. -/
theorem reading_of_readOne {s : Store} {r : Reading} (h : (readOne source s).1 = .ok r) :
    ¬ CutShort source ∧ r.map.Within source ∧ ∃ span, r.map.root = some span := by
  unfold readOne at h
  split at h
  · next d hone =>
    cases h
    unfold parseOne at hone
    split at hone
    · next hparse =>
      cases hone
      have hd := within_of_parse hparse d List.mem_cons_self
      exact ⟨not_cutShort_of_parse hparse, Datum.within_read hd s, d.span, Datum.root_read d s⟩
    · cases hone
    · cases hone
    · cases hone
  · cases h

/-- All diagnostics are placed. -/
theorem Reported.placed {d : Diagnostic} (h : Reported source d) : Placed source d := by
  cases h with
  | parse hparse hd => exact placed_of_parse hparse hd
  | readAll hread hd =>
    unfold Reader.readAll at hread
    split at hread
    · cases hread
    · next hparse =>
      cases hread
      exact placed_of_parse hparse hd
  | readOne hread hd =>
    unfold Reader.readOne at hread
    split at hread
    · cases hread
    · next hone =>
      cases hread
      exact placed_of_parseOne hone hd
  | @compile s s' r shape prelude errors e hread hcompile he =>
    obtain ⟨hcut, hmap, root, hroot⟩ := reading_of_readOne hread
    have hspan := Module.span_of_compile_error (P := fun o => ∀ span ∈ o, span.Within source)
      hmap.heads hmap.root hcompile e he
    refine .inl ⟨hcut, ?_⟩
    rw [CompileError.diagnostic, hroot]
    cases hown : e.span with
    | none => exact hmap.root root hroot
    | some span => exact hspan span hown

/-! ### The theorem -/

/-- The span of a diagnostic is within the source text, and the report can be drawn, except if the
text is cut short and anything follows its last token: then the span goes back from the end of the
text to the end of that token. -/
theorem reported_within_iff {source : String} {d : Diagnostic} (h : Reported source d) :
    (d.span.Within source ↔ ¬ (CutShort source ∧ lastStop source < source.utf8ByteSize)) ∧
    (∀ path kind code,
      (d.report? path source kind code).isSome = true ↔ d.span.Within source) ∧
    (CutShort source → d.span = ⟨source.utf8ByteSize, lastStop source⟩) := by
  have hdrawn (path kind : String) (code : Nat) :
      (d.report? path source kind code).isSome = true ↔ ¬ d.span.stop < d.span.start := by
    unfold Diagnostic.report?
    split
    · next hreversed => simp [hreversed]
    · next hforward => simp [hforward]
  rcases h.placed with ⟨hcut, hwithin⟩ | ⟨hcut, hspan⟩
  · refine ⟨?_, ?_, ?_⟩
    · exact ⟨fun _ hbad => hcut hbad.1, fun _ => hwithin⟩
    · intro path kind code
      rw [hdrawn]
      exact ⟨fun _ => hwithin, fun h => h.not_stop_lt_start⟩
    · intro hshort
      exact absurd hshort hcut
  · have hbound : lastStop source ≤ source.utf8ByteSize := lastStop_le_utf8ByteSize source
    have hiff : d.span.Within source ↔ ¬ lastStop source < source.utf8ByteSize := by
      rw [hspan]
      constructor
      · intro hwithin
        exact hwithin.not_stop_lt_start
      · intro hnone
        have hend : lastStop source = source.utf8ByteSize := by omega
        rw [hend]
        exact .atEnd source
    refine ⟨?_, ?_, fun _ => hspan⟩
    · rw [hiff]
      exact ⟨fun hnone hbad => hnone hbad.2, fun hgood hbad => hgood ⟨hcut, hbad⟩⟩
    · intro path kind code
      rw [hdrawn, hiff, hspan]

/-- The diagnostic of the text `(1 `, a list that is not closed and a blank. -/
def openList : Diagnostic :=
  ⟨"found end of input expected atom, quoted datum, list, ''.'', or '')''", ⟨3, 2⟩⟩

/-- Whether the text is refused with the given diagnostics. What a success gives cannot be
compared, so only the failure is. -/
def refuses (source : String) (ds : List Diagnostic) : Bool :=
  match parse source with
  | .error found => decide (found = ds)
  | .ok _ => false

/-- A text that is refused has the diagnostics. -/
theorem parse_of_refuses {source : String} {ds : List Diagnostic}
    (h : refuses source ds = true) : parse source = .error ds := by
  rw [refuses] at h
  split at h
  · next found hfound => rw [hfound, of_decide_eq_true h]
  · cases h

/-- That text has this diagnostic and no other. -/
theorem parse_openList : Reader.parse "(1 " = .error [openList] :=
  parse_of_refuses (by decide +kernel)

/-- The theorem at that text: its diagnostic has a reversed span, so it cannot be drawn. -/
theorem reported_within_iff_openList :
    Reported "(1 " openList ∧ ¬ openList.span.Within "(1 " ∧
      (openList.report? "program" "(1 " "Compilation failed" 4).isSome = false ∧
      CutShort "(1 " ∧ lastStop "(1 " < "(1 ".utf8ByteSize := by
  have hreported : Reported "(1 " openList := .parse parse_openList List.mem_cons_self
  obtain ⟨hwithin, hdrawn, -⟩ := reported_within_iff hreported
  have hreversed : ¬ openList.span.Within "(1 " := fun h => absurd h.start_le_stop (by decide)
  have hcut : CutShort "(1 " ∧ lastStop "(1 " < "(1 ".utf8ByteSize :=
    Classical.byContradiction fun hgood => hreversed (hwithin.2 hgood)
  exact ⟨hreported, hreversed,
    Bool.eq_false_iff.2 fun hsome => hreversed ((hdrawn _ _ _).1 hsome), hcut⟩

/-- Not every diagnostic is within its text. -/
theorem not_forall_reported_within :
    ¬ ∀ source d, Reported source d → d.span.Within source := fun h =>
  absurd (h "(1 " openList (.parse parse_openList List.mem_cons_self)).start_le_stop (by decide)

end Reader

namespace Diagnostic

/-- The reports about diagnostics can be drawn if the spans are within the source text. -/
theorem exists_reports? {source : String} {ds : List Diagnostic}
    (h : ∀ d ∈ ds, d.span.Within source) (path kind : String) (code : Nat) :
    ∃ text, reports? ds path source kind code = some text := by
  have hall : ∃ texts, (ds.mapM fun d => d.report? path source kind code) = some texts := by
    induction ds with
    | nil => exact ⟨[], rfl⟩
    | cons d ds ih =>
      obtain ⟨hd, hds⟩ := List.forall_mem_cons.1 h
      obtain ⟨texts, htexts⟩ := ih hds
      rw [List.mapM_cons, htexts, report?, if_neg hd.not_stop_lt_start]
      exact ⟨_, rfl⟩
  obtain ⟨texts, htexts⟩ := hall
  exact ⟨String.join texts, by rw [reports?, htexts]; rfl⟩

end Diagnostic

end Secd
