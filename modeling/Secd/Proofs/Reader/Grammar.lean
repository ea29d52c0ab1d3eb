import Secd.Proofs.Datum.Viability
import Secd.Proofs.Diagnostic.Rendering

/-!
# The reader and the grammar

A text with faulty tokens is refused for all of these and for nothing else. Any other text is
accepted exactly if its tokens are derived from the grammar, and flattening the data gives them
back. What is refused has one diagnostic. Either the text is too short, and some program begins with
its tokens; or the diagnostic is about the first token with which they stop being the beginning of
any program. In both cases the message lists what could have come there instead.
-/

namespace Secd

open Grammar

namespace Reader

/-- The tokens of a text. -/
def tokens (source : String) : List Token := (Lexeme.scan source).map Lexeme.token

/-- The diagnostic is about the first token of the text with which no program goes on, and says what
could have come in its place. -/
inductive BlamesToken (source : String) : Diagnostic → Prop where
  | intro {before after : List Lexeme} {l : Lexeme} {continuations : List Continuation}
      (hscan : Lexeme.scan source = before ++ l :: after)
      (hbefore : Viable (before.map Lexeme.token))
      (hl : ¬ Viable (before.map Lexeme.token ++ [l.token]))
      (hexpects : Expects (before.map Lexeme.token) continuations) :
      BlamesToken source ⟨"found " ++ ("'" ++ l.token.text ++ "'") ++ " expected " ++
        Continuation.alternatives continuations, l.span⟩

/-- The diagnostic is about the end of the text, which comes too early, and says what could have
come in its place. -/
inductive BlamesEnd (source : String) : Diagnostic → Prop where
  | intro {continuations : List Continuation} (hviable : Viable (tokens source))
      (hprogram : ¬ DerivesProgram (tokens source))
      (hexpects : Expects (tokens source) continuations) :
      BlamesEnd source ⟨"found " ++ "end of input" ++ " expected " ++
        Continuation.alternatives continuations, ⟨source.utf8ByteSize, lastStop source⟩⟩

/-- The faulty tokens of a text. -/
def faulty (source : String) : List Lexeme :=
  (Lexeme.scan source).filter fun l => l.token.isFault

variable {source : String}

/-- A text in which some token is blamed is not the beginning of a program. -/
theorem BlamesToken.not_viable {d : Diagnostic} (h : BlamesToken source d) :
    ¬ Viable (tokens source) := by
  obtain ⟨hscan, -, hl, -⟩ := h
  intro hviable
  rw [tokens, hscan, List.map_append, List.map_cons, List.append_cons] at hviable
  exact hl hviable.of_append

/-- A text whose end is blamed is the beginning of a program. -/
theorem BlamesEnd.viable {d : Diagnostic} (h : BlamesEnd source d) : Viable (tokens source) := by
  cases h
  assumption

/-- A fault of syntax blames a token, or the end of the text. -/
theorem blames_syntaxDiagnostic {fault : SyntaxFault}
    (h : Datum.parse (Lexeme.scan source) = .error fault) :
    BlamesToken source (syntaxDiagnostic source (Lexeme.scan source) fault) ∨
      BlamesEnd source (syntaxDiagnostic source (Lexeme.scan source) fault) := by
  obtain ⟨before, after, state, hscan, hstate, rfl, hnone, htop⟩ :=
    Datum.exists_of_parseFrom_eq_error h
  have hviable := ParserState.viable_of_after? hstate
  have hexpects := ParserState.expects_of_after? hstate
  cases after with
  | nil =>
    rw [List.append_nil] at hscan
    rw [← hscan] at hviable hexpects hstate
    refine .inr ?_
    rw [syntaxDiagnostic, unexpected.eq_def, Place.expected_eq]
    refine .intro hviable ?_ hexpects
    rw [tokens, ParserState.derivesProgram_iff hstate]
    exact htop rfl
  | cons l after =>
    refine .inl ?_
    rw [syntaxDiagnostic, unexpected.eq_def, Place.expected_eq]
    refine .intro hscan hviable ?_ hexpects
    rw [ParserState.viable_concat_iff hstate l, hnone l rfl]
    rintro ⟨next, hnext⟩
    cases hnext

/-- The end of a text is blamed at the bytes from there back to the last token. -/
theorem BlamesEnd.span_eq {d : Diagnostic} (h : BlamesEnd source d) :
    d.span = ⟨source.utf8ByteSize, lastStop source⟩ := by
  cases h
  rfl

/-- Without faulty tokens the data of a text are those of its tokens. -/
theorem parse_of_faulty_eq_nil (h : faulty source = []) :
    parse source = (Datum.parse (Lexeme.scan source)).mapError fun fault =>
      [syntaxDiagnostic source (Lexeme.scan source) fault] := by
  have hnone : tokenDiagnostics (Lexeme.scan source) = [] := List.map_eq_nil_iff.2 h
  simp only [parse, hnone]
  cases Datum.parse (Lexeme.scan source) <;> rfl

/-- With faulty tokens there is one diagnostic for each of them. -/
theorem parse_of_faulty_ne_nil (h : faulty source ≠ []) :
    parse source = .error ((faulty source).map fun l => ⟨l.token.text, l.span⟩) := by
  rw [parse]
  split
  · next hnone => exact absurd (List.map_eq_nil_iff.1 hnone) h
  · rfl

/-- The data of a text without faulty tokens have the tokens of the text, and these are a
program. -/
theorem tokensOf_of_parse {data : List Datum} (h : Datum.parse (Lexeme.scan source) = .ok data) :
    Datum.tokensOf data = tokens source ∧ DerivesProgram (tokens source) := by
  have hafter := Datum.parseFrom_eq_ok_iff.1 h
  have hread := (ParserState.knows_start.of_after? hafter).read
  constructor
  · simpa [ParserState.tokens, tokens] using hread
  · exact (ParserState.derivesProgram_iff hafter).2 rfl

/-- A text of data that are derived can be parsed. -/
theorem exists_parse_of_derivesProgram (h : DerivesProgram (tokens source)) :
    ∃ data, Datum.parse (Lexeme.scan source) = .ok data := by
  obtain ⟨complete, hafter⟩ := ParserState.exists_after?_of_derivesProgram h
  refine ⟨complete.reverse, Datum.parseFrom_eq_ok_iff.2 ?_⟩
  rwa [List.reverse_reverse]

/-! ### The theorem -/

/-- A text with faulty tokens has one diagnostic for each of them. Any other text is accepted
exactly if its tokens are a program, which flattening the data gives back; or else it has a single
diagnostic, which blames the end of the text if this begins a program, and otherwise the first token
with which it does not. -/
theorem parse_decides_grammar (source : String) :
    (faulty source ≠ [] →
      parse source = .error ((faulty source).map fun l => ⟨l.token.text, l.span⟩)) ∧
    (faulty source = [] →
      ((∃ data, parse source = .ok data) ↔ DerivesProgram (tokens source)) ∧
      (∀ data, parse source = .ok data → Datum.tokensOf data = tokens source) ∧
      (∀ ds, parse source = .error ds → ∃ d, ds = [d] ∧
        (BlamesEnd source d ↔ Viable (tokens source)) ∧
        (BlamesToken source d ↔ ¬ Viable (tokens source)))) := by
  refine ⟨parse_of_faulty_ne_nil, fun hnone => ?_⟩
  rw [parse_of_faulty_eq_nil hnone]
  cases hparse : Datum.parse (Lexeme.scan source) with
  | ok data =>
    obtain ⟨htokens, hprogram⟩ := tokensOf_of_parse hparse
    refine ⟨iff_of_true ⟨data, rfl⟩ hprogram, ?_, nofun⟩
    intro data' h
    obtain rfl := Except.ok.inj h
    exact htokens
  | error fault =>
    refine ⟨iff_of_false nofun ?_, nofun, ?_⟩
    · intro hprogram
      obtain ⟨data, hdata⟩ := exists_parse_of_derivesProgram hprogram
      rw [hparse] at hdata
      cases hdata
    · intro ds h
      obtain rfl := Except.error.inj h
      refine ⟨_, rfl, ?_⟩
      -- one of the two is blamed, and which one shows from the tokens
      rcases blames_syntaxDiagnostic hparse with htoken | hend
      · have hnot := htoken.not_viable
        exact ⟨iff_of_false (fun hend => hnot hend.viable) hnot, iff_of_true htoken hnot⟩
      · have hviable := hend.viable
        exact ⟨iff_of_true hend hviable,
          iff_of_false (fun htoken => htoken.not_viable hviable) (not_not_intro hviable)⟩

/-- The diagnostic of the text `( . 3)`, in which a dot comes before the first item. -/
def earlyDot : Diagnostic :=
  ⟨"found ''.'' expected atom, quoted datum, list, or '')''", ⟨2, 3⟩⟩

/-- That text has this diagnostic and no other. -/
theorem parse_earlyDot : parse "( . 3)" = .error [earlyDot] :=
  parse_of_refuses (by decide +kernel)

/-- The theorem at that text: no program begins with its tokens, and the dot is blamed. -/
theorem parse_decides_grammar_earlyDot :
    faulty "( . 3)" = [] ∧ ¬ Viable (tokens "( . 3)") ∧ BlamesToken "( . 3)" earlyDot := by
  have hnone : faulty "( . 3)" = [] := by decide +kernel
  obtain ⟨-, -, hrefused⟩ := (parse_decides_grammar "( . 3)").2 hnone
  obtain ⟨d, hd, hend, htoken⟩ := hrefused _ parse_earlyDot
  obtain rfl := List.singleton_inj.1 hd
  have hnot : ¬ Viable (tokens "( . 3)") := by
    intro hviable
    have hspan := (hend.2 hviable).span_eq
    have hstart : 2 = "( . 3)".utf8ByteSize := congrArg Span.start hspan
    exact absurd hstart (by decide)
  exact ⟨hnone, hnot, htoken.2 hnot⟩

end Reader

end Secd
