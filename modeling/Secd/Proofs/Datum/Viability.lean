import Secd.Proofs.Datum.Derivation
import Secd.Proofs.Datum.Layout

/-!
# The parser goes on as long as some program does

The parser takes a sequence of tokens exactly if some program begins with it. One direction is that
it takes all that is derived: a derivation of a datum supplies one datum, wherever it is read, and a
program leads back to the place outside all data. The other one is that it can always be brought to
an end: every open construct can be completed. What is expected at the place that the parser has
reached is therefore what may come next in a program.
-/

namespace Secd

open Grammar

/-- The token as a lexeme, without regard to where it was written. -/
def Token.lexeme (t : Token) : Lexeme := ⟨t, ⟨0, 0⟩⟩

namespace ParserState

/-- The state after several tokens, if each of them may come next. -/
def after? : ParserState → List Lexeme → Option ParserState
  | state, [] => some state
  | state, l :: rest => (state.step? l).bind fun next => next.after? rest

/-- The tokens may come in two parts. -/
theorem after?_append (state : ParserState) (ls ls' : List Lexeme) :
    state.after? (ls ++ ls') = (state.after? ls).bind fun next => next.after? ls' := by
  induction ls generalizing state with
  | nil => rfl
  | cons l rest ih =>
    rw [List.cons_append, after?, after?]
    cases state.step? l with
    | none => rfl
    | some next => exact ih next

/-- The state after a token more at the front. -/
theorem after?_cons {state next : ParserState} {l : Lexeme} (hstep : state.step? l = some next)
    (rest : List Lexeme) : state.after? (l :: rest) = next.after? rest := by
  rw [after?, hstep]
  rfl

/-- The state after a token more at the end. -/
theorem after?_concat {state next : ParserState} {ls : List Lexeme}
    (h : state.after? ls = some next) (l : Lexeme) : state.after? (ls ++ [l]) = next.step? l := by
  rw [after?_append, h, Option.bind_some, after?]
  cases next.step? l <;> rfl

/-- What is known after several tokens. -/
theorem Knows.of_after? {state next : ParserState} {ls : List Lexeme} {ts : List Token}
    (h : state.Knows ts) (hafter : state.after? ls = some next) :
    next.Knows (ts ++ ls.map Lexeme.token) := by
  induction ls generalizing state ts with
  | nil =>
    obtain rfl := Option.some.inj hafter
    rwa [List.map_nil, List.append_nil]
  | cons l rest ih =>
    obtain ⟨middle, hstep, hrest⟩ := Option.bind_eq_some_iff.1 hafter
    have hknows := ih (h.of_step? hstep) hrest
    rwa [List.append_assoc, List.singleton_append] at hknows

/-! ### What is derived is read -/

/-- Wherever a datum may come next, the tokens supply one. -/
def Reads (ts : List Token) : Prop :=
  ∀ ls complete pending, ls.map Lexeme.token = ts →
    ∃ d, (ready complete pending).after? ls = some (supply complete d pending)

/-- Tokens that supply data one after the other lead through the states in which these have been
read. The states `f` are those outside all data, or those of an open list. -/
theorem after?_of_flatten {f : List Datum → ParserState}
    (hf : ∀ ds, ∃ complete pending, f ds = ready complete pending ∧
      ∀ d, supply complete d pending = f (d :: ds))
    {items : List (List Token)} (hitems : ∀ item ∈ items, Reads item) {ls : List Lexeme}
    (hls : ls.map Lexeme.token = items.flatten) (ds : List Datum) :
    ∃ more, more.length = items.length ∧ (f ds).after? ls = some (f (more ++ ds)) := by
  induction items generalizing ls ds with
  | nil =>
    obtain rfl := List.map_eq_nil_iff.1 hls
    exact ⟨[], rfl, rfl⟩
  | cons item items ih =>
    obtain ⟨hitem, hitems⟩ := List.forall_mem_cons.1 hitems
    obtain ⟨first, others, rfl, hfirst, hothers⟩ := List.map_eq_append_iff.1 hls
    obtain ⟨complete, pending, hready, hsupply⟩ := hf ds
    obtain ⟨d, hd⟩ := hitem first complete pending hfirst
    obtain ⟨more, hlength, hmore⟩ := ih hitems hothers (d :: ds)
    refine ⟨more ++ [d], ?_, ?_⟩
    · rw [List.length_append, hlength]
      rfl
    · rw [after?_append, hready, hd, hsupply, Option.bind_some, hmore, List.append_assoc]
      rfl

/-- Tokens that supply data one after the other supply the items of an open list. -/
theorem after?_list_of_flatten {items : List (List Token)} (hitems : ∀ item ∈ items, Reads item)
    {ls : List Lexeme} (hls : ls.map Lexeme.token = items.flatten) (complete : List Datum)
    (start : Nat) (outer : List Construct) : ∃ more : List Datum, more.length = items.length ∧
      (ready complete (.list start [] :: outer)).after? ls =
        some (ready complete (.list start more :: outer)) := by
  obtain ⟨more, hlength, hmore⟩ :=
    after?_of_flatten (f := fun ds => ready complete (.list start ds :: outer))
      (fun ds => ⟨complete, _, rfl, fun _ => rfl⟩) hitems hls []
  rw [List.append_nil] at hmore
  exact ⟨more, hlength, hmore⟩

/-- What is derived from `datum` supplies a datum. -/
theorem reads_of_derivesDatum {ts : List Token} (h : DerivesDatum ts) : Reads ts := by
  induction h with
  | int n =>
    intro ls complete pending hls
    obtain ⟨⟨token, span⟩, rfl, rfl⟩ := List.map_eq_singleton_iff.1 hls
    exact ⟨.int n span, rfl⟩
  | symbol name =>
    intro ls complete pending hls
    obtain ⟨⟨token, span⟩, rfl, rfl⟩ := List.map_eq_singleton_iff.1 hls
    exact ⟨.symbol name span, rfl⟩
  | quoted hdatum ih =>
    intro ls complete pending hls
    obtain ⟨⟨token, span⟩, rest, rfl, rfl, hrest⟩ := List.map_eq_cons_iff.1 hls
    obtain ⟨d, hd⟩ := ih rest complete (.quoted span.start :: pending) hrest
    exact ⟨.quoted d ⟨span.start, d.span.stop⟩, (after?_cons rfl rest).trans hd⟩
  | empty =>
    intro ls complete pending hls
    obtain ⟨⟨token, span⟩, rest, rfl, rfl, hrest⟩ := List.map_eq_cons_iff.1 hls
    obtain ⟨⟨token, span'⟩, rfl, rfl⟩ := List.map_eq_singleton_iff.1 hrest
    exact ⟨.list [] ⟨span.start, span'.stop⟩, rfl⟩
  | list hne hitems ih =>
    intro ls complete pending hls
    obtain ⟨⟨token, span⟩, rest, rfl, rfl, hrest⟩ := List.map_eq_cons_iff.1 hls
    obtain ⟨inside, close, rfl, hinside, hclose⟩ := List.map_eq_append_iff.1 hrest
    obtain ⟨⟨token, span'⟩, rfl, rfl⟩ := List.map_eq_singleton_iff.1 hclose
    obtain ⟨more, -, hmore⟩ := after?_list_of_flatten ih hinside complete span.start pending
    refine ⟨.list more.reverse ⟨span.start, span'.stop⟩, ?_⟩
    rw [after?_cons rfl, after?_concat hmore]
    rfl
  | dotted hne hitems htail ih ihTail =>
    intro ls complete pending hls
    obtain ⟨⟨token, span⟩, rest, rfl, rfl, hrest⟩ := List.map_eq_cons_iff.1 hls
    obtain ⟨inside, others, rfl, hinside, hothers⟩ := List.map_eq_append_iff.1 hrest
    obtain ⟨⟨token, spanOfDot⟩, ending, rfl, rfl, hending⟩ := List.map_eq_cons_iff.1 hothers
    obtain ⟨last, close, rfl, hlast, hclose⟩ := List.map_eq_append_iff.1 hending
    obtain ⟨⟨token, span'⟩, rfl, rfl⟩ := List.map_eq_singleton_iff.1 hclose
    obtain ⟨more, hlength, hmore⟩ := after?_list_of_flatten ih hinside complete span.start pending
    -- a dot may only come after an item, and there is one
    cases more with
    | nil => exact absurd (List.length_eq_zero_iff.1 hlength.symm) hne
    | cons item more =>
      obtain ⟨d, hd⟩ := ihTail last complete (.dotted span.start (item :: more) :: pending) hlast
      refine ⟨.dotted (item :: more).reverse d ⟨span.start, span'.stop⟩, ?_⟩
      rw [after?_cons rfl, after?_append, hmore, Option.bind_some, after?_cons rfl,
        after?_concat hd]
      rfl

/-- A program leads back to the place outside all data. -/
theorem exists_after?_of_derivesProgram {ls : List Lexeme}
    (h : DerivesProgram (ls.map Lexeme.token)) :
    ∃ complete, start.after? ls = some (ready complete []) := by
  obtain ⟨items, hls, hitems⟩ := h
  have hreads : ∀ item ∈ items, Reads item :=
    fun item hitem => reads_of_derivesDatum (hitems item hitem)
  obtain ⟨more, -, hmore⟩ := after?_of_flatten (f := fun ds => ready ds [])
    (fun ds => ⟨ds, [], rfl, fun _ => rfl⟩) hreads hls []
  exact ⟨more ++ [], hmore⟩

/-! ### What has been begun can be completed -/

/-- A datum can be followed by the ends of the constructs around it. -/
theorem exists_after?_supply (complete : List Datum) (d : Datum) (pending : List Construct) :
    ∃ ls done, (supply complete d pending).after? ls = some (ready done []) := by
  induction pending generalizing d with
  | nil => exact ⟨[], d :: complete, rfl⟩
  | cons c outer ih =>
    cases c with
    | quoted start => exact ih _
    | list start items =>
      obtain ⟨ls, done, hls⟩ := ih (.list (d :: items).reverse ⟨start, 0⟩)
      exact ⟨Token.rparen.lexeme :: ls, done, hls⟩
    | dotted start items =>
      obtain ⟨ls, done, hls⟩ := ih (.dotted items.reverse d ⟨start, 0⟩)
      exact ⟨Token.rparen.lexeme :: ls, done, hls⟩

/-- Every state can be brought to the place outside all data. -/
theorem exists_after?_top (state : ParserState) :
    ∃ ls done, state.after? ls = some (ready done []) := by
  cases state with
  | ready complete pending =>
    obtain ⟨ls, done, hls⟩ := exists_after?_supply complete (.int 0 ⟨0, 0⟩) pending
    exact ⟨(Token.int 0).lexeme :: ls, done, hls⟩
  | closing complete start items tail outer =>
    obtain ⟨ls, done, hls⟩ :=
      exists_after?_supply complete (.dotted items.reverse tail ⟨start, 0⟩) outer
    exact ⟨Token.rparen.lexeme :: ls, done, hls⟩

/-! ### What may come next -/

/-- Only outside all data the text may end. -/
theorem place_eq_top_iff {state : ParserState} :
    state.place = .top ↔ ∃ complete, state = ready complete [] := by
  constructor
  · intro h
    rcases state with ⟨complete, _ | ⟨_ | ⟨_, _ | _⟩ | _, _⟩⟩ | _
    · exact ⟨complete, rfl⟩
    all_goals cases h
  · rintro ⟨complete, rfl⟩
    rfl

/-- Whether a token may come next shows from its class. -/
theorem isSome_step? (state : ParserState) (l : Lexeme) : (state.step? l).isSome =
    state.place.continuations.any fun c => l.token.continuation? == some c := by
  obtain ⟨token, span⟩ := l
  rcases state with ⟨complete, _ | ⟨_ | ⟨_, _ | _⟩ | _, _⟩⟩ | _ <;> cases token <;> rfl

/-- The tokens that may come next are those of the classes that are expected. -/
theorem exists_step?_iff {state : ParserState} {l : Lexeme} :
    (∃ next, state.step? l = some next) ↔
      ∃ c ∈ state.place.continuations, l.token.continuation? = some c := by
  rw [← Option.isSome_iff_exists, isSome_step?, List.any_eq_true]
  simp only [beq_iff_eq]

variable {ls : List Lexeme} {state : ParserState}

/-- The tokens that lead to a state are a program exactly if the state is outside all data. -/
theorem derivesProgram_iff (h : start.after? ls = some state) :
    DerivesProgram (ls.map Lexeme.token) ↔ state.place = .top := by
  rw [place_eq_top_iff]
  constructor
  · intro hprogram
    obtain ⟨complete, hcomplete⟩ := exists_after?_of_derivesProgram hprogram
    exact ⟨complete, Option.some.inj (h.symm.trans hcomplete)⟩
  · rintro ⟨complete, rfl⟩
    obtain ⟨hread, hderived, -⟩ := knows_start.of_after? h
    have htokens : Datum.tokensOf complete.reverse = ls.map Lexeme.token := by
      simpa [tokens] using hread
    rw [← htokens]
    exact Datum.derivesProgram_tokensOf fun d hd => hderived d (List.mem_reverse.1 hd)

/-- The tokens that lead to a state are the beginning of a program. -/
theorem viable_of_after? (h : start.after? ls = some state) : Viable (ls.map Lexeme.token) := by
  obtain ⟨more, done, hmore⟩ := state.exists_after?_top
  have hall : start.after? (ls ++ more) = some (ready done []) := by
    rw [after?_append, h]
    exact hmore
  refine ⟨more.map Lexeme.token, ?_⟩
  rw [← List.map_append]
  exact (derivesProgram_iff hall).2 rfl

/-- The beginning of a program leads to a state. -/
theorem exists_after?_of_viable (h : Viable (ls.map Lexeme.token)) :
    ∃ next, start.after? ls = some next := by
  obtain ⟨more, hmore⟩ := h
  have hlexemes : (ls ++ more.map Token.lexeme).map Lexeme.token =
      ls.map Lexeme.token ++ more := by
    rw [List.map_append, List.map_map]
    exact congrArg (ls.map Lexeme.token ++ ·) (List.map_id more)
  rw [← hlexemes] at hmore
  obtain ⟨complete, hcomplete⟩ := exists_after?_of_derivesProgram hmore
  rw [after?_append] at hcomplete
  obtain ⟨next, hnext, -⟩ := Option.bind_eq_some_iff.1 hcomplete
  exact ⟨next, hnext⟩

/-- One more token leaves the beginning of a program exactly if it may come next. -/
theorem viable_concat_iff (h : start.after? ls = some state) (l : Lexeme) :
    Viable (ls.map Lexeme.token ++ [l.token]) ↔ ∃ next, state.step? l = some next := by
  have hconcat : ls.map Lexeme.token ++ [l.token] = (ls ++ [l]).map Lexeme.token := by
    rw [List.map_append, List.map_singleton]
  rw [hconcat]
  constructor
  · intro hviable
    obtain ⟨next, hnext⟩ := exists_after?_of_viable hviable
    exact ⟨next, (after?_concat h l).symm.trans hnext⟩
  · rintro ⟨next, hstep⟩
    exact viable_of_after? ((after?_concat h l).trans hstep)

/-- What is expected at the place of a state is what may come after the tokens that lead to it. -/
theorem expects_of_after? (h : start.after? ls = some state) :
    Expects (ls.map Lexeme.token) state.place.continuations := by
  refine ⟨?_, ?_, ?_⟩
  · cases state.place <;> decide
  · intro t
    exact (viable_concat_iff h t.lexeme).trans exists_step?_iff
  · rw [derivesProgram_iff h]
    cases state.place <;> decide

end ParserState

namespace Datum

open ParserState

/-- The parser ends with data if the tokens lead back to the place outside all data. -/
theorem parseFrom_eq_ok_iff {state : ParserState} {ls : List Lexeme} {data : List Datum} :
    parseFrom state ls = .ok data ↔ state.after? ls = some (.ready data.reverse []) := by
  induction ls generalizing state with
  | nil =>
    obtain ⟨complete, rfl, hdone⟩ | hfault := parseFrom_nil state
    · rw [hdone]
      constructor
      · intro h
        rw [← Except.ok.inj h, List.reverse_reverse]
        rfl
      · intro h
        cases h
        rw [List.reverse_reverse]
    · rw [hfault]
      refine iff_of_false nofun ?_
      intro h
      obtain rfl := Option.some.inj h
      cases hfault
  | cons l rest ih =>
    rw [parseFrom_cons, after?]
    cases state.step? l with
    | none => exact iff_of_false nofun nofun
    | some next => exact ih

/-- The parser stops at the first token that may not come next, or at the end if something is still
open there. -/
theorem exists_of_parseFrom_eq_error {state : ParserState} {ls : List Lexeme} {fault : SyntaxFault}
    (h : parseFrom state ls = .error fault) : ∃ before after next, ls = before ++ after ∧
      state.after? before = some next ∧ fault = ⟨after.head?, next.place⟩ ∧
      (∀ l ∈ after.head?, next.step? l = none) ∧ (after = [] → next.place ≠ .top) := by
  induction ls generalizing state with
  | nil =>
    refine ⟨[], [], state, rfl, rfl, ?_, nofun, ?_⟩
    · obtain ⟨complete, rfl, hdone⟩ | hfault := parseFrom_nil state
      · rw [hdone] at h
        cases h
      · rw [hfault] at h
        exact (Except.error.inj h).symm
    · intro _ htop
      obtain ⟨complete, rfl⟩ := place_eq_top_iff.1 htop
      cases h
  | cons l rest ih =>
    rw [parseFrom_cons] at h
    cases hstep : state.step? l with
    | none =>
      rw [hstep] at h
      refine ⟨[], l :: rest, state, rfl, rfl, (Except.error.inj h).symm, ?_, nofun⟩
      rintro _ ⟨⟩
      exact hstep
    | some next =>
      rw [hstep] at h
      obtain ⟨before, after, last, rfl, hbefore, hfault⟩ := ih h
      exact ⟨l :: before, after, last, rfl, (after?_cons hstep before).trans hbefore, hfault⟩

end Datum

end Secd
