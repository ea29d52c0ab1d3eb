import Secd.Proofs.Diagnostic.Rendering
import Secd.Proofs.Session.Alone
import Secd.Proofs.Session.Reachable

/-!
# Lines of a session

A line that can be read is the sequence of its data, and the text of each of these can be compiled
and run by itself. The session answers to the line what these programs by themselves make one
expect, whatever lines and commands it has had before: only its limits count.
-/

namespace Secd

/-- The value of the first store is the value of the second one, but for the identities of host
callables. -/
def Store.Resembles (s s' : Store) (v v' : Value) : Prop :=
  ∃ σ : Nat → Nat, σ.Injective ∧ s.Corresponds (s'.relabel σ) v (v'.relabel σ)

/-- The last items of lists are related if all items are. -/
theorem rel_getLast? {α β : Type} {R : α → β → Prop} {l : List α} {l' : List β}
    (h : List.Forall₂ R l l') : Option.Rel R l.getLast? l'.getLast? := by
  induction h with
  | nil => exact .none
  | @cons a b rest rest' hfirst _ ih =>
    rw [List.getLast?_cons, List.getLast?_cons]
    generalize rest.getLast? = last at ih ⊢
    generalize rest'.getLast? = last' at ih ⊢
    cases ih with
    | none => exact .some hfirst
    | some hlast => exact .some hlast

namespace Fate

/-- The module of the last program that is compiled, up to the first without a value. -/
def lastModule? (fates : List Fate) : Option Module :=
  ((evaluated fates).filterMap module?).getLast?

end Fate

namespace Session

variable {session session' : Session} {line : String} {own fates : List Fate}

/-- The answer to data that all have values is the last value, if there is one. -/
theorem answer_of_values (hmirrors : List.Forall₂ (Fate.Mirrors line) own fates)
    (hfollows : session.Follows session' own) (hvalues : ∀ f ∈ fates, f.value?.isSome = true) :
    ∃ value, Fate.lineAnswer none own = .ok value ∧
      Option.Rel (fun v expected => session'.store.Resembles expected.2 v expected.1) value
        (fates.getLast?.bind Fate.value?) := by
  have hrel := rel_getLast? hmirrors
  rw [Fate.lineAnswer]
  cases hown : own.getLast? with
  | none =>
    rw [hown] at hrel
    generalize fates.getLast? = last at hrel ⊢
    cases hrel
    exact ⟨none, rfl, .none⟩
  | some g =>
    rw [hown] at hrel
    cases hlast : fates.getLast? with
    | none =>
      rw [hlast] at hrel
      cases hrel
    | some f =>
      rw [hlast] at hrel
      have hvalue := hvalues f (List.mem_of_getLast? hlast)
      cases hrel with
      | some hmirror =>
        obtain ⟨σ, hσ, hagrees⟩ := hmirror
        cases hagrees with
        | refused _ => cases hvalue
        | @ran m m' o o' s s' _ ho =>
          have hstore : session'.store = s := hfollows.store_eq hown
          cases o' with
          | faulted _ => cases hvalue
          | halted w =>
            cases ho with
            | @halted v _ hv => exact ⟨some v, rfl, .some ⟨σ, hσ, hstore ▸ hv⟩⟩

/-- The answer to data of which one has no value is an error that can be told. -/
theorem answer_of_failure (hmirrors : List.Forall₂ (Fate.Mirrors line) own (Fate.evaluated fates))
    {f : Fate} (hfind : fates.find? (fun f => f.value?.isNone) = some f) :
    ∃ e text, Fate.lineAnswer none own = .error e ∧ e.text? line = some text ∧
      ∀ m fault s, f = .ran m (.faulted fault) s → e = .fault fault := by
  have hfails : f.value?.isNone = true :=
    List.find?_some (p := fun f : Fate => f.value?.isNone) hfind
  have hrel := rel_getLast? hmirrors
  rw [Fate.getLast?_evaluated hfind] at hrel
  rw [Fate.lineAnswer]
  generalize own.getLast? = last at hrel ⊢
  cases hrel with
  | @some g _ hmirror =>
    obtain ⟨σ, -, hagrees⟩ := hmirror
    cases hagrees with
    | @refused ds _ hspans =>
      obtain ⟨text, htext⟩ :=
        Diagnostic.exists_reports? hspans EvalError.path "Compilation failed" 4
      exact ⟨.compileErrors ds, text, rfl, htext, nofun⟩
    | @ran m m' o o' s s' _ ho =>
      cases o' with
      | halted v => cases hfails
      | faulted fault =>
        cases ho
        refine ⟨.fault fault, _, rfl, rfl, ?_⟩
        rintro _ _ _ ⟨⟩
        rfl

/-- The last module of the session is that of the last program that has been compiled, if there is
one. -/
theorem Follows.lastModule_of_mirrors (h : session.Follows session' own)
    (hmirrors : List.Forall₂ (Fate.Mirrors line) own (Fate.evaluated fates)) :
    (∀ m, Fate.lastModule? fates = some m → ∃ m', session'.lastModule = some m' ∧ m'.Twins m) ∧
      (Fate.lastModule? fates = none → session'.lastModule = session.lastModule) := by
  have hmodules : List.Forall₂ Module.Twins (own.filterMap Fate.module?)
      ((Fate.evaluated fates).filterMap Fate.module?) :=
    List.rel_filterMap (fun _ _ ⟨_, _, hagrees⟩ => hagrees.module?) hmirrors
  have hrel := rel_getLast? hmodules
  rw [h.lastModule, Fate.lastModule?]
  generalize (own.filterMap Fate.module?).getLast? = last at hrel ⊢
  generalize ((Fate.evaluated fates).filterMap Fate.module?).getLast? = last' at hrel ⊢
  cases hrel with
  | none => exact ⟨nofun, fun _ => rfl⟩
  | some htwins =>
    refine ⟨?_, nofun⟩
    rintro m ⟨⟩
    exact ⟨_, rfl, htwins⟩

/-- What comes of the data of a line in a session is what comes of their own texts. -/
theorem mirrors_of_excerpts {limits : Limits} {q : Prelude} {u : Store}
    (hq : (Prelude.standard u).1 = q) {data : List Datum} {readings : List Reading}
    {texts : List String} (hwithin : ∀ d ∈ data, d.Within line)
    (hreadings : List.Forall₂ (fun d r => ∃ s₀, r = (Datum.read d s₀).1) data readings)
    (hexcerpts : List.Forall₂ (Reader.Excerpt line) data texts)
    (hfates : List.Forall₂ (Fate.Alone limits) texts fates) :
    List.Forall₂ (fun r f' => ∀ s f, s.Reads r → Evaluates limits q q s r f →
      Fate.Mirrors line f f') readings fates := by
  induction hreadings generalizing texts fates with
  | nil =>
    cases hexcerpts
    cases hfates
    exact .nil
  | cons hr _ ih =>
    obtain ⟨hd, hds⟩ := List.forall_mem_cons.1 hwithin
    obtain ⟨s₀, rfl⟩ := hr
    cases hexcerpts with
    | cons hexcerpt hexcerpts =>
      cases hfates with
      | cons hf hfates =>
        exact .cons (fun s f hs hevaluates => hf.mirrors hq hexcerpt hd hs hevaluates)
          (ih hds hexcerpts hfates)

/-- A line that can be read is the sequence of its data, also if it consists of blanks. -/
theorem evalLine_of_parse {data : List Datum} (hparse : Reader.parse line = .ok data)
    (session : Session) (fuel : Nat) :
    session.evalLine fuel line =
      { session with store := (Reader.readData data session.store).2 }.evalReadings fuel none
        (Reader.readData data session.store).1 := by
  rw [evalLine]
  split
  · next hblank =>
    obtain rfl := Reader.eq_nil_of_allBlank hparse hblank
    rfl
  · rw [Reader.readAll, hparse]

/-- What a session does with data, given what is known to come of them. -/
theorem exists_own_of_evalReadings {fuel : Nat} {rs : List Reading}
    {answer : Except EvalError (Option Value)} (hclosed : session.store.Closed)
    (hreads : ∀ r ∈ rs, session.store.Reads r)
    (hrs : List.Forall₂ (fun r f' => ∀ s f, s.Reads r →
      Evaluates session.limits session.prelude session.prelude s r f → Fate.Mirrors line f f')
      rs fates)
    (h : session.evalReadings fuel none rs = some (answer, session')) :
    ∃ own, answer = Fate.lineAnswer none own ∧ session.Follows session' own ∧
      List.Forall₂ (Fate.Mirrors line) own (Fate.evaluated fates) := by
  obtain ⟨own, hevals, hanswer⟩ := evals_of_evalReadings h
  exact ⟨own, hanswer, hevals.follows hclosed hreads,
    hevals.forall₂_evaluated (fun _ _ ⟨_, _, hagrees⟩ => hagrees.isSome_value?_eq) hreads hrs⟩

/-- What a session does with a line of which the data have these fates by themselves. -/
structure Settles (session : Session) (line : String) (fates : List Fate)
    (answer : Except EvalError (Option Value)) (session' : Session) : Prop where
  /-- If all data have values, the answer is the last value; without data, there is none. -/
  value : (∀ f ∈ fates, f.value?.isSome = true) → ∃ value, answer = .ok value ∧
    Option.Rel (fun v expected => session'.store.Resembles expected.2 v expected.1) value
      (fates.getLast?.bind Fate.value?)
  /-- Otherwise the answer is an error that can be told, and it is the fault of the first datum that
  has no value, if that has been compiled. -/
  error : ∀ f, fates.find? (fun f => f.value?.isNone) = some f →
    ∃ e text, answer = .error e ∧ e.text? line = some text ∧
      ∀ m fault s, f = .ran m (.faulted fault) s → e = .fault fault
  /-- Nothing is evaluated after such a datum: the answer and the session are the same with any
  other data after it. -/
  stops : ∀ readings s, Reader.readAll line session.store = (.ok readings, s) →
    ∀ i f, fates[i]? = some f → f.value? = none → ∀ others, ∃ fuel,
      { session with store := s }.evalReadings fuel none (readings.take (i + 1) ++ others) =
        some (answer, session')
  /-- The last module of the session, and its listing, are those of the last datum that is
  compiled. -/
  shown : ∀ m, Fate.lastModule? fates = some m →
    (∃ m', session'.lastModule = some m' ∧ m'.same m = true) ∧
      (session'.command ":disasm").1 = .ok ⟨Listing.ofModule m, false⟩
  /-- If no datum is compiled, the last module stays as it is. -/
  unchanged : Fate.lastModule? fates = none → session'.lastModule = session.lastModule

/-- The command that lists the last module. -/
theorem command_disasm {m : Module} (h : session.lastModule = some m) :
    session.command ":disasm" = (.ok ⟨Listing.ofModule m, false⟩, session) := by
  have hwords : Text.words ":disasm" = [":disasm"] := by decide
  rw [command, hwords]
  simp only [obey, h]
  rfl

/-- Two evaluations of the same data are the same. -/
theorem evalReadings_unique {fuel fuel' : Nat} {rs : List Reading} {last : Option Value}
    {result result' : Except EvalError (Option Value) × Session}
    (h : session.evalReadings fuel last rs = some result)
    (h' : session.evalReadings fuel' last rs = some result') : result = result' := by
  have hlong := evalReadings_add fuel' h
  rw [Nat.add_comm, evalReadings_add fuel h'] at hlong
  exact (Option.some.inj hlong).symm

/-- Nothing is evaluated after a datum that has no value by itself. -/
theorem evalReadings_take {fuel : Nat} {rs : List Reading}
    {answer : Except EvalError (Option Value)} (hclosed : session.store.Closed)
    (hreads : ∀ r ∈ rs, session.store.Reads r)
    (hrs : List.Forall₂ (fun r f' => ∀ s f, s.Reads r →
      Evaluates session.limits session.prelude session.prelude s r f → Fate.Mirrors line f f')
      rs fates)
    (h : session.evalReadings fuel none rs = some (answer, session')) {i : Nat} {f : Fate}
    (hf : fates[i]? = some f) (hfails : f.value? = none) (others : List Reading) :
    ∃ fuel, session.evalReadings fuel none (rs.take (i + 1) ++ others) =
      some (answer, session') := by
  have htaken : ∀ r ∈ rs.take (i + 1), session.store.Reads r :=
    fun r hr => hreads r (List.mem_of_mem_take hr)
  obtain ⟨fuel₁, answer₁, session₁, h₁⟩ := exists_evalReadings htaken none
  obtain ⟨own, rfl, -, hmirrors⟩ :=
    exists_own_of_evalReadings hclosed htaken (List.forall₂_take (i + 1) hrs) h₁
  -- one of the data that are left has no value, so the answer is an error
  have hmem : f ∈ fates.take (i + 1) := by
    refine List.mem_of_getElem? (i := i) ?_
    rw [List.getElem?_take_of_lt (Nat.lt_succ_self i), hf]
  have hsome : ((fates.take (i + 1)).find? fun f => f.value?.isNone).isSome = true :=
    List.find?_isSome.2 ⟨f, hmem, Option.isNone_iff_eq_none.2 hfails⟩
  obtain ⟨first, hfirst⟩ := Option.isSome_iff_exists.1 hsome
  obtain ⟨e, -, herror, -⟩ := answer_of_failure hmirrors hfirst
  rw [herror] at h₁
  have hall := evalReadings_append h₁ (rs.drop (i + 1))
  rw [List.take_append_drop] at hall
  obtain ⟨rfl, rfl⟩ := Prod.mk.inj (evalReadings_unique h hall)
  exact ⟨fuel₁, evalReadings_append h₁ others⟩

/-! ### Other sessions -/

/-- The same comes of a datum that is read twice, with the same prelude. -/
theorem agrees_read (d : Datum) {limits : Limits} {q : Prelude} {s₀ s₀' s s' : Store}
    {f f' : Fate} (hs : s.Reads (d.read s₀).1) (hs' : s'.Reads (d.read s₀').1)
    (h : Evaluates limits q q s (d.read s₀).1 f)
    (h' : Evaluates limits q q s' (d.read s₀').1 f') : f.Agrees Eq id f' := by
  have hq := q.relabels_id
  have hroot : (d.read s₀).1.map.root = (d.read s₀').1.map.root := rfl
  refine Evaluates.agrees (fun _ _ => id) hq hq rfl hroot (d.congruent_read s₀ s₀') ?_ hs hs' h h'
  exact fun _ _ hfound => CompileError.map_diagnostic_eq (CompileError.agrees_sort hfound) d.span

/-- The same comes of data that are read twice. -/
theorem forall₂_agrees_readData (data : List Datum) (limits : Limits) (q : Prelude)
    (s₀ s₀' : Store) :
    List.Forall₂ (fun r r' => ∀ s s' f f', s.Reads r → s'.Reads r' →
      Evaluates limits q q s r f → Evaluates limits q q s' r' f' → f.Agrees Eq id f')
      (Reader.readData data s₀).1 (Reader.readData data s₀').1 := by
  induction data generalizing s₀ s₀' with
  | nil => exact .nil
  | cons d data ih =>
    exact .cons (fun s s' f f' hs hs' h h' => agrees_read d hs hs' h h') (ih _ _)

/-- If the same comes of all data in two sessions, the answers are the same. -/
theorem sameResult_lineAnswer {other other' : Session} {own' : List Fate}
    (hagrees : List.Forall₂ (Fate.Agrees Eq id) own own') (h : session.Follows session' own)
    (h' : other.Follows other' own') :
    SameResult (Option.Rel (session'.store.Corresponds other'.store)) (Fate.lineAnswer none own)
      (Fate.lineAnswer none own') := by
  have hrel := rel_getLast? hagrees
  rw [Fate.lineAnswer, Fate.lineAnswer]
  cases hlast : own.getLast? with
  | none =>
    rw [hlast] at hrel
    generalize own'.getLast? = last' at hrel ⊢
    cases hrel
    exact .ok .none
  | some f =>
    cases hlast' : own'.getLast? with
    | none =>
      rw [hlast, hlast'] at hrel
      cases hrel
    | some f' =>
      rw [hlast, hlast'] at hrel
      cases hrel with
      | some hagree =>
        cases hagree with
        | refused hds =>
          obtain rfl := hds
          exact .error _
        | @ran m m' o o' s s' _ ho =>
          rw [Store.relabel_id] at ho
          cases o' with
          | faulted fault =>
            cases ho
            exact .error _
          | halted w =>
            rw [Outcome.relabel, Value.relabel_id] at ho
            cases ho with
            | halted hv =>
              rw [h.store_eq hlast, h'.store_eq hlast']
              exact .ok (.some hv)

/-! ### The theorem -/

/-- Something comes of the text of each datum by itself. -/
theorem exists_fates {data : List Datum} {texts : List String}
    (h : List.Forall₂ (Reader.Excerpt line) data texts) (limits : Limits) :
    ∃ fates, List.Forall₂ (Fate.Alone limits) texts fates := by
  induction h with
  | nil => exact ⟨[], .nil⟩
  | cons hexcerpt _ ih =>
    obtain ⟨-, d', hparse, -⟩ := hexcerpt
    obtain ⟨f, hf⟩ := Fate.exists_alone hparse limits
    obtain ⟨fates, hfates⟩ := ih
    exact ⟨f :: fates, .cons hf hfates⟩

/-- A line that can be read is the sequence of its data, and of each datum comes what comes of its
text if that is compiled by itself with a standard prelude, and run without arguments under the
limits of the session. The session answers with the last value, but for the identities of host
callables, or with an error if one of the data has no value; then it evaluates nothing after the
first of these. The module that it can list is that of the last datum that has been compiled. All
this is so in every state that the session comes to by lines and commands, with a trace or without
one, and the answer is the same in all states with the same limits. -/
theorem settles_of_parse (hsession : session.Reachable) {data : List Datum}
    (hparse : Reader.parse line = .ok data) :
    ∃ texts fuel answer session',
      List.Forall₂ (fun d text => d.span.slice? line = some text) data texts ∧
      (∀ extra, session.evalLine (fuel + extra) line = some (answer, session')) ∧
      (∃ fates, List.Forall₂ (Fate.Alone session.limits) texts fates) ∧
      (∀ fates, List.Forall₂ (Fate.Alone session.limits) texts fates →
        session.Settles line fates answer session') ∧
      ∀ other other' fuel' answer', Reachable other → other.limits = session.limits →
        other.evalLine fuel' line = some (answer', other') →
          SameResult (Option.Rel (session'.store.Corresponds other'.store)) answer answer' := by
  obtain ⟨hprelude, hclosed⟩ := hsession.sound
  obtain ⟨texts, hexcerpts⟩ := Reader.exists_excerpts hparse
  have hwithin := Reader.within_of_parse hparse
  have hread (s : Store) : Reader.readAll line s =
      (.ok (Reader.readData data s).1, (Reader.readData data s).2) := by
    rw [Reader.readAll, hparse]
  let reading : Session := { session with store := (Reader.readData data session.store).2 }
  obtain ⟨hclosed', hreads⟩ : reading.store.Closed ∧
      ∀ r ∈ (Reader.readData data session.store).1, reading.store.Reads r :=
    Reader.reads_of_readAll (hread session.store) hclosed
  obtain ⟨fuel, answer, session', heval⟩ := exists_evalReadings hreads none
  refine ⟨texts, fuel, answer, session', hexcerpts.imp fun _ _ h => h.1, fun extra => ?_,
    exists_fates hexcerpts session.limits, fun fates hfates => ?_, ?_⟩
  · rw [evalLine_of_parse hparse]
    exact evalReadings_add extra heval
  · have hrs := mirrors_of_excerpts hprelude.symm hwithin
      (Reader.forall₂_read data session.store) hexcerpts hfates
    obtain ⟨own, rfl, hfollows, hmirrors⟩ := exists_own_of_evalReadings hclosed' hreads hrs heval
    have hmodules := hfollows.lastModule_of_mirrors hmirrors
    exact {
      value := fun hvalues => by
        rw [Fate.evaluated_eq_self hvalues] at hmirrors
        exact answer_of_values hmirrors hfollows hvalues
      error := fun f hfind => answer_of_failure hmirrors hfind
      stops := fun readings s hline i f hf hfails others => by
        rw [hread] at hline
        obtain ⟨heq, rfl⟩ := Prod.mk.inj hline
        obtain rfl := Except.ok.inj heq
        exact evalReadings_take hclosed' hreads hrs heval hf hfails others
      shown := fun m hm => by
        obtain ⟨m', hlast, htwins⟩ := hmodules.1 m hm
        refine ⟨⟨m', hlast, htwins.same⟩, ?_⟩
        rw [command_disasm hlast, htwins.listing]
      unchanged := hmodules.2 }
  · intro other other' fuel' answer' hother hlimits hline
    obtain ⟨hprelude', hclosedOther⟩ := hother.sound
    obtain ⟨hclosedOther', hreads'⟩ :=
      Reader.reads_of_readAll (hread other.store) hclosedOther
    rw [evalLine_of_parse hparse] at hline
    obtain ⟨own, hevals, rfl⟩ := evals_of_evalReadings heval
    obtain ⟨own', hevals', rfl⟩ := evals_of_evalReadings hline
    have hagrees : List.Forall₂ (Fate.Agrees Eq id) own own' :=
      hevals.forall₂ (fun _ _ hagree => hagree.isSome_value?_eq) hevals' hlimits
        (hprelude'.trans hprelude.symm) hreads hreads'
        (forall₂_agrees_readData data session.limits session.prelude _ _)
    exact sameResult_lineAnswer hagrees (hevals.follows hclosed' hreads)
      (hevals'.follows hclosedOther' hreads')

/-- The theorem at a line of two data, in a session with traces: the first one has a value, but the
second one is not declared. So the line has an error, and the module of the first one can be
listed. -/
theorem settles_of_parse_undeclared :
    Reachable (start.command ":trace").2 ∧
      ∃ data m s fuel e session', Reader.parse "5 X" = .ok data ∧
        Fate.Alone {} "5" (.ran m (.halted (.int 5)) s) ∧
        (start.command ":trace").2.evalLine fuel "5 X" = some (.error e, session') ∧
        (∃ text, e.text? "5 X" = some text) ∧
        ∃ m', session'.lastModule = some m' ∧ m'.same m = true := by
  have hsession : Reachable (start.command ":trace").2 := Reachable.start.command ":trace"
  have hline : Reader.parse "5 X" = .ok [.int 5 ⟨0, 1⟩, .symbol "X" ⟨2, 3⟩] := by
    have hscan : Lexeme.scan "5 X" = [⟨.int 5, ⟨0, 1⟩⟩, ⟨.symbol "X", ⟨2, 3⟩⟩] := by
      decide +kernel
    rw [Reader.parse, hscan]
    rfl
  have hnumber : Reader.parseOne "5" = .ok (.int 5 ⟨0, 1⟩) := by
    have hscan : Lexeme.scan "5" = [⟨.int 5, ⟨0, 1⟩⟩] := by decide +kernel
    rw [Reader.parseOne, Reader.parse, hscan]
    rfl
  have hname : Reader.parseOne "X" = .ok (.symbol "X" ⟨0, 1⟩) := by
    have hscan : Lexeme.scan "X" = [⟨.symbol "X", ⟨0, 1⟩⟩] := by decide +kernel
    rw [Reader.parseOne, Reader.parse, hscan]
    rfl
  obtain ⟨m, s, hvalue⟩ : ∃ m s, Fate.Alone {} "5" (.ran m (.halted (.int 5)) s) :=
    ⟨_, _, @Fate.Alone.ran _ _ "" _ _ 3 _ _ (CommandLine.compileText_of_parseOne hnumber "") rfl⟩
  obtain ⟨ds, hrefused⟩ : ∃ ds, Fate.Alone {} "X" (.refused ds) :=
    ⟨_, .refused (CommandLine.compileText_of_parseOne hname "")⟩
  obtain ⟨texts, fuel, answer, session', hslices, heval, -, hsettles, -⟩ :=
    settles_of_parse hsession hline
  obtain rfl : texts = ["5", "X"] := by
    have hfirst : Span.slice? ⟨0, 1⟩ "5 X" = some "5" := by decide +kernel
    have hsecond : Span.slice? ⟨2, 3⟩ "5 X" = some "X" := by decide +kernel
    cases hslices with
    | cons h hslices =>
      obtain rfl := Option.some.inj (h.symm.trans hfirst)
      cases hslices with
      | cons h hslices =>
        obtain rfl := Option.some.inj (h.symm.trans hsecond)
        cases hslices
        rfl
  have hfates := hsettles _ (.cons hvalue (.cons hrefused .nil))
  obtain ⟨e, text, rfl, htext, -⟩ := hfates.error (.refused ds) rfl
  exact ⟨hsession, _, m, s, fuel, e, session', hline, hvalue, heval 0, ⟨text, htext⟩,
    (hfates.shown m rfl).1⟩

end Session

end Secd
