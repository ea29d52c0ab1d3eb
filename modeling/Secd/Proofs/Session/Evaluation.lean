import Secd.Proofs.Session.Fates
import Secd.Session

/-!
# How a session evaluates

A session compiles and runs one datum after the other on its own store, with its own prelude. Its
answer is that of the last datum that it has come to, which is the first one that fails, if any
does. Each run ends, with a trace or without one.
-/

namespace Secd

namespace Machine

/-- A traced run that has ended does not depend on how many more steps it was allowed. -/
theorem runTraced_add {fuel : Nat} (extra : Nat) {m : Machine} {out : Transcript}
    {result : Outcome × Machine × Transcript} (h : runTraced fuel m out = some result) :
    runTraced (fuel + extra) m out = some result := by
  induction fuel generalizing m out with
  | zero => cases h
  | succ fuel ih =>
    rw [Nat.succ_add]
    simp only [runTraced] at h ⊢
    split at h
    · exact ih h
    · exact h
    · exact h

end Machine

namespace Fate

/-- The answer of a session to a datum. -/
def answer : Fate → Except EvalError Value
  | .refused ds => .error (.compileErrors ds)
  | .ran _ (.halted v) _ => .ok v
  | .ran _ (.faulted f) _ => .error (.fault f)

variable {f : Fate}

/-- A datum whose answer is a value has this value. -/
theorem exists_value?_of_answer {v : Value} (h : f.answer = .ok v) :
    ∃ s, f.value? = some (v, s) := by
  rcases f with ds | ⟨m, w | fault, s⟩
  · cases h
  · obtain rfl := Except.ok.inj h
    exact ⟨s, rfl⟩
  · cases h

/-- A datum whose answer is an error has no value. -/
theorem value?_of_answer {e : EvalError} (h : f.answer = .error e) : f.value? = none := by
  rcases f with ds | ⟨m, w | fault, s⟩
  · rfl
  · cases h
  · rfl

/-- The answer to data, of which all but the last have a value; `last` is the answer to none. -/
def lineAnswer (last : Option Value) (fates : List Fate) : Except EvalError (Option Value) :=
  match fates.getLast? with
  | none => .ok last
  | some fate => fate.answer.map some

/-- The answer to the data that come after one with a value. -/
theorem lineAnswer_cons {v : Value} (h : f.answer = .ok v) (last : Option Value)
    (fates : List Fate) : lineAnswer last (f :: fates) = lineAnswer (some v) fates := by
  cases fates with
  | nil => exact congrArg (Except.map some) h
  | cons g rest =>
    unfold lineAnswer
    rw [List.getLast?_cons_cons]
    rfl

/-- The fates of the data that are evaluated: those up to the first without a value. -/
def evaluated : List Fate → List Fate
  | [] => []
  | f :: rest => if f.value?.isSome then f :: evaluated rest else [f]

variable {fates : List Fate}

/-- If all data have values, all of them are evaluated. -/
theorem evaluated_eq_self (h : ∀ f ∈ fates, f.value?.isSome = true) : evaluated fates = fates := by
  induction fates with
  | nil => rfl
  | cons f rest ih =>
    obtain ⟨hf, hrest⟩ := List.forall_mem_cons.1 h
    rw [evaluated, if_pos hf, ih hrest]

/-- The first datum without a value is the last that is evaluated. -/
theorem getLast?_evaluated (h : fates.find? (fun f => f.value?.isNone) = some f) :
    (evaluated fates).getLast? = some f := by
  induction fates with
  | nil => cases h
  | cons g rest ih =>
    rw [List.find?_cons] at h
    rw [evaluated]
    cases hvalue : g.value? with
    | none =>
      rw [hvalue] at h
      exact h
    | some v =>
      rw [hvalue] at h
      rw [if_pos Option.isSome_some, List.getLast?_cons, ih h]
      rfl

end Fate

namespace Session

open Machine

/-- What is left of a session after a datum. -/
def left (session : Session) (transcript : Transcript) : Fate → Session
  | .refused _ => session
  | .ran m _ s => { session with lastModule := some m, transcript := transcript, store := s }

variable {session session' : Session} {r : Reading} {fuel : Nat} {f : Fate}

/-! ### One datum -/

/-- A trace changes neither how a run ends nor the machine that it leaves. -/
theorem run_of_runMachine {m : Machine} {outcome : Outcome} {machine : Machine}
    {transcript : Transcript}
    (h : session.runMachine fuel m = some (outcome, machine, transcript)) :
    m.run fuel = some (outcome, machine) := by
  rw [runMachine] at h
  split at h
  · rw [← map_runTraced fuel m session.transcript, h]
    rfl
  · obtain ⟨result, hrun, heq⟩ := Option.map_eq_some_iff.1 h
    obtain ⟨rfl, hrest⟩ := Prod.mk.inj heq
    obtain ⟨rfl, -⟩ := Prod.mk.inj hrest
    exact hrun

/-- A run of a session that has ended does not depend on how many more steps it was allowed. -/
theorem runMachine_add (extra : Nat) {m : Machine} {result : Outcome × Machine × Transcript}
    (h : session.runMachine fuel m = some result) :
    session.runMachine (fuel + extra) m = some result := by
  rw [runMachine] at h ⊢
  split at h
  · next htracing =>
    rw [if_pos htracing]
    exact runTraced_add extra h
  · next htracing =>
    obtain ⟨ended, hrun, rfl⟩ := Option.map_eq_some_iff.1 h
    rw [if_neg htracing, run_add extra hrun]
    rfl

/-- A run that ends does so in a session, with a trace or without one. -/
theorem exists_runMachine (session : Session) {m : Machine} {outcome : Outcome} {machine : Machine}
    (h : m.run fuel = some (outcome, machine)) :
    ∃ transcript, session.runMachine fuel m = some (outcome, machine, transcript) := by
  rw [runMachine]
  split
  · have htraced := map_runTraced fuel m session.transcript
    rw [h] at htraced
    obtain ⟨⟨o, m', transcript⟩, hrun, heq⟩ := Option.map_eq_some_iff.1 htraced
    obtain ⟨rfl, rfl⟩ := Prod.mk.inj heq
    exact ⟨transcript, hrun⟩
  · rw [h]
    exact ⟨session.transcript, rfl⟩

/-- The compiler leaves the store as it is if it refuses a program. -/
theorem store_of_compile_error {e : Sexp} {map : SourceMap} {shape : Shape}
    {prelude : Option Prelude} {s s' : Store} {errors : List CompileError}
    (h : Module.compile e map shape prelude s = (.error errors, s')) : s' = s := by
  rw [Module.compile] at h
  split at h
  · cases (Prod.mk.inj h).1
  · exact (Prod.mk.inj h).2.symm

/-- A datum is compiled with the names of the prelude of the session, and run on its callables, on
the store of the session and under its limits. -/
theorem evaluates_of_evalReading {answer : Except EvalError Value}
    (h : session.evalReading fuel r = some (answer, session')) :
    ∃ f transcript,
      Evaluates session.limits session.prelude session.prelude session.store r f ∧
        answer = f.answer ∧ session' = session.left transcript f := by
  rw [evalReading] at h
  split at h
  · next errors s hcompile =>
    obtain ⟨rfl, rfl⟩ := Prod.mk.inj (Option.some.inj h)
    obtain rfl := store_of_compile_error hcompile
    exact ⟨_, session.transcript, .refused hcompile, rfl, rfl⟩
  · next m s hcompile =>
    cases henv : session.prelude.env s with
    | mk v s₂ =>
      simp only [henv] at h
      obtain ⟨hextends, hclosed, env, rfl, hframed⟩ := Prelude.exists_framed henv
      split at h
      · cases h
      · next outcome machine transcript hrun =>
        have hran := Evaluates.ran hcompile hextends hclosed hframed (run_of_runMachine hrun)
        refine ⟨_, transcript, hran, ?_⟩
        cases outcome with
        | halted v =>
          obtain ⟨rfl, rfl⟩ := Prod.mk.inj (Option.some.inj h)
          exact ⟨rfl, rfl⟩
        | faulted fault =>
          obtain ⟨rfl, rfl⟩ := Prod.mk.inj (Option.some.inj h)
          exact ⟨rfl, rfl⟩

/-- The evaluation of a datum does not depend on how many more steps it was allowed. -/
theorem evalReading_add (extra : Nat) {result : Except EvalError Value × Session}
    (h : session.evalReading fuel r = some result) :
    session.evalReading (fuel + extra) r = some result := by
  rw [evalReading] at h ⊢
  split at h
  · exact h
  · dsimp only at h ⊢
    split at h
    · cases h
    · next hrun =>
      rw [runMachine_add extra hrun]
      exact h

/-- A session comes to an end with each datum. -/
theorem exists_evalReading (hr : session.store.Reads r) :
    ∃ fuel answer session', session.evalReading fuel r = some (answer, session') := by
  cases hcompile : Module.compile r.expression r.map .expression (some session.prelude)
      session.store with
  | mk compiled s =>
    cases compiled with
    | error errors =>
      refine ⟨0, .error (.compileErrors (errors.map (CompileError.diagnostic r.map.root))),
        { session with store := s }, ?_⟩
      rw [evalReading, hcompile]
    | ok m =>
      cases henv : session.prelude.env s with
      | mk v s₂ =>
        obtain ⟨hextends, -, env, rfl, hframed⟩ := Prelude.exists_framed henv
        obtain ⟨-, -, hheld, -⟩ := hr.code hcompile
        have hnil : s₂.Holds .nil := trivial
        obtain ⟨fuel, ⟨outcome, machine⟩, hrun⟩ :=
          exists_run_of_load (hheld.extends hextends) hnil hframed.held session.limits
        obtain ⟨transcript, hrun⟩ := session.exists_runMachine hrun
        rw [Sexp.value] at hrun
        simp only [evalReading, hcompile, henv]
        refine ⟨fuel, ?_⟩
        rw [hrun]
        cases outcome with
        | halted v => exact ⟨_, _, rfl⟩
        | faulted fault => exact ⟨_, _, rfl⟩

/-! ### Data one after the other -/

/-- A session evaluates data one after the other, up to the first that has no value, and what comes
of them are these fates. -/
inductive Evals : Session → List Reading → List Fate → Session → Prop where
  | nil {session : Session} : Evals session [] [] session
  | stop {session : Session} {r : Reading} {rest : List Reading} {f : Fate}
      {transcript : Transcript}
      (h : Evaluates session.limits session.prelude session.prelude session.store r f)
      (hfails : f.value? = none) : Evals session (r :: rest) [f] (session.left transcript f)
  | next {session session' : Session} {r : Reading} {rest : List Reading} {f : Fate}
      {fates : List Fate} {transcript : Transcript}
      (h : Evaluates session.limits session.prelude session.prelude session.store r f)
      (hvalue : f.value?.isSome = true)
      (hrest : Evals (session.left transcript f) rest fates session') :
      Evals session (r :: rest) (f :: fates) session'

/-- The answer to data is that to the last one that has been evaluated. -/
theorem evals_of_evalReadings {rs : List Reading} {last : Option Value}
    {answer : Except EvalError (Option Value)}
    (h : session.evalReadings fuel last rs = some (answer, session')) :
    ∃ fates, session.Evals rs fates session' ∧ answer = Fate.lineAnswer last fates := by
  induction rs generalizing session last with
  | nil =>
    obtain ⟨rfl, rfl⟩ := Prod.mk.inj (Option.some.inj h)
    exact ⟨[], .nil, rfl⟩
  | cons r rest ih =>
    rw [evalReadings] at h
    split at h
    · cases h
    · next e session₁ heval =>
      obtain ⟨f, transcript, hf, hanswer, rfl⟩ := evaluates_of_evalReading heval
      obtain ⟨rfl, rfl⟩ := Prod.mk.inj (Option.some.inj h)
      exact ⟨[f], .stop hf (Fate.value?_of_answer hanswer.symm), congrArg (Except.map some) hanswer⟩
    · next v session₁ heval =>
      obtain ⟨f, transcript, hf, hanswer, rfl⟩ := evaluates_of_evalReading heval
      obtain ⟨fates, hfates, rfl⟩ := ih h
      obtain ⟨s, hvalue⟩ := Fate.exists_value?_of_answer hanswer.symm
      exact ⟨f :: fates, .next hf (Option.isSome_of_eq_some hvalue) hfates,
        (Fate.lineAnswer_cons hanswer.symm _ _).symm⟩

/-- What is to be evaluated later can still be read from the store after a datum. -/
theorem reads_left {transcript : Transcript} (hr : session.store.Reads r)
    (hf : Evaluates session.limits session.prelude session.prelude session.store r f)
    {r' : Reading} (hr' : session.store.Reads r') :
    (session.left transcript f).store.Reads r' := by
  cases f with
  | refused ds => exact hr'
  | ran m outcome s =>
    obtain ⟨hclosed, hkept⟩ := hf.closed hr
    exact ⟨hclosed, (hkept _ hr'.holdsFast).held, hr'.readable⟩

/-- What is there last in a list is in the rest of the list, or else it belongs to the first
item. -/
theorem getLast?_filterMap_cons {α β : Type} (g : α → Option β) (a : α) (rest : List α) :
    ((a :: rest).filterMap g).getLast? = ((rest.filterMap g).getLast?).or (g a) := by
  rw [List.filterMap_cons]
  cases g a with
  | none => exact (Option.or_none).symm
  | some b =>
    dsimp only
    rw [List.getLast?_cons]
    cases (rest.filterMap g).getLast? <;> rfl

/-- The prelude and the limits of a session have not changed, its store is closed, its last module
is the one that has been compiled last, and its store is that of the last run, if there are any. -/
structure Follows (session session' : Session) (fates : List Fate) : Prop where
  prelude : session'.prelude = session.prelude
  limits : session'.limits = session.limits
  closed : session'.store.Closed
  lastModule : session'.lastModule =
    ((fates.filterMap Fate.module?).getLast?).or session.lastModule
  store : some session'.store = ((fates.filterMap Fate.store?).getLast?).or (some session.store)

/-- The store of the session is that of the last run. -/
theorem Follows.store_eq (h : session.Follows session' fates) {m : Module} {o : Outcome} {s : Store}
    (hlast : fates.getLast? = some (.ran m o s)) : session'.store = s := by
  obtain ⟨earlier, rfl⟩ := List.getLast?_eq_some_iff.1 hlast
  have hstore := h.store
  rw [List.filterMap_append,
    show [Fate.ran m o s].filterMap Fate.store? = [s] from rfl, List.getLast?_concat] at hstore
  exact Option.some.inj hstore

/-- Nothing has been evaluated. -/
theorem follows_nil (hs : session.store.Closed) : session.Follows session [] :=
  ⟨rfl, rfl, hs, rfl, rfl⟩

/-- Data have been evaluated after another one. -/
theorem Follows.cons {transcript : Transcript} {fates : List Fate}
    (h : (session.left transcript f).Follows session' fates) :
    session.Follows session' (f :: fates) where
  prelude := h.prelude.trans (by cases f <;> rfl)
  limits := h.limits.trans (by cases f <;> rfl)
  closed := h.closed
  lastModule := by
    rw [h.lastModule, getLast?_filterMap_cons, Option.or_assoc]
    cases f <;> rfl
  store := by
    rw [h.store, getLast?_filterMap_cons, Option.or_assoc]
    cases f <;> rfl

/-- The state of a session after data. -/
theorem Evals.follows {rs : List Reading} {fates : List Fate} (h : session.Evals rs fates session')
    (hs : session.store.Closed) (hrs : ∀ r ∈ rs, session.store.Reads r) :
    session.Follows session' fates := by
  induction h with
  | nil => exact follows_nil hs
  | stop hf _ =>
    obtain ⟨hr, -⟩ := List.forall_mem_cons.1 hrs
    exact (follows_nil (reads_left hr hf hr).closed).cons
  | next hf _ _ ih =>
    obtain ⟨hr, hrest⟩ := List.forall_mem_cons.1 hrs
    exact (ih (reads_left hr hf hr).closed fun r hmem => reads_left hr hf (hrest r hmem)).cons

/-- The evaluation of data does not depend on how many more steps each was allowed. -/
theorem evalReadings_add (extra : Nat) {rs : List Reading} {last : Option Value}
    {result : Except EvalError (Option Value) × Session}
    (h : session.evalReadings fuel last rs = some result) :
    session.evalReadings (fuel + extra) last rs = some result := by
  induction rs generalizing session last with
  | nil => exact h
  | cons r rest ih =>
    rw [evalReadings] at h ⊢
    split at h
    · cases h
    · next heval =>
      rw [evalReading_add extra heval]
      exact h
    · next heval =>
      rw [evalReading_add extra heval]
      exact ih h

/-- A session comes to an end with data that can be read from its store. -/
theorem exists_evalReadings {rs : List Reading} (hrs : ∀ r ∈ rs, session.store.Reads r)
    (last : Option Value) :
    ∃ fuel answer session', session.evalReadings fuel last rs = some (answer, session') := by
  induction rs generalizing session last with
  | nil => exact ⟨0, .ok last, session, rfl⟩
  | cons r rest ih =>
    obtain ⟨hr, hrest⟩ := List.forall_mem_cons.1 hrs
    obtain ⟨fuel, answer, session₁, heval⟩ := exists_evalReading hr
    cases answer with
    | error e =>
      refine ⟨fuel, .error e, session₁, ?_⟩
      rw [evalReadings, heval]
    | ok v =>
      obtain ⟨f, transcript, hf, -, rfl⟩ := evaluates_of_evalReading heval
      obtain ⟨fuel', answer, session', hevals⟩ :=
        ih (fun r' hr' => reads_left hr hf (hrest r' hr')) (some v)
      refine ⟨fuel + fuel', answer, session', ?_⟩
      rw [evalReadings, evalReading_add fuel' heval, Nat.add_comm]
      exact evalReadings_add fuel hevals

/-- Nothing is evaluated after a datum that has failed. -/
theorem evalReadings_append {rs : List Reading} {last : Option Value} {e : EvalError}
    (h : session.evalReadings fuel last rs = some (.error e, session')) (others : List Reading) :
    session.evalReadings fuel last (rs ++ others) = some (.error e, session') := by
  induction rs generalizing session last with
  | nil => cases h
  | cons r rest ih =>
    rw [List.cons_append, evalReadings]
    rw [evalReadings] at h
    split at h
    · cases h
    · exact h
    · exact ih h

/-! ### The same data elsewhere -/

/-- The limits are left as they are. -/
theorem limits_left (session : Session) (transcript : Transcript) (f : Fate) :
    (session.left transcript f).limits = session.limits := by
  cases f <;> rfl

/-- So is the prelude. -/
theorem prelude_left (session : Session) (transcript : Transcript) (f : Fate) :
    (session.left transcript f).prelude = session.prelude := by
  cases f <;> rfl

/-- What comes of the data that a session evaluates is related to what is known to come of all of
them, up to the first without a value. -/
theorem Evals.forall₂_evaluated {Q : Fate → Fate → Prop}
    (hQ : ∀ f f', Q f f' → f.value?.isSome = f'.value?.isSome) {rs : List Reading}
    {fates fates' : List Fate} (h : session.Evals rs fates session')
    (hreads : ∀ r ∈ rs, session.store.Reads r)
    (hrs : List.Forall₂ (fun r f' => ∀ s f, s.Reads r →
      Evaluates session.limits session.prelude session.prelude s r f → Q f f') rs fates') :
    List.Forall₂ Q fates (Fate.evaluated fates') := by
  induction h generalizing fates' with
  | nil =>
    cases hrs
    exact .nil
  | stop hf hfails =>
    obtain ⟨hr, -⟩ := List.forall_mem_cons.1 hreads
    cases hrs with
    | cons hfirst _ =>
      have hagree := hfirst _ _ hr hf
      rw [Fate.evaluated, ← hQ _ _ hagree, hfails]
      exact .cons hagree .nil
  | next hf hvalue _ ih =>
    obtain ⟨hr, hrest⟩ := List.forall_mem_cons.1 hreads
    cases hrs with
    | cons hfirst hothers =>
      have hagree := hfirst _ _ hr hf
      rw [Fate.evaluated, ← hQ _ _ hagree, hvalue]
      refine .cons hagree (ih (fun r hmem => reads_left hr hf (hrest r hmem)) ?_)
      rw [limits_left, prelude_left]
      exact hothers

/-- Two sessions with the same prelude and the same limits evaluate related data. -/
theorem Evals.forall₂ {Q : Fate → Fate → Prop}
    (hQ : ∀ f f', Q f f' → f.value?.isSome = f'.value?.isSome) {other other' : Session}
    {rs rs' : List Reading} {fates fates' : List Fate} (h : session.Evals rs fates session')
    (h' : other.Evals rs' fates' other') (hlimits : other.limits = session.limits)
    (hprelude : other.prelude = session.prelude) (hreads : ∀ r ∈ rs, session.store.Reads r)
    (hreads' : ∀ r ∈ rs', other.store.Reads r)
    (hrs : List.Forall₂ (fun r r' => ∀ s s' f f', s.Reads r → s'.Reads r' →
      Evaluates session.limits session.prelude session.prelude s r f →
        Evaluates session.limits session.prelude session.prelude s' r' f' → Q f f') rs rs') :
    List.Forall₂ Q fates fates' := by
  induction h generalizing other rs' fates' with
  | nil =>
    cases hrs
    cases h'
    exact .nil
  | stop hf hfails =>
    obtain ⟨hr, -⟩ := List.forall_mem_cons.1 hreads
    cases hrs with
    | cons hfirst _ =>
      obtain ⟨hr', -⟩ := List.forall_mem_cons.1 hreads'
      cases h' with
      | stop hf' _ =>
        rw [hlimits, hprelude] at hf'
        exact .cons (hfirst _ _ _ _ hr hr' hf hf') .nil
      | next hf' hvalue' _ =>
        rw [hlimits, hprelude] at hf'
        have hsame := hQ _ _ (hfirst _ _ _ _ hr hr' hf hf')
        rw [hfails, hvalue'] at hsame
        cases hsame
  | next hf hvalue _ ih =>
    obtain ⟨hr, hrest⟩ := List.forall_mem_cons.1 hreads
    cases hrs with
    | cons hfirst hothers =>
      obtain ⟨hr', hrest'⟩ := List.forall_mem_cons.1 hreads'
      cases h' with
      | stop hf' hfails' =>
        rw [hlimits, hprelude] at hf'
        have hsame := hQ _ _ (hfirst _ _ _ _ hr hr' hf hf')
        rw [hvalue, hfails'] at hsame
        cases hsame
      | next hf' _ hothers' =>
        have hf'' := hf'
        rw [hlimits, hprelude] at hf''
        refine .cons (hfirst _ _ _ _ hr hr' hf hf'') (ih hothers' ?_ ?_ ?_ ?_ ?_)
        · rw [limits_left, limits_left, hlimits]
        · rw [prelude_left, prelude_left, hprelude]
        · exact fun r hmem => reads_left hr hf (hrest r hmem)
        · exact fun r hmem => reads_left hr' hf' (hrest' r hmem)
        · rw [limits_left, prelude_left]
          exact hothers

end Session

end Secd
