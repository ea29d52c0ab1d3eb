import Secd.Proofs.Session.Evaluation
import Secd.Session.Command

/-!
# The states of a session

Lines and commands bring a session from one state to the next. They change neither its prelude nor
that its store is closed, and whatever is read from a line can be read from its store.
-/

namespace Secd

namespace Reader

/-- What has been read from a text can be read from a closed store. -/
theorem reads_of_readAll {line : String} {s s' : Store} {rs : List Reading}
    (h : readAll line s = (.ok rs, s')) (hs : s.Closed) : s'.Closed ∧ ∀ r ∈ rs, s'.Reads r := by
  obtain ⟨hclosed, hheld⟩ := holds_of_readAll h
  exact ⟨hclosed hs, fun r hr => ⟨hclosed hs, hheld r hr, allAtoms_of_readAll h r hr⟩⟩

/-- A text that cannot be read leaves the store as it is. -/
theorem store_of_readAll_error {line : String} {s s' : Store} {ds : List Diagnostic}
    (h : readAll line s = (.error ds, s')) : s' = s := by
  rw [readAll] at h
  split at h
  · cases (Prod.mk.inj h).1
  · exact (Prod.mk.inj h).2.symm

end Reader

namespace Session

/-- The states that a session comes to by lines and by commands. -/
inductive Reachable : Session → Prop where
  | start : Reachable start
  | line {session session' : Session} {fuel : Nat} {line : String}
      {answer : Except EvalError (Option Value)} (h : Reachable session)
      (hline : session.evalLine fuel line = some (answer, session')) : Reachable session'
  | command {session : Session} (h : Reachable session) (line : String) :
      Reachable (session.command line).2
  | takeTrace {session : Session} (h : Reachable session) : Reachable session.takeTrace.2

/-- The prelude of the session is the one that it began with, and its store is closed. -/
structure Sound (session : Session) : Prop where
  prelude : session.prelude = (Prelude.standard .empty).1
  closed : session.store.Closed

variable {session session' : Session}

/-- A new session is sound. -/
theorem sound_start : start.Sound := by
  have hclosed : (Prelude.standard .empty).2.Closed :=
    Prelude.closed_standard rfl Store.closed_empty
  exact ⟨rfl, hclosed⟩

/-- A line leaves the session sound. -/
theorem Sound.line (h : session.Sound) {fuel : Nat} {line : String}
    {answer : Except EvalError (Option Value)}
    (hline : session.evalLine fuel line = some (answer, session')) : session'.Sound := by
  rw [evalLine] at hline
  split at hline
  · obtain ⟨-, rfl⟩ := Prod.mk.inj (Option.some.inj hline)
    exact h
  · split at hline
    · next hread =>
      obtain ⟨-, rfl⟩ := Prod.mk.inj (Option.some.inj hline)
      obtain rfl := Reader.store_of_readAll_error hread
      exact h
    · next hread =>
      obtain ⟨hclosed, hreads⟩ := Reader.reads_of_readAll hread h.closed
      obtain ⟨fates, hevals, -⟩ := evals_of_evalReadings hline
      have hfollows := hevals.follows hclosed hreads
      exact ⟨hfollows.prelude.trans h.prelude, hfollows.closed⟩

/-- A command begins the session anew, or it leaves the prelude and the store as they are. -/
theorem obey_cases (session : Session) (words : List String) :
    (session.obey words).2 = start ∨ (session.obey words).2.prelude = session.prelude ∧
      (session.obey words).2.store = session.store := by
  unfold Session.obey
  split
  · exact .inr ⟨rfl, rfl⟩
  · split
    case h_5 | h_6 => exact .inl rfl
    all_goals (repeat' split) <;> exact .inr ⟨rfl, rfl⟩

/-- A command leaves the session sound. -/
theorem Sound.obey (h : session.Sound) (words : List String) : (session.obey words).2.Sound := by
  rcases session.obey_cases words with hstart | ⟨hprelude, hstore⟩
  · rw [hstart]
    exact sound_start
  · exact ⟨hprelude.trans h.prelude, hstore ▸ h.closed⟩

/-- Every state is sound. -/
theorem Reachable.sound (h : session.Reachable) : session.Sound := by
  induction h with
  | start => exact sound_start
  | line _ hline ih => exact ih.line hline
  | command _ line ih => exact ih.obey (Text.words line)
  | takeTrace _ ih => exact ⟨ih.prelude, ih.closed⟩

end Session

end Secd
