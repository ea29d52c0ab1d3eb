import Secd.Proofs.Machine.Turn

/-!
# A value at the bottom of the stack

The instructions take their operands from the top of the stack, so a value at the bottom makes no
difference unless the others run out. When a function is called, the values of the caller come to
the dump, and the value at the bottom is then the last one of an entry. The function that has been
called cannot get at it, whatever code it runs: it may take away entries that have been put on the
dump since, but when it takes this entry, it has returned.

So there are two places for the value: the bottom of the stack, and the bottom of the stack in an
entry of the dump. In the first one the rules of the machine say what a step does, and in the second
one it is said by how instructions deal with the books.
-/

namespace Secd

/-- The registers with the value `x` at the bottom of the stack. -/
def Registers.raise (r : Registers) (x : Value) : Registers := { r with stack := r.stack ++ [x] }

/-- The dump `dump'` is `dump` with one more call on it. -/
def Calls (dump dump' : Array DumpEntry) : Prop :=
  ∃ stack home after, dump' = dump.push (.call stack home after)

/-- The effects are the same, but for the value `x` that the second one has at the bottom of the
stack. If a function is called, the value goes to the dump together with the rest of the stack. -/
inductive Effect.Raised (r : Registers) (x : Value) : Effect → Effect → Prop where
  | proceed {r' : Registers} (hdump : ¬ Calls r.dump r'.dump) :
      Raised r x (.proceed r') (.proceed (r'.raise x))
  | call {s : Store} {env control home after : Value} {stack : List Value} :
      Raised r x (.proceed ⟨s, [], env, control, r.dump.push (.call stack home after)⟩)
        (.proceed ⟨s, [], env, control, r.dump.push (.call (stack ++ [x]) home after)⟩)
  | stop {v : Value} {r' : Registers} : Raised r x (.stop v r') (.stop v (r'.raise x))
  | fault {f : Fault} : Raised r x (.fault f) (.fault f)

/-- The size of the dump after the effect, if the machine goes on. -/
def Effect.depth : Effect → Nat
  | .proceed r => r.dump.size
  | _ => 0

/-- The value at the bottom makes no difference to the size of the dump. -/
theorem Effect.Raised.depth_eq {r : Registers} {x : Value} {e e' : Effect} (h : e.Raised r x e') :
    e'.depth = e.depth := by
  cases h with
  | call => rw [depth, depth, Array.size_push, Array.size_push]
  | _ => rfl

/-- A dump that is no larger has no more calls. -/
theorem not_calls_of_size_le {dump dump' : Array DumpEntry} (h : dump'.size ≤ dump.size) :
    ¬ Calls dump dump' := by
  rintro ⟨stack, home, after, rfl⟩
  rw [Array.size_push] at h
  exact Nat.not_succ_le_self _ h

/-- A rule that applies to registers also applies if there is one more value at the bottom of the
stack, unless the rule is that a function returns. -/
theorem Transition.raise {r : Registers} {e : Effect} (h : Transition r e)
    (hdump : ∀ rest, ¬ Calls rest r.dump) (x : Value) :
    ∃ e', Transition (r.raise x) e' ∧ e.Raised r x e' := by
  -- the values that an instruction takes are on top of the value at the bottom
  have hraise (vs : List Value) {stack : List Value} (hstack : r.stack = vs ++ stack) :
      (r.raise x).stack = vs ++ (stack ++ [x]) := by
    rw [Registers.raise, hstack, List.append_assoc]
  have hkept : ¬ Calls r.dump r.dump := not_calls_of_size_le (Nat.le_refl _)
  cases h with
  | ld hnext haddress hframe hready hslot =>
    exact ⟨_, .ld hnext haddress hframe hready hslot, .proceed hkept⟩
  | ldNoFrame hnext haddress hframe => exact ⟨_, .ldNoFrame hnext haddress hframe, .fault⟩
  | ldPending hnext haddress hframe hpending =>
    exact ⟨_, .ldPending hnext haddress hframe hpending, .fault⟩
  | ldNoSlot hnext haddress hframe hready hslot =>
    exact ⟨_, .ldNoSlot hnext haddress hframe hready hslot, .fault⟩
  | ldc hnext => exact ⟨_, .ldc hnext, .proceed hkept⟩
  | ldf hnext => exact ⟨_, .ldf hnext, .proceed hkept⟩
  | apClosure hnext hstack => exact ⟨_, .apClosure hnext (hraise [_, _] hstack), .call⟩
  | apAtom hnext hstack hatom =>
    exact ⟨_, .apAtom hnext (hraise [_, _] hstack) hatom, .fault⟩
  | apHost hnext hstack hlist harity hcall =>
    exact ⟨_, .apHost hnext (hraise [_, _] hstack) hlist harity hcall, .proceed hkept⟩
  | apHostError hnext hstack hlist harity hcall =>
    exact ⟨_, .apHostError hnext (hraise [_, _] hstack) hlist harity hcall, .fault⟩
  | apHostArity hnext hstack hlist harity =>
    exact ⟨_, .apHostArity hnext (hraise [_, _] hstack) hlist harity, .fault⟩
  | apHostImproper hnext hstack hlist =>
    exact ⟨_, .apHostImproper hnext (hraise [_, _] hstack) hlist, .fault⟩
  | rtn hnext hstack htop => exact absurd ⟨_, _, _, htop⟩ (hdump _)
  | dum hnext => exact ⟨_, .dum hnext, .proceed hkept⟩
  | rap hnext hstack henv hpending hcaptured =>
    exact ⟨_, .rap hnext (hraise [_, _] hstack) henv hpending hcaptured, .call⟩
  | rapUnmatched hnext hstack hnone =>
    exact ⟨_, .rapUnmatched hnext (hraise [_, _] hstack) hnone, .fault⟩
  | sel hnext hstack =>
    refine ⟨_, .sel hnext (hraise [_] hstack), .proceed ?_⟩
    rintro ⟨_, _, _, hpush⟩
    cases (Array.push_eq_push.1 hpush).1
  | join hnext htop =>
    refine ⟨_, .join hnext htop, .proceed (not_calls_of_size_le ?_)⟩
    rw [htop, Array.size_push]
    exact Nat.le_succ _
  | car hnext hstack => exact ⟨_, .car hnext (hraise [_] hstack), .proceed hkept⟩
  | carAtom hnext hstack => exact ⟨_, .carAtom hnext (hraise [_] hstack), .fault⟩
  | cdr hnext hstack => exact ⟨_, .cdr hnext (hraise [_] hstack), .proceed hkept⟩
  | cdrAtom hnext hstack => exact ⟨_, .cdrAtom hnext (hraise [_] hstack), .fault⟩
  | atom hnext hstack => exact ⟨_, .atom hnext (hraise [_] hstack), .proceed hkept⟩
  | arithmetic hnext hstack hdivisor hresult =>
    exact ⟨_, .arithmetic hnext (hraise [_, _] hstack) hdivisor hresult, .proceed hkept⟩
  | arithmeticOverflow hnext hstack hdivisor hresult =>
    exact ⟨_, .arithmeticOverflow hnext (hraise [_, _] hstack) hdivisor hresult, .fault⟩
  | arithmeticZero hnext hstack hdivisor =>
    exact ⟨_, .arithmeticZero hnext (hraise [_, _] hstack) hdivisor, .fault⟩
  | arithmeticFirst hnext hstack ha =>
    exact ⟨_, .arithmeticFirst hnext (hraise [_, _] hstack) ha, .fault⟩
  | arithmeticSecond hnext hstack hb =>
    exact ⟨_, .arithmeticSecond hnext (hraise [_] hstack) hb, .fault⟩
  | eq hnext hstack => exact ⟨_, .eq hnext (hraise [_, _] hstack), .proceed hkept⟩
  | leq hnext hstack => exact ⟨_, .leq hnext (hraise [_, _] hstack), .proceed hkept⟩
  | leqFirst hnext hstack ha =>
    exact ⟨_, .leqFirst hnext (hraise [_] hstack) ha, .fault⟩
  | leqSecond hnext hstack hb =>
    exact ⟨_, .leqSecond hnext (hraise [_, _] hstack) hb, .fault⟩
  | cons hnext hstack => exact ⟨_, .cons hnext (hraise [_, _] hstack), .proceed hkept⟩
  | stop hnext hstack => exact ⟨_, .stop hnext (hraise [_] hstack), .stop⟩

namespace Machine

open Secd.Action

/-- The results of two steps are alike: both machines go on and are related, or both stop with the
same result and the same store, or both fault in the same way. -/
inductive SameStep (R : Machine → Machine → Prop) :
    EStateM.Result Fault Machine Flow → EStateM.Result Fault Machine Flow → Prop where
  | proceed {m m' : Machine} (h : R m m') : SameStep R (.ok .proceed m) (.ok .proceed m')
  | stop {v : Value} {m m' : Machine} (h : m'.store = m.store) :
      SameStep R (.ok (.stop v) m) (.ok (.stop v) m')
  | fault {f : Fault} {m m' : Machine} : SameStep R (.error f m) (.error f m')

/-- Steps that are alike are alike for a weaker relation. -/
theorem SameStep.imp {R Q : Machine → Machine → Prop}
    {result result' : EStateM.Result Fault Machine Flow} (h : SameStep R result result')
    (hRQ : ∀ m m', R m m' → Q m m') : SameStep Q result result' := by
  cases h with
  | proceed h => exact .proceed (hRQ _ _ h)
  | stop h => exact .stop h
  | fault => exact .fault

/-- Without a limit on the steps, every step may be taken. -/
theorem not_exhausted_of_none {m : Machine} (h : m.limits.maxSteps = none) : ¬ m.Exhausted := by
  rintro ⟨limit, hsome, -⟩
  cases h.symm.trans hsome

/-! ### At the bottom of the stack -/

/-- Without a limit on the steps, a step has the effect of the rule that applies, if the dump has
room for it, and otherwise it faults. -/
theorem step_of_transition {m : Machine} {e : Effect} (h : Transition m.registers e)
    (hsteps : m.limits.maxSteps = none) (hsize : m.dump.size ≤ m.limits.maxDump) :
    (e.depth ≤ m.limits.maxDump → m.Obeys e) ∧
      (m.limits.maxDump < e.depth → ∃ m', step.run m = .error .dumpOverflow m') := by
  rcases obeys_of_transition h with hcut | hobeys
  · cases hcut with
    | steps hlimit _ => cases hsteps.symm.trans hlimit
    | dump hfull hstep =>
      exact ⟨fun hroom => absurd hfull (Nat.not_lt.2 hroom), fun _ => ⟨_, hstep⟩⟩
  · refine ⟨fun _ => hobeys, fun hfull => ?_⟩
    cases e with
    | proceed r =>
      obtain ⟨m', hstep, rfl, -⟩ := hobeys
      have hfull : m.limits.maxDump < m'.dump.size := hfull
      obtain ⟨-, -, -, hle⟩ := measures_of_ok hstep
      omega
    | stop v r => exact absurd hfull (Nat.not_lt_zero _)
    | fault f => exact absurd hfull (Nat.not_lt_zero _)

/-- The machine `m'` is like `m`, with the value `x` at the bottom of the stack. -/
structure Raises (x : Value) (m m' : Machine) : Prop where
  registers : m'.registers = m.registers.raise x
  limits : m'.limits = m.limits

/-- The machine `m'` is like `m`, except for the books; and the dumps are the same, but for the
value `x`, which lies at the bottom of the stack in one entry. The entries before it are those in
`low`. -/
structure Buries (x : Value) (low : Array DumpEntry) (stack : List Value) (home after : Value)
    (m m' : Machine) : Prop where
  same : m' = m.withBooks m'.books
  limits : m'.limits = m.limits
  dump : ∃ high, m.dump = low.push (.call stack home after) ++ high ∧
    m'.dump = low.push (.call (stack ++ [x]) home after) ++ high

variable {x : Value} {low : Array DumpEntry} {stack : List Value} {home after : Value}
  {m m' : Machine}

/-- With a value at the bottom of the stack, a step has the same effect by the same rule. -/
theorem Raises.sameStep (h : Raises x m m') {e : Effect} (he : Transition m.registers e)
    (hdump : ∀ rest, ¬ Calls rest m.dump) (hsteps : m.limits.maxSteps = none)
    (hsize : m.dump.size ≤ m.limits.maxDump) :
    SameStep (fun m₁ m₁' => e = .proceed m₁.registers ∧
      (¬ Calls m.dump m₁.dump ∧ Raises x m₁ m₁' ∨
        ∃ stack home after, m₁.dump = m.dump.push (.call stack home after) ∧
          Buries x m.dump stack home after m₁ m₁')) (step.run m) (step.run m') := by
  obtain ⟨e', he', hraised⟩ := he.raise hdump x
  rw [← h.registers] at he'
  have hsame : m'.dump.size = m.dump.size := congrArg (fun r => r.dump.size) h.registers
  obtain ⟨hobeys, hoverflows⟩ := step_of_transition he hsteps hsize
  obtain ⟨hobeys', hoverflows'⟩ := step_of_transition he' (by rw [h.limits, hsteps])
    (by rw [h.limits, hsame]; exact hsize)
  rw [hraised.depth_eq, h.limits] at hobeys' hoverflows'
  by_cases hroom : e.depth ≤ m.limits.maxDump
  · replace hobeys := hobeys hroom
    replace hobeys' := hobeys' hroom
    cases hraised with
    | proceed hkept =>
      obtain ⟨m₁, hstep, rfl, hlimits⟩ := hobeys
      obtain ⟨m₁', hstep', hregisters, hlimits'⟩ := hobeys'
      rw [hstep, hstep']
      exact .proceed ⟨rfl, .inl ⟨hkept, hregisters, by rw [hlimits', hlimits, h.limits]⟩⟩
    | @call s env control home after stack =>
      obtain ⟨⟨s₁, S₁, E₁, C₁, D₁, limits₁, stats₁, calls₁⟩, hstep, hr, rfl⟩ := hobeys
      obtain ⟨⟨s₁', S₁', E₁', C₁', D₁', limits₁', stats₁', calls₁'⟩, hstep', hr', rfl⟩ := hobeys'
      cases hr
      cases hr'
      rw [hstep, hstep']
      refine .proceed ⟨rfl, .inr ⟨stack, home, after, rfl, rfl, h.limits, #[], ?_, ?_⟩⟩
      · exact Array.append_empty.symm
      · rw [Array.append_empty]
        exact congrArg (fun r => r.dump.push _) h.registers
    | stop =>
      obtain ⟨m₁, hstep, rfl⟩ := hobeys
      obtain ⟨m₁', hstep', hregisters⟩ := hobeys'
      rw [hstep, hstep']
      exact .stop (congrArg Registers.store hregisters)
    | fault =>
      obtain ⟨m₁, hstep⟩ := hobeys
      obtain ⟨m₁', hstep'⟩ := hobeys'
      rw [hstep, hstep']
      exact .fault
  · obtain ⟨m₁, hstep⟩ := hoverflows (Nat.not_le.1 hroom)
    obtain ⟨m₁', hstep'⟩ := hoverflows' (Nat.not_le.1 hroom)
    rw [hstep, hstep']
    exact .fault

/-! ### In an entry of the dump -/

/-- The function that had been called has returned: the value is at the bottom of the stack again,
below the result and the other values of the caller. -/
structure Returns (x : Value) (low : Array DumpEntry) (stack : List Value) (after : Value)
    (m m' : Machine) : Prop where
  raises : Raises x m m'
  stack : ∃ v, m.stack = v :: stack
  control : m.control = after
  dump : m.dump = low

/-- The value is in an entry of the dump, or the function that had been called has returned. -/
def BuriesOrReturns (x : Value) (low : Array DumpEntry) (stack : List Value) (home after : Value)
    (m m' : Machine) : Prop :=
  Buries x low stack home after m m' ∨ Returns x low stack after m m'

/-- The dumps are of the same size. -/
theorem Buries.size_eq (h : Buries x low stack home after m m') : m'.dump.size = m.dump.size := by
  obtain ⟨high, hdump, hdump'⟩ := h.dump
  rw [hdump, hdump', Array.size_append, Array.size_append, Array.size_push, Array.size_push]

/-- The value stays where it is if the machine that is left has the same books. -/
theorem Buries.of_books (h : Buries x low stack home after m m') {m₁ : Machine} {b : Books}
    (hbooks : m₁.books.dump = m.dump) (hlimits : m₁.books.limits = m.limits)
    (hb : b.dump = m'.dump) (hb' : b.limits = m'.limits) :
    Buries x low stack home after m₁ (m₁.withBooks b) where
  same := rfl
  limits := hb'.trans (h.limits.trans hlimits.symm)
  dump := by
    obtain ⟨high, hdump, hdump'⟩ := h.dump
    exact ⟨high, hbooks.trans hdump, hb.trans hdump'⟩

/-- The value stays where it is if the same entry is put on both dumps. -/
theorem Buries.save (h : Buries x low stack home after m m') (m₁ : Machine) (entry : DumpEntry) :
    Buries x low stack home after (m₁.withBooks (m.books.save entry))
      (m₁.withBooks (m'.books.save entry)) where
  same := rfl
  limits := h.limits
  dump := by
    obtain ⟨high, hdump, hdump'⟩ := h.dump
    refine ⟨high.push entry, ?_, ?_⟩
    · rw [Array.append_push, ← hdump]
      rfl
    · rw [Array.append_push, ← hdump']
      rfl

/-- An instruction that takes no entry from the dump does the same, wherever the value is buried. -/
theorem Buries.sameStep_execute (h : Buries x low stack home after m m') {op : Opcode}
    (hop : op.takes = false) :
    SameStep (Buries x low stack home after) (execute op m) (execute op m') := by
  rw [h.same]
  cases posts_execute hop m with
  | keeps hfault hx =>
    have hbooks := books_left_of_commutes hx
    rw [hx]
    cases hresult : Action.execute op m with
    | error f m₁ => exact .fault
    | ok flow m₁ =>
      rw [hresult] at hbooks
      cases flow with
      | stop v => exact .stop rfl
      | proceed =>
        exact .proceed (h.of_books
          (congrArg Books.dump hbooks) (congrArg Books.limits hbooks) rfl rfl)
  | saves entry flow full room hx =>
    have hself : Action.execute op m = Action.execute op (m.withBooks m.books) := rfl
    have hfull : m'.books.limits.maxDump ≤ m'.books.dump.size ↔
        m.books.limits.maxDump ≤ m.books.dump.size := by
      rw [show m'.books.dump.size = m.books.dump.size from h.size_eq,
        show m'.books.limits = m.books.limits from h.limits]
    rw [hself, hx, hx]
    by_cases hlow : m.books.limits.maxDump ≤ m.books.dump.size
    · rw [if_pos hlow, if_pos (hfull.2 hlow)]
      exact .fault
    · rw [if_neg hlow, if_neg fun h' => hlow (hfull.1 h')]
      cases flow with
      | stop v => exact .stop rfl
      | proceed => exact .proceed (h.save room entry)

/-- `RTN` takes an entry above the one with the value, or it takes this one. -/
theorem Buries.sameStep_rtn (h : Buries x low stack home after m m') :
    SameStep (BuriesOrReturns x low stack home after) (execute .rtn m) (execute .rtn m') := by
  obtain ⟨_, _, _, _, D, limits, stats, calls⟩ := m
  obtain ⟨s, S, E, C, D', limits', stats', calls'⟩ := m'
  obtain ⟨hsame, rfl, high, rfl, rfl⟩ := h
  obtain ⟨rfl, rfl, rfl, rfl, -⟩ := Machine.mk.inj hsame
  cases S with
  | nil =>
    rw [execute_rtn_nil, execute_rtn_nil]
    exact .fault
  | cons v S =>
    by_cases hempty : high.size = 0
    · obtain rfl := Array.size_eq_zero_iff.1 hempty
      rw [Array.append_empty, Array.append_empty, execute_rtn_call, execute_rtn_call]
      exact .proceed (.inr ⟨⟨rfl, rfl⟩, ⟨v, rfl⟩, rfl, rfl⟩)
    · obtain ⟨rest, entry, rfl⟩ := Array.eq_push_of_size_ne_zero hempty
      rw [Array.append_push, Array.append_push]
      cases entry with
      | join next =>
        rw [execute_rtn_join, execute_rtn_join]
        exact .fault
      | call caller env next =>
        rw [execute_rtn_call, execute_rtn_call]
        exact .proceed (.inl ⟨rfl, rfl, rest, rfl, rfl⟩)

/-- `JOIN` takes an entry above the one with the value, or faults. -/
theorem Buries.sameStep_join (h : Buries x low stack home after m m') :
    SameStep (Buries x low stack home after) (execute .join m) (execute .join m') := by
  obtain ⟨_, _, _, _, D, limits, stats, calls⟩ := m
  obtain ⟨s, S, E, C, D', limits', stats', calls'⟩ := m'
  obtain ⟨hsame, rfl, high, rfl, rfl⟩ := h
  obtain ⟨rfl, rfl, rfl, rfl, -⟩ := Machine.mk.inj hsame
  by_cases hempty : high.size = 0
  · obtain rfl := Array.size_eq_zero_iff.1 hempty
    rw [Array.append_empty, Array.append_empty, execute_join_call, execute_join_call]
    exact .fault
  · obtain ⟨rest, entry, rfl⟩ := Array.eq_push_of_size_ne_zero hempty
    rw [Array.append_push, Array.append_push]
    cases entry with
    | call caller env next =>
      rw [execute_join_call, execute_join_call]
      exact .fault
    | join next =>
      rw [execute_join_join, execute_join_join]
      exact .proceed ⟨rfl, rfl, rest, rfl, rfl⟩

/-- Noting the sizes makes no difference. -/
theorem BuriesOrReturns.measured (h : BuriesOrReturns x low stack home after m m') :
    BuriesOrReturns x low stack home after m.measured m'.measured := by
  rcases h with ⟨hsame, hlimits, hdump⟩ | ⟨⟨hregisters, hlimits⟩, hstack, hcontrol, hdump⟩
  · refine .inl ⟨?_, hlimits, hdump⟩
    exact congrArg (fun m₁ => m₁.withBooks m'.measured.books) hsame
  · exact .inr ⟨⟨hregisters, hlimits⟩, hstack, hcontrol, hdump⟩

/-- A step does the same wherever the value is buried, until the function returns that had been
called. -/
theorem Buries.sameStep (h : Buries x low stack home after m m')
    (hsteps : m.limits.maxSteps = none) :
    SameStep (BuriesOrReturns x low stack home after) (step.run m) (step.run m') := by
  have hsteps' : m'.limits.maxSteps = none := by rw [h.limits, hsteps]
  rw [step_eq_of_not_exhausted (not_exhausted_of_none hsteps),
    step_eq_of_not_exhausted (not_exhausted_of_none hsteps')]
  have hdecode := detached_decode.commutes m m'.books
  have hbooks := books_left_of_commutes (detached_decode.commutes m)
  rw [← h.same] at hdecode
  rw [hdecode]
  cases hresult : decode m with
  | error f m₁ => exact .fault
  | ok op m₁ =>
    rw [hresult] at hbooks
    have hcounted : Buries x low stack home after m₁.counted (m₁.withBooks m'.books).counted := by
      refine h.of_books (b := (m₁.withBooks m'.books).counted.books) ?_ ?_ rfl rfl
      · exact congrArg Books.dump hbooks
      · exact congrArg Books.limits hbooks
    have hexecute : SameStep (BuriesOrReturns x low stack home after)
        (Action.execute op m₁.counted) (Action.execute op (m₁.withBooks m'.books).counted) := by
      cases hop : op.takes with
      | false => exact (hcounted.sameStep_execute hop).imp fun _ _ => Or.inl
      | true =>
        cases op with
        | rtn => exact hcounted.sameStep_rtn
        | join => exact hcounted.sameStep_join.imp fun _ _ => Or.inl
        | _ => cases hop
    dsimp only [leaving]
    generalize Action.execute op m₁.counted = result at hexecute
    generalize Action.execute op (m₁.withBooks m'.books).counted = result' at hexecute
    cases hexecute with
    | proceed h => exact .proceed h.measured
    | stop h => exact .stop h
    | fault => exact .fault

end Machine

end Secd
