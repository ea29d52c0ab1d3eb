import Secd.Proofs.Machine.Clean
import Secd.Proofs.Machine.Retained
import Secd.Proofs.Machine.Until
import Secd.Proofs.Module.Computing

/-!
# Code that has completed

The code of an expression has completed when the machine comes to the code after it, with the dump
as large as it was: the value of the expression is then on top of the stack. Nothing else is said
about how the machine gets there. The main lemma of this module says what follows from it: below the
value the stack is that with which the code began, and the dump is the same, too. So the machine has
not touched what it had put aside, whatever functions the code has called.
-/

namespace Secd

/-! ### The rule for an instruction -/

/-- The next instruction is one only, and with as many operands also what comes after it. -/
theorem Registers.Next.unique {r : Registers} {op op' : Opcode} {vs vs' : List Value} {k k' : Value}
    (h : r.Next op vs k) (h' : r.Next op' vs' k') :
    op = op' ∧ (vs.length = vs'.length → vs = vs' ∧ k = k') := by
  have hop := (Registers.opcode?_of_next h).symm.trans (Registers.opcode?_of_next h')
  refine ⟨Option.some.inj hop, fun hlength => ?_⟩
  obtain ⟨heq, hk⟩ := Store.Starts.unique h h' (congrArg (· + 1) hlength)
  exact ⟨(List.cons.inj heq).2, hk⟩

namespace Transition

variable {r r' : Registers} {op : Opcode} {operands stack taken : List Value} {k : Value}

/-- An instruction that computes a value puts it in the place of those that it takes. -/
theorem exists_of_effect? (h : Transition r (.proceed r')) (hnext : r.Next op operands k)
    (hop : op.effect? = some (operands.length, taken.length)) (hstack : r.stack = taken ++ stack) :
    r'.control = k ∧ r'.dump = r.dump ∧ ∃ v, r'.stack = v :: stack := by
  have hsame {op' : Opcode} {vs : List Value} {k' : Value} {n : Nat} (hnext' : r.Next op' vs k')
      (hop' : op'.effect? = some (vs.length, n)) : k' = k ∧ taken.length = n := by
    obtain ⟨rfl, hk⟩ := hnext.unique hnext'
    obtain ⟨hlength, hn⟩ := Prod.mk.inj (Option.some.inj (hop.symm.trans hop'))
    exact ⟨(hk hlength).2.symm, hn⟩
  have hnone {op' : Opcode} {vs : List Value} {k' : Value} (hnext' : r.Next op' vs k') :
      op'.effect? ≠ none := by
    obtain ⟨rfl, -⟩ := hnext.unique hnext'
    rw [hop]
    nofun
  have hrest (taken' : List Value) {stack' : List Value} (hlength : taken.length = taken'.length)
      (hstack' : r.stack = taken' ++ stack') : stack' = stack :=
    (List.append_inj (hstack'.symm.trans hstack) hlength.symm).2
  generalize he : Effect.proceed r' = e at h
  cases h <;> cases he
  case ld hnext' _ _ _ _ | ldc hnext' | ldf hnext' =>
    obtain ⟨rfl, hlength⟩ := hsame hnext' rfl
    exact ⟨rfl, rfl, _, congrArg (_ :: ·) (hrest [] hlength rfl)⟩
  case car hnext' hstack' | cdr hnext' hstack' | atom hnext' hstack' =>
    obtain ⟨rfl, hlength⟩ := hsame hnext' rfl
    exact ⟨rfl, rfl, _, congrArg (_ :: ·) (hrest [_] hlength hstack')⟩
  case arithmetic hnext' hstack' _ _ | eq hnext' hstack' | leq hnext' hstack' |
      cons hnext' hstack' =>
    obtain ⟨rfl, hlength⟩ := hsame hnext' rfl
    exact ⟨rfl, rfl, _, congrArg (_ :: ·) (hrest [_, _] hlength hstack')⟩
  all_goals exact absurd rfl (hnone ‹r.Next _ _ _›)

/-- A call puts the result in the place of the function and its arguments, or it saves the rest of
the stack and the code that comes next. -/
theorem exists_of_call {f args : Value} (h : Transition r (.proceed r')) (hnext : r.Next op [] k)
    (hop : op = .ap ∨ op = .rap) (hstack : r.stack = f :: args :: stack) :
    (r'.control = k ∧ r'.dump = r.dump ∧ ∃ v, r'.stack = v :: stack) ∨
      ∃ env, r'.dump = r.dump.push (.call stack env k) := by
  have hsame {op' : Opcode} {k' f' args' : Value} {stack' : List Value}
      (hnext' : r.Next op' [] k') (hstack' : r.stack = f' :: args' :: stack') :
      k' = k ∧ stack' = stack := by
    obtain ⟨rfl, hk⟩ := hnext.unique hnext'
    obtain ⟨-, hrest⟩ := List.cons.inj (hstack'.symm.trans hstack)
    exact ⟨(hk rfl).2.symm, (List.cons.inj hrest).2⟩
  generalize he : Effect.proceed r' = e at h
  cases h <;> cases he
  case apClosure hnext' hstack' | rap hnext' hstack' _ _ _ =>
    obtain ⟨rfl, rfl⟩ := hsame hnext' hstack'
    exact .inr ⟨_, rfl⟩
  case apHost hnext' hstack' _ _ _ =>
    obtain ⟨rfl, rfl⟩ := hsame hnext' hstack'
    exact .inl ⟨rfl, rfl, _, rfl⟩
  all_goals
    obtain ⟨rfl, -⟩ := hnext.unique ‹r.Next _ _ _›
    rcases hop with hop | hop <;> cases hop

/-- `DUM` leaves the stack and the dump. -/
theorem eq_of_dum (h : Transition r (.proceed r')) (hnext : r.Next .dum [] k) :
    r'.control = k ∧ r'.dump = r.dump ∧ r'.stack = r.stack := by
  generalize he : Effect.proceed r' = e at h
  cases h <;> cases he
  case dum hnext' =>
    obtain ⟨-, rfl⟩ := (hnext.unique hnext').2 rfl
    exact ⟨rfl, rfl, rfl⟩
  all_goals cases (hnext.unique ‹r.Next _ _ _›).1

/-- `SEL` takes the truth value, saves the code that comes next, and goes on with a branch. -/
theorem eq_of_sel {yes no test : Value} (h : Transition r (.proceed r'))
    (hnext : r.Next .sel [yes, no] k) (hstack : r.stack = test :: stack) :
    r'.stack = stack ∧ r'.dump = r.dump.push (.join k) ∧ (r'.control = yes ∨ r'.control = no) := by
  generalize he : Effect.proceed r' = e at h
  cases h <;> cases he
  case sel hnext' hstack' =>
    obtain ⟨hoperands, rfl⟩ := (hnext.unique hnext').2 rfl
    cases hoperands
    obtain ⟨-, rfl⟩ := List.cons.inj (hstack'.symm.trans hstack)
    refine ⟨rfl, rfl, ?_⟩
    dsimp only
    split
    · exact .inl rfl
    · exact .inr rfl
  all_goals cases (hnext.unique ‹r.Next _ _ _›).1

/-- `JOIN` goes on with the code that has been saved. -/
theorem eq_of_join {dump : Array DumpEntry} {after : Value} (h : Transition r (.proceed r'))
    (hnext : r.Next .join [] k) (hdump : r.dump = dump.push (.join after)) :
    r'.control = after ∧ r'.dump = dump ∧ r'.stack = r.stack := by
  generalize he : Effect.proceed r' = e at h
  cases h <;> cases he
  case join hnext' hdump' =>
    obtain ⟨hentry, rfl⟩ := Array.push_eq_push.1 (hdump'.symm.trans hdump)
    exact ⟨DumpEntry.join.inj hentry, rfl, rfl⟩
  all_goals cases (hnext.unique ‹r.Next _ _ _›).1

end Transition

/-! ### Places in the code -/

namespace Store

variable {s : Store}

/-- Two trees of one value that are both retained are equally long. -/
theorem Retains.extent_eq {c k : Sexp} (hc : s.Retains c) (hk : s.Retains k)
    (h : c.value = k.value) : c.extent = k.extent := by
  induction c generalizing k with
  | atom a =>
    cases k with
    | atom b => rfl
    | pair cell head tail => cases h
  | pair cell head tail _ ih =>
    cases k with
    | atom b => cases h
    | pair cell' head' tail' =>
      obtain rfl := Value.pair.inj h
      have htails : tail.value = tail'.value := hc.2.1.symm.trans hk.2.1
      rw [Sexp.extent, Sexp.extent, ih hc.2.2.2.2 hk.2.2.2.2 htails]

/-- The code that comes after retained code is retained. -/
theorem Retains.of_computes {c k : Sexp} {n : Nat} (hc : s.Retains c) (h : Sexp.Computes n c k) :
    s.Retains k := by
  induction h with
  | keep => exact hc
  | instruction hcode _ | call hcode _ | branch hcode _ _ _ _ _ _ =>
    obtain ⟨-, -, hk, -, -⟩ := hc.exists_starts hcode
    exact hk
  | «open» hcode _ ih =>
    obtain ⟨-, -, hd, -, -⟩ := hc.exists_starts hcode
    exact ih hd
  | seq _ _ ih ih' => exact ih' (ih hc)

end Store

namespace Machine

variable {m : Machine} {c k : Sexp}

/-- The machine has not come to the code `k` with a dump of the given size: the dump is larger, or
code is next that is longer. -/
def Inside (size : Nat) (k : Sexp) (m : Machine) : Prop :=
  size < m.dump.size ∨ m.dump.size = size ∧ ∃ c, m.At c ∧ k.extent < c.extent

/-- The machine has come to the code `k` with this dump, and it has put a value on this stack. -/
structure Pushed (k : Sexp) (dump : Array DumpEntry) (stack : List Value) (m : Machine) : Prop where
  next : m.At k
  dump_eq : m.dump = dump
  stack_eq : ∃ v, m.stack = v :: stack

/-- In longer code the machine has not come to the code after it. -/
theorem At.inside (h : m.At c) (hlt : k.extent < c.extent) : m.Inside m.dump.size k :=
  .inr ⟨rfl, c, h, hlt⟩

/-- Before some code the machine has not come to code after it, either. -/
theorem Inside.of_le {size : Nat} {d : Sexp} (h : m.Inside size d) (hle : k.extent ≤ d.extent) :
    m.Inside size k :=
  h.imp_right fun ⟨hsize, c, hc, hlt⟩ => ⟨hsize, c, hc, Nat.lt_of_le_of_lt hle hlt⟩

/-- The machine is not inside the code to whose end it has come. -/
theorem At.not_inside (h : m.At k) : ¬ m.Inside m.dump.size k := by
  rintro (hlt | ⟨-, c, hc, hlt⟩)
  · exact Nat.lt_irrefl _ hlt
  · have hvalue : c.value = k.value := hc.control.symm.trans h.control
    exact absurd (hc.retained.extent_eq h.retained hvalue) (Nat.ne_of_gt hlt)

/-- After a step the machine is at code that is retained. -/
theorem at_next (hcontrol : m.next.control = k.value) (hk : m.store.Retains k) : m.next.At k :=
  ⟨hcontrol, retains_next hk⟩

/-! ### What code does -/

/-- An instruction that computes a value pushes it. -/
theorem until_instruction {op : Opcode} {operands : List Sexp} {taken stack : List Value}
    (hat : m.At c) (hcode : c.Begins (op.sexp :: operands) k)
    (hop : op.effect? = some (operands.length, taken.length)) (hstack : m.stack = taken ++ stack) :
    m.Until (Inside m.dump.size k) (Pushed k m.dump stack) := by
  have hlt : k.extent < c.extent := by
    rw [hcode.extent_eq, List.length_cons]
    omega
  refine .step (hat.inside hlt) fun hstep => .now ?_
  obtain ⟨vs, hnext, hk, -, hvalues⟩ := hat.exists_next hcode
  obtain ⟨hcontrol, hdump, hpushed⟩ :=
    (transition_of_proceed hstep).exists_of_effect? hnext (hvalues.length_eq ▸ hop) hstack
  exact ⟨at_next hcontrol hk, hdump, hpushed⟩

/-- A call pushes the result, and in the meantime the dump is larger. -/
theorem until_call {op : Opcode} {f args : Value} {stack : List Value} (hat : m.At c)
    (hcode : c.Begins [op.sexp] k) (hop : op = .ap ∨ op = .rap)
    (hstack : m.stack = f :: args :: stack) :
    m.Until (Inside m.dump.size k) (Pushed k m.dump stack) := by
  have hlt : k.extent < c.extent := by
    rw [hcode.extent_eq, List.length_singleton]
    omega
  refine .step (hat.inside hlt) fun hstep => ?_
  obtain ⟨vs, hnext, hk, -, hvalues⟩ := hat.exists_next hcode
  cases hvalues
  rcases (transition_of_proceed hstep).exists_of_call hnext hop hstack with
    ⟨hcontrol, hdump, hpushed⟩ | ⟨env, hsaved⟩
  · exact .now ⟨at_next hcontrol hk, hdump, hpushed⟩
  · have hreturns : m.next.Until (Inside m.dump.size k) _ :=
      (until_restored hstep hsaved).mono fun _ => .inl
    refine hreturns.bind fun j hrestored => .now ?_
    obtain ⟨hdump, last, hlast, hrestores⟩ := hrestored
    obtain ⟨v, -, -, hpushed⟩ := hrestores.stack
    have hcontrol : last.next.control = k.value := hrestores.control
    rw [hlast] at hpushed hcontrol
    exact ⟨⟨hcontrol, retains_after (retains_next hk) j⟩, hdump, v, hpushed⟩

/-- A branch that pushes a value goes on after the conditional with this value. -/
theorem until_branch {m₀ : Machine} {blockEnd : Sexp} {stack : List Value}
    (hdump : m.dump = m₀.dump.push (.join k.value)) (hk : m.store.Retains k)
    (hend : blockEnd.Begins [Opcode.join.sexp] .nil)
    (hblock : m.Until (Inside m.dump.size blockEnd) (Pushed blockEnd m.dump stack)) :
    m.Until (Inside m₀.dump.size k) (Pushed k m₀.dump stack) := by
  have hlarger : m₀.dump.size < m.dump.size := by
    rw [hdump, Array.size_push]
    exact Nat.lt_succ_self _
  have hinside : m.Until (Inside m₀.dump.size k) _ := hblock.mono <| by
    rintro m' (hlt | ⟨hsize, -⟩)
    · exact .inl (Nat.lt_trans hlarger hlt)
    · exact .inl (hsize ▸ hlarger)
  refine hinside.bind fun j hpushed => ?_
  obtain ⟨hat, hsame, v, hstack⟩ := hpushed
  refine .step (.inl (by rw [hsame]; exact hlarger)) fun hstep => .now ?_
  obtain ⟨vs, hnext, -, -, hvalues⟩ := hat.exists_next hend
  cases hvalues
  obtain ⟨hcontrol, hback, hkept⟩ :=
    (transition_of_proceed hstep).eq_of_join hnext (hsame.trans hdump)
  exact ⟨at_next hcontrol (retains_after hk j), hback, v, hkept.trans hstack⟩

/-- Code that computes a value pushes it in the place of the values that it takes. -/
theorem until_pushed {n : Nat} (h : Sexp.Computes n c k) {taken stack : List Value} (hat : m.At c)
    (hlength : taken.length = n) (hstack : m.stack = taken ++ stack) :
    m.Until (Inside m.dump.size k) (Pushed k m.dump stack) := by
  -- on the code; the machine and the stack are other ones for the code that comes next
  induction h generalizing m taken stack with
  | keep =>
    obtain ⟨v, rfl⟩ := List.length_eq_one_iff.1 hlength
    exact .now ⟨hat, rfl, v, hstack⟩
  | instruction hcode hop => exact until_instruction hat hcode (hlength ▸ hop) hstack
  | call hcode hop =>
    obtain ⟨f, args, rfl⟩ := List.length_eq_two.1 hlength
    exact until_call hat hcode hop hstack
  | @«open» n c d k hcode hrest ih =>
    have hlt : k.extent < c.extent := by
      have hle := hrest.extent_le
      rw [hcode.extent_eq, List.length_singleton]
      omega
    refine .step (hat.inside hlt) fun hstep => ?_
    obtain ⟨vs, hnext, hd, -, hvalues⟩ := hat.exists_next hcode
    cases hvalues
    obtain ⟨hcontrol, hdump, hkept⟩ := (transition_of_proceed hstep).eq_of_dum hnext
    replace hdump : m.next.dump = m.dump := hdump
    have hcomputed := ih (at_next hcontrol hd) hlength (hkept.trans hstack)
    rwa [hdump] at hcomputed
  | @branch c k yesCode noCode yesEnd noEnd hcode hyes hyesEnd hno hnoEnd ihYes ihNo =>
    have hlt : k.extent < c.extent := by
      rw [hcode.extent_eq, List.length_cons]
      omega
    obtain ⟨test, rfl⟩ := List.length_eq_one_iff.1 hlength
    refine .step (hat.inside hlt) fun hstep => ?_
    obtain ⟨vs, hnext, hk, hblocks, hvalues⟩ := hat.exists_next hcode
    obtain ⟨hyesHeld, hnoHeld⟩ := List.forall_mem_cons.1 hblocks
    rcases hvalues with _ | ⟨hyesValue, _ | ⟨hnoValue, ⟨⟩⟩⟩
    obtain ⟨hkept, hdump, hcontrol⟩ := (transition_of_proceed hstep).eq_of_sel hnext hstack
    -- a branch is not empty, so it is no placeholder
    have hpair {block blockEnd : Sexp} (hblock : Sexp.Computes 0 block blockEnd) :
        block.value ≠ .pending := by
      have hnonempty := hblock.extent_lt
      cases block with
      | atom a => exact absurd hnonempty (Nat.not_lt_zero _)
      | pair cell head tail => nofun
    rcases hcontrol with hcontrol | hcontrol
    · exact until_branch hdump (retains_next hk) hyesEnd
        (ihYes (at_next (hcontrol.trans (hyesValue (hpair hyes))) hyesHeld) rfl hkept)
    · exact until_branch hdump (retains_next hk) hnoEnd
        (ihNo (at_next (hcontrol.trans (hnoValue (hpair hno))) (hnoHeld _ List.mem_cons_self)) rfl
          hkept)
  | @seq n more c d k hfirst hrest ih ih' =>
    have htake : (taken.take n).length = n := by
      rw [List.length_take, hlength]
      omega
    have hdrop (v : Value) : (v :: taken.drop n).length = more + 1 := by
      rw [List.length_cons, List.length_drop, hlength]
      omega
    have hsplit : m.stack = taken.take n ++ (taken.drop n ++ stack) := by
      rw [hstack, ← List.append_assoc, List.take_append_drop]
    refine ((ih hat htake hsplit).mono fun _ hinside => hinside.of_le hrest.extent_le).bind ?_
    rintro j ⟨hatNext, hdump, v, hpushed⟩
    have hcomputed := ih' hatNext (hdrop v) hpushed
    rwa [hdump] at hcomputed

/-! ### Completion -/

/-- After `n` steps, all of which go on, the machine comes to `k` for the first time with a dump as
large as at the beginning, and the value is on top of the stack. -/
structure Completes (m : Machine) (k : Value) (n : Nat) (v : Value) : Prop where
  proceeds : m.Proceeds n
  first : ∀ i < n, ¬ ((m.after i).dump.size = m.dump.size ∧ (m.after i).control = k)
  control : (m.after n).control = k
  size : (m.after n).dump.size = m.dump.size
  value : ∃ stack, (m.after n).stack = v :: stack

/-- Code that is one instruction completes with the step that executes it. -/
theorem completes_of_step {next v : Value} {stack : List Value}
    (hstep : step.run m = .ok .proceed m.next) (hne : m.control ≠ next)
    (hcontrol : m.next.control = next) (hsize : m.next.dump.size = m.dump.size)
    (hstack : m.next.stack = v :: stack) : m.Completes next 1 v := by
  refine ⟨fun i hi => ?_, fun i hi hcompleted => ?_, hcontrol, hsize, stack, hstack⟩
  all_goals obtain rfl := Nat.lt_one_iff.1 hi
  · exact hstep
  · exact hne hcompleted.2

/-- When code that computes a value has completed, its value is on the stack with which it began,
and the dump is that with which it began. -/
theorem pushed_of_completes {n : Nat} {v : Value} (h : Sexp.Computes 0 c k) (hat : m.At c)
    (hdone : m.Completes k.value n v) :
    (m.after n).At k ∧ (m.after n).stack = v :: m.stack ∧ (m.after n).dump = m.dump := by
  have hatEnd : (m.after n).At k :=
    ⟨hdone.control, retains_after (hat.retained.of_computes h) n⟩
  have hnone : ([] : List Value).length = 0 := rfl
  rcases until_pushed h hat hnone rfl n hdone.proceeds with hall | ⟨j, hj, hpushed, -⟩
  · exact absurd (hdone.size ▸ hall n (Nat.le_refl n)) hatEnd.not_inside
  · rcases Nat.lt_or_eq_of_le hj with hlt | rfl
    · exact absurd ⟨congrArg Array.size hpushed.dump_eq, hpushed.next.control⟩ (hdone.first j hlt)
    · obtain ⟨w, hstack⟩ := hpushed.stack_eq
      obtain ⟨stack, hvalue⟩ := hdone.value
      obtain ⟨rfl, -⟩ := List.cons.inj (hstack.symm.trans hvalue)
      exact ⟨hatEnd, hstack, hpushed.dump_eq⟩

end Machine

end Secd
