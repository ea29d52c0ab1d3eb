import Secd.Proofs.Machine.Environments
import Secd.Proofs.Machine.Outermost
import Secd.Proofs.Machine.Reaches
import Secd.Proofs.Module.Application
import Secd.Proofs.Module.Unchanged

/-!
# The two shapes of programs

A program that is applied to its arguments finds the list of them on the stack when it begins. Its
application to the same values in quotes makes this list itself, above whatever arguments the
expression is run with, which then lie at the bottom of the stack all the time. From there on both
machines run code that is the same up to the cells, with lists of arguments that are the same up to
the cells, and only the value at the bottom is different. So both runs have the same result.

The comparison goes by a third machine between the two: it has the store of the expression, and no
value at the bottom.
-/

namespace Secd

open Store

namespace Machine

/-! ### Runs with the same result -/

/-- Runs have ended with the same result: both have halted, and no path tells the values apart once
the identities in the second one are exchanged; or both have faulted, and the faults are of the same
kind. -/
inductive SameOutcome (σ : Nat → Nat) : Outcome × Machine → Outcome × Machine → Prop where
  | halted {v v' : Value} {m m' : Machine}
      (h : m.store.Corresponds (m'.store.relabel σ) v (v'.relabel σ)) :
      SameOutcome σ (.halted v, m) (.halted v', m')
  | faulted {f f' : Fault} {m m' : Machine} (h : f.kind = f'.kind) :
      SameOutcome σ (.faulted f, m) (.faulted f', m')

/-- The runs of two machines have the same result: neither ends, or both end with the same result,
each after as many steps as it takes. -/
inductive SameEnd (σ : Nat → Nat) (m m' : Machine) : Prop where
  | never (h : ∀ n, run n m = none) (h' : ∀ n, run n m' = none)
  | ended {n n' : Nat} {r r' : Outcome × Machine} (h : run n m = some r) (h' : run n' m' = some r')
      (hsame : SameOutcome σ r r')

/-- Two runs have the same result if they have it after any number of steps, apart from the first
steps of one of them. -/
theorem sameEnd_of_run_rel {σ : Nat → Nat} {m m' m'' : Machine} {k : Nat}
    (h : ∀ n, Option.Rel (SameOutcome σ) (run n m) (run n m'))
    (hfirst : ∀ n, run (k + n) m'' = run n m') : SameEnd σ m m'' := by
  by_cases hends : ∃ n r, run n m = some r
  · obtain ⟨n, r, hrun⟩ := hends
    have hrel := h n
    rw [hrun, ← hfirst n] at hrel
    generalize hrun' : run (k + n) m'' = result at hrel
    cases hrel with
    | some hsame => exact .ended hrun hrun' hsame
  · have hnever (n : Nat) : run n m = none :=
      Option.eq_none_iff_forall_not_mem.2 fun r hr => hends ⟨n, r, hr⟩
    refine .never hnever fun n => ?_
    -- a run that ends has also ended after the first steps
    rw [Option.eq_none_iff_forall_ne_some]
    intro r hr
    have hlater := run_add k hr
    rw [Nat.add_comm, hfirst] at hlater
    have hrel := h n
    rw [hnever, hlater] at hrel
    cases hrel

/-- The result is the same up to the identities if it is the very same with the identities
exchanged. -/
theorem SameEnd.of_relabel {σ : Nat → Nat} (hσ : σ.Injective) {m m' : Machine}
    (h : SameEnd id m (m'.relabel σ)) : SameEnd σ m m' := by
  cases h with
  | never h h' =>
    refine .never h fun n => ?_
    have hnever := h' n
    rwa [run_relabel hσ, Option.map_eq_none_iff] at hnever
  | @ended n n' r _ h h' hsame =>
    rw [run_relabel hσ] at h'
    obtain ⟨⟨outcome, m''⟩, hrun, rfl⟩ := Option.map_eq_some_iff.1 h'
    refine .ended h hrun ?_
    cases outcome with
    | faulted f =>
      cases hsame with
      | faulted h => exact .faulted h
    | halted v =>
      cases hsame with
      | halted h =>
        rw [Store.relabel_id, Value.relabel_id] at h
        exact .halted h

/-! ### The machine between -/

/-- Between the two machines is a third one: it is side by side with the first one, and the second
one is like it, but for the value `x` below those of the outermost function. -/
structure Between (base : Bases) (sites : List CallSite) (x : Value) (m middle m' : Machine) :
    Prop where
  parallel : m.Parallel base middle
  below : Below base.second sites x middle m'
  unlimited : middle.limits.maxSteps = none
  room : middle.dump.size ≤ middle.limits.maxDump

/-- A value below those of the outermost function and the cells of the code make no difference to
the result of a run. -/
theorem Between.run_rel {base : Bases} {sites : List CallSite} {x : Value} {m middle m' : Machine}
    (hbase : base.Closed) (h : Between base sites x m middle m') (n : Nat) :
    Option.Rel (SameOutcome id) (run n m) (run n m') := by
  induction n generalizing m middle m' with
  | zero => exact .none
  | succ n ih =>
    have hagree : Action.Together base m.store.size (Flow.Linked base) (step.run m)
        (step.run middle) := Action.agree_step hbase m middle h.parallel (Nat.le_refl _)
    have hsame := h.below.sameStep h.parallel.store.second h.unlimited h.room
    rw [run, run]
    generalize step.run m = result at hagree
    generalize hmiddle : step.run middle = between at hagree hsame
    generalize step.run m' = result' at hsame
    cases hsame with
    | proceed hbelow =>
      cases hagree with
      | ok hparallel _ hflow =>
        cases hflow with
        | proceed =>
          obtain ⟨hlimits, -, -, hsize⟩ := measures_of_ok hmiddle
          have hroom := h.room
          rw [← hlimits] at hsize hroom
          exact ih ⟨hparallel, hbelow, hlimits ▸ h.unlimited, by omega⟩
    | stop hstore =>
      cases hagree with
      | ok hparallel _ hflow =>
        cases hflow with
        | stop hv =>
          have hcorresponds := hparallel.store.corresponds hv
          rw [← hstore] at hcorresponds
          refine .some (.halted ?_)
          rwa [Store.relabel_id, Value.relabel_id]
    | fault =>
      cases hagree with
      | error _ => exact .some (.faulted rfl)

end Machine

/-! ### The list of arguments -/

/-- The code for a list of constants makes a list of them. -/
theorem exists_reaches_of_writtenAll {P : Address → Prop} {values items : List Sexp} {depth : Nat}
    {c k list : Sexp} {o : Outline} (h : Term.WrittenAll P depth (values.map .constant) c k o)
    {base : Store} {r : Registers} (hbase : base.Extends r.store) (hheld : base.Holds c)
    (hcontrol : r.control = c.value) {stack : List Value} (hstack : r.stack = list.value :: stack)
    (hlist : r.store.Holds list) (hitems : list.list? = some items) (hclosed : r.store.Closed) :
    ∃ s list', Reaches r.dump.size r ⟨s, list'.value :: stack, r.env, k.value, r.dump⟩ ∧
      r.store.Extends s ∧ s.Closed ∧ s.Holds list' ∧ list'.list? = some (values ++ items) ∧
        base.Holds k := by
  induction values generalizing k o with
  | nil =>
    cases h
    refine ⟨r.store, list, ?_, .refl _, hclosed, hlist, hitems, hheld⟩
    rw [← hstack, ← hcontrol]
    exact .refl r
  | cons v values ih =>
    cases h with
    | cons hothers hfirst hcons =>
      obtain ⟨s, rest, hreaches, hextends, hclosed, hrest, hvalues, hk⟩ := ih hothers
      cases hfirst with
      | constant hldc =>
        have hs := hbase.trans hextends
        obtain ⟨hnext, hk', hv⟩ := Registers.next_of_begins
          (r := ⟨s, rest.value :: stack, r.env, _, r.dump⟩) hs hk rfl hldc
        obtain ⟨hnext', hend, -⟩ := Registers.next_of_begins
          (r := ⟨s, v.value :: rest.value :: stack, r.env, _, r.dump⟩) hs hk' rfl hcons
        have hv : s.Holds v := (hv v List.mem_cons_self).extends hs
        refine ⟨_, .pair s.size v rest, ?_, hextends.trans (extends_cons s v.value rest.value),
          hclosed.cons hv.contains hrest.contains, holds_consTree hv hrest, ?_, hend⟩
        · exact hreaches.trans (.step (.ldc hnext) (Nat.le_refl _)
            (.step (.cons hnext' rfl) (Nat.le_refl _) (.refl _)))
        · rw [Sexp.list?_pair, hvalues]
          rfl

/-- A program that supplies values to code comes to this code with the list of them on the stack. -/
theorem Module.Supplies.exists_reaches {m : Module} {base : Store} {values : List Sexp}
    {sites : List CallSite} {depth : Nat} {c : Sexp} (h : m.Supplies base values sites depth c)
    {r : Registers} (hbase : base.Extends r.store) (hcontrol : r.control = m.code.value)
    (hclosed : r.store.Closed) :
    ∃ s list, Reaches r.dump.size r ⟨s, list.value :: r.stack, r.env, c.value, r.dump⟩ ∧
      s.Closed ∧ r.store.Extends s ∧ s.Holds list ∧ list.list? = some values ∧ s.Holds c := by
  obtain ⟨d, o, hcode, hwritten⟩ := h.begins
  obtain ⟨hnext, hd, -⟩ := Registers.next_of_begins hbase h.held hcontrol hcode
  have hnil : r.store.Holds .nil := trivial
  obtain ⟨s, list, hreaches, hextends, hclosed, hlist, hvalues, hc⟩ :=
    exists_reaches_of_writtenAll hwritten
      (r := { r with stack := .nil :: r.stack, control := d.value }) hbase hd rfl rfl hnil
      Sexp.list?_nil hclosed
  rw [List.append_nil] at hvalues
  exact ⟨s, list, .step (.ldc hnext) (Nat.le_refl _) hreaches, hclosed, hextends, hlist, hvalues,
    (hc.extends hbase).extends hextends⟩

/-! ### The beginning of the runs -/

namespace Machine

/-- Code that is loaded in one of two stores has the same result as code of the other one that first
makes its list of arguments and then goes on with code that matches. -/
theorem sameEnd_of_supplies {expression : Module} {u w : Store} (hu : u.Closed) (hw : w.Closed)
    {values items : List Sexp} {sites : List CallSite} {depth : Nat} {k c args env env' : Sexp}
    (h : expression.Supplies w values sites depth c) (hcode : u.Holds k) (hmatch : k.Matches c)
    (hcodeSettled : k.AllAtoms Atom.Settled) (hargs : u.Holds args)
    (hlist : args.list? = some items) (hitems : Sexp.MatchAll items values)
    (hargsSettled : args.AllAtoms Atom.Settled) (henv : u.Holds env) (henv' : w.Holds env')
    (hframes : env.Matches env') (henvSettled : env.AllAtoms Atom.Settled) (other : Value)
    {limits : Limits} (hsteps : limits.maxSteps = none) :
    SameEnd id ((idle u limits).load k.value args.value env.value)
      ((idle w limits).load expression.code.value other env'.value) := by
  -- the expression makes its list of arguments first
  obtain ⟨s, list, hreaches, hclosed, hgrown, hheld, hvalues, hc⟩ :=
    h.exists_reaches (r := ⟨w, [other], env'.value, expression.code.value, #[]⟩) (.refl w) rfl hw
  obtain ⟨j, m, hregisters, hkept, hfirst⟩ := exists_run_add_of_reaches
    (m := (idle w limits).load expression.code.value other env'.value) hreaches hsteps
    (Nat.zero_le _)
  -- the machine between has come as far, with nothing below the list
  have hbetween : Between ⟨u, s⟩ sites other ((idle u limits).load k.value args.value env.value)
      ((idle s limits).load c.value list.value env'.value) m := by
    refine ⟨?_, .outermost ⟨hregisters, hkept⟩ ?_, hsteps, Nat.zero_le _⟩
    · exact @parallel_load_of_matches ⟨u, s⟩ _ _ _ _ _ _ hcode hc hmatch hcodeSettled hargs hheld
        (Sexp.matches_of_list? hlist hvalues hitems) hargsSettled henv (henv'.extends hgrown)
        hframes henvSettled limits
    · exact .code (h.typed.continues hc rfl .stop)
  exact sameEnd_of_run_rel (hbetween.run_rel ⟨hu, hclosed⟩) hfirst

/-- The two shapes of programs agree. Let a program be compiled with or without the standard
prelude, and its application to values in quotes, too. Let the program be applied to a list of the
same values, in whatever cells of a closed store, and let the expression be run with any arguments
in another store or in the same one, both under any limit on the dump and without one on the steps.
The stores extend those of the compiler, and the callables in the expression, if there are any, are
older than what the runs make. The placeholder of a letrec frame is neither in the program nor in
the values. Then neither run ends, or both halt with values that no path tells apart, or both fault,
and the faults are of the same kind. If there is a prelude, each run makes one of its own, and its
callables have other identities than those of the other run: the values are compared with the
identities of the preludes exchanged for each other. -/
theorem sameEnd_of_compile {p e args : Sexp} {values items : List Sexp} {map map' : SourceMap}
    {prelude : Option Prelude} {applied expression : Module} {s s₁ t t₁ u u' : Store}
    (hprelude : Prelude.IsStandard prelude) (hp : s.Holds p) (hsettled : p.AllAtoms Atom.Settled)
    (he : t.Holds e) (happlies : e.Applies p values) (hheight : e.height < Address.limit)
    (happlied : Module.compile p map .applied prelude s = (.ok applied, s₁))
    (hexpression : Module.compile e map' .expression prelude t = (.ok expression, t₁))
    (hs : s₁.Extends u) (ht : t₁.Extends u') (hu : u.Closed) (hu' : u'.Closed)
    (holder : e.AllAtoms (Atom.OlderThan u)) (holder' : e.AllAtoms (Atom.OlderThan u'))
    (hargs : u.Holds args) (hlist : args.list? = some items) (hitems : Sexp.MatchAll items values)
    (hargsSettled : args.AllAtoms Atom.Settled) (other : Value) {limits : Limits}
    (hsteps : limits.maxSteps = none) :
    ∃ σ, Prelude.Exchanges prelude.isSome σ u u' ∧ (prelude = none → σ = id) ∧
      SameEnd σ (ofModule applied args.value limits u) (ofModule expression other limits u') := by
  obtain ⟨sites, depth, c, hsupplies, hmatch, hheld, huses⟩ :=
    Module.exists_supplies_of_compile hprelude hp he happlies hheight happlied hexpression
  obtain ⟨_, _, hresolves, -, hassembled⟩ := Module.exists_assembled_of_compile happlied
  obtain ⟨_, _, hresolves', -, hassembled'⟩ := Module.exists_assembled_of_compile hexpression
  have hcodeSettled := hassembled.allAtoms Atom.coded_settled (hresolves.allAtoms hsettled)
  have hcodeOlder := hassembled'.allAtoms (Atom.coded_olderThan u) (hresolves'.allAtoms holder)
  have hcodeOlder' := hassembled'.allAtoms (Atom.coded_olderThan u') (hresolves'.allAtoms holder')
  obtain ⟨σ, hσ, hid⟩ := Prelude.exists_exchanges prelude.isSome u u'
  refine ⟨σ, hσ, fun hnone => hid (by rw [hnone, Option.isSome_none]), ?_⟩
  rw [← Module.usesPrelude_of_compile happlied] at hσ
  obtain ⟨v, env, v', env', hv, hv', hclosed, hclosed', henv, henv', henvSettled, hframes, hload,
    hload'⟩ := exists_matching_envs huses hσ args.value other limits
  -- the expression is run under the identities of the first store
  have hcode := hσ.relabel_eq hcodeOlder hcodeOlder'
  have hsupplies' : expression.Supplies (v'.relabel σ) values sites depth c :=
    ⟨hsupplies.begins, hsupplies.typed, hcode ▸ (hsupplies.held.extends (ht.trans hv')).relabel⟩
  rw [hload, hload']
  refine SameEnd.of_relabel hσ.injective ?_
  rw [load_relabel, ← Sexp.value_relabel, ← Sexp.value_relabel, hcode]
  exact sameEnd_of_supplies (hclosed hu) (hclosed' hu').relabel hsupplies'
    (hheld.extends (hs.trans hv)) hmatch hcodeSettled (hargs.extends hv) hlist hitems hargsSettled
    henv henv'.relabel hframes henvSettled (other.relabel σ) hsteps

/-! ### Two programs in both shapes -/

/-- The standard prelude with which the programs are compiled. -/
def firstPrelude : Prelude := (Prelude.standard .empty).1

/-- There is no other prelude than the standard one. -/
theorem isStandard_firstPrelude : Prelude.IsStandard (some firstPrelude) := by
  rintro p hp
  exact ⟨.empty, (Option.some.inj hp).symm⟩

/-- A program and an expression are compiled one after the other; the modules, and the store after
that. -/
def bothShapes? (program expression : Datum) : Option (Module × Module × Store) :=
  match Module.compile (program.read .empty).1.expression .empty .applied (some firstPrelude)
      (expression.read .empty).2 with
  | (.error _, _) => none
  | (.ok applied, s) =>
    match Module.compile (expression.read .empty).1.expression .empty .expression
        (some firstPrelude) s with
    | (.error _, _) => none
    | (.ok expression, s) => some (applied, expression, s)

/-- Both have been compiled. -/
theorem exists_of_bothShapes? {program expression : Datum} {m m' : Module} {s₂ : Store}
    (h : bothShapes? program expression = some (m, m', s₂)) : ∃ s₁,
      Module.compile (program.read .empty).1.expression .empty .applied (some firstPrelude)
          (expression.read .empty).2 = (.ok m, s₁) ∧
        Module.compile (expression.read .empty).1.expression .empty .expression
          (some firstPrelude) s₁ = (.ok m', s₂) := by
  rw [bothShapes?] at h
  split at h
  · cases h
  · next s₁ happlied =>
    split at h
    · cases h
    · next hexpression =>
      cases h
      exact ⟨s₁, happlied, hexpression⟩

/-- The program `(LAMBDA (X Y) (SUB X Y))`. -/
def subtraction : Datum :=
  let span : Span := ⟨0, 0⟩
  .list [.symbol "LAMBDA" span, .list [.symbol "X" span, .symbol "Y" span] span,
    .list [.symbol "SUB" span, .symbol "X" span, .symbol "Y" span] span] span

/-- The expression `((LAMBDA (X Y) (SUB X Y)) '44 '2)`. -/
def difference : Datum :=
  let span : Span := ⟨0, 0⟩
  .list [subtraction, .quoted (.int 44 span) span, .quoted (.int 2 span) span] span

/-- The list `(44 2)`. -/
def operands : Datum :=
  let span : Span := ⟨0, 0⟩
  .list [.int 44 span, .int 2 span] span

/-- The expression is the application of the program. -/
theorem applies_difference : (difference.read .empty).1.expression.Applies
    (subtraction.read .empty).1.expression [.int 44, .int 2] :=
  ⟨_, rfl, .cons rfl (.cons rfl .nil)⟩

/-- Only an integer is taken for one. -/
theorem eq_int_of_asInt {v : Value} {n : Int64} (h : v.asInt = .ok n) : v = .int n := by
  obtain ⟨k, rfl⟩ | ⟨e, he⟩ := v.int_or_error
  · obtain rfl := Except.ok.inj h
    rfl
  · rw [he] at h
    cases h

/-- The program halts with the difference of its arguments. -/
theorem exists_run_subtraction : ∃ applied expression s m,
    bothShapes? subtraction difference = some (applied, expression, s) ∧
      run 7 (ofModule applied (operands.read s).1.expression.value {} (operands.read s).2) =
        some (.halted (.int 42), m) := by
  have hhalts : (bothShapes? subtraction difference).any (fun found =>
      (run 7 (ofModule found.1 (operands.read found.2.2).1.expression.value {}
        (operands.read found.2.2).2)).any fun ended =>
          ended.1.value?.any fun v => decide (v.asInt = .ok 42)) = true := by
    decide +kernel
  obtain ⟨⟨applied, expression, s⟩, hcompiled, hhalts⟩ := (Option.any_eq_true _ _).1 hhalts
  obtain ⟨⟨outcome, m⟩, hrun, houtcome⟩ := (Option.any_eq_true _ _).1 hhalts
  obtain ⟨v, hvalue, hv⟩ := (Option.any_eq_true _ _).1 houtcome
  obtain rfl := Outcome.eq_halted_of_value? hvalue
  obtain rfl := eq_int_of_asInt (of_decide_eq_true hv)
  exact ⟨applied, expression, s, m, hcompiled, hrun⟩

/-- The program halts with the difference of its arguments, and so does the expression with a
prelude that is made later. -/
theorem sameEnd_of_compile_difference : ∃ applied s₁ expression s₂,
    Module.compile (subtraction.read .empty).1.expression .empty .applied (some firstPrelude)
        (difference.read .empty).2 = (.ok applied, s₁) ∧
      Module.compile (difference.read .empty).1.expression .empty .expression
          (some firstPrelude) s₁ =
          (.ok expression, s₂) ∧
      (∃ n m, run n (ofModule applied (operands.read s₂).1.expression.value {}
        (operands.read s₂).2) = some (.halted (.int 42), m)) ∧
      ∃ n m, run n (ofModule expression .nil {} (Prelude.standard (operands.read s₂).2).2) =
        some (.halted (.int 42), m) := by
  obtain ⟨applied, expression, s₂, m, hcompiled, hrun⟩ := exists_run_subtraction
  obtain ⟨s₁, happlied, hexpression⟩ := exists_of_bothShapes? hcompiled
  refine ⟨applied, s₁, expression, s₂, happlied, hexpression, ⟨7, m, hrun⟩, ?_⟩
  have hprelude := isStandard_firstPrelude
  have hread := difference.builds_read .empty
  have hp : (difference.read .empty).2.Holds (subtraction.read .empty).1.expression := by
    obtain ⟨_, hlist, -⟩ := applies_difference
    exact hread.held.of_mem_list? hlist List.mem_cons_self
  have hheight : (difference.read .empty).1.expression.height < Address.limit := by decide
  have hheight' := Nat.lt_trans applies_difference.height_lt hheight
  obtain ⟨hgrown, hclosed, -⟩ := Module.exists_compiled_of_compile hprelude hp hheight' happlied
  have he := hread.held.extends hgrown
  obtain ⟨hgrown', hclosed', -⟩ := Module.exists_compiled_of_compile hprelude he hheight hexpression
  have hargs := operands.builds_read s₂
  have hu : (operands.read s₂).2.Closed :=
    hargs.closed (hclosed' (hclosed (hread.closed Store.closed_empty)))
  have hplain : (difference.read .empty).1.expression.AllAtoms Atom.Plain := by decide
  obtain ⟨σ, -, -, hend⟩ := sameEnd_of_compile hprelude hp (by decide) he
    applies_difference hheight happlied hexpression (hgrown'.trans hargs.extends_store)
    (hargs.extends_store.trans (Prelude.extends_standard rfl)) hu (Prelude.closed_standard rfl hu)
    (hplain.imp fun _ ha => ha.olderThan _) (hplain.imp fun _ ha => ha.olderThan _)
    hargs.held rfl (Sexp.matchAll_refl _) ⟨trivial, trivial, trivial⟩ .nil
    (show ({} : Limits).maxSteps = none from rfl)
  cases hend with
  | never h _ => cases (h 7).symm.trans hrun
  | @ended n n' r r' h h' hsame =>
    have hlater := run_add n hrun
    rw [Nat.add_comm] at hlater
    obtain rfl := Option.some.inj ((run_add 7 h).symm.trans hlater)
    cases hsame with
    | @halted _ v _ m' hv =>
      cases v with
      | pair c => exact (hv []).elim
      | atom b =>
        have hint : Atom.Plain (.int 42) := trivial
        have hb := hint.eq_of_same (Store.corresponds_atom.1 hv)
        cases b with
        | int k =>
          obtain rfl := Atom.int.inj hb
          exact ⟨n', m', h'⟩
        | _ => cases hb

/-- The program `(LAMBDA () MAX)`. -/
def maximum : Datum :=
  let span : Span := ⟨0, 0⟩
  .list [.symbol "LAMBDA" span, .list [] span, .symbol "MAX" span] span

/-- The expression `((LAMBDA () MAX))`. -/
def maximumCall : Datum := .list [maximum] ⟨0, 0⟩

/-- The values with which the program without arguments and then the expression halt, and the store
after that. -/
def maxima? : Option (Value × Value × Store) :=
  (bothShapes? maximum maximumCall).bind fun (applied, expression, s) =>
    (run 5 (ofModule applied .nil {} s)).bind fun (outcome, m) =>
      (run 6 (ofModule expression .nil {} m.store)).bind fun (outcome', m') =>
        outcome.value?.bind fun v => outcome'.value?.map fun v' => (v, v', m'.store)

/-- It is not so that the values with which both shapes halt are equal: the program and the
expression halt with a callable of the prelude, but the preludes of the two runs are different
ones. -/
theorem not_equal_of_maximum : ∃ applied s₁ expression s₂ v m v' m',
    (maximumCall.read .empty).1.expression.Applies (maximum.read .empty).1.expression [] ∧
      Module.compile (maximum.read .empty).1.expression .empty .applied (some firstPrelude)
        (maximumCall.read .empty).2 = (.ok applied, s₁) ∧
      Module.compile (maximumCall.read .empty).1.expression .empty .expression (some firstPrelude)
        s₁ = (.ok expression, s₂) ∧
      run 5 (ofModule applied .nil {} s₂) = some (.halted v, m) ∧
      run 6 (ofModule expression .nil {} m.store) = some (.halted v', m') ∧
      m'.store.equal v v' = false := by
  have hmaxima : maxima?.any (fun (v, v', s) => !s.equal v v') = true := by decide +kernel
  obtain ⟨⟨v, v', s⟩, hfound, hunequal⟩ := (Option.any_eq_true _ _).1 hmaxima
  obtain ⟨⟨applied, expression, s₂⟩, hcompiled, hfound⟩ := Option.bind_eq_some_iff.1 hfound
  obtain ⟨⟨outcome, m⟩, hrun, hfound⟩ := Option.bind_eq_some_iff.1 hfound
  obtain ⟨⟨outcome', m'⟩, hrun', hfound⟩ := Option.bind_eq_some_iff.1 hfound
  obtain ⟨w, hv, hfound⟩ := Option.bind_eq_some_iff.1 hfound
  obtain ⟨w', hv', hfound⟩ := Option.map_eq_some_iff.1 hfound
  obtain ⟨rfl, rfl, rfl⟩ : w = v ∧ w' = v' ∧ m'.store = s := by simpa using hfound
  obtain rfl := Outcome.eq_halted_of_value? hv
  obtain rfl := Outcome.eq_halted_of_value? hv'
  obtain ⟨s₁, happlied, hexpression⟩ := exists_of_bothShapes? hcompiled
  exact ⟨applied, s₁, expression, s₂, w, m, w', m', ⟨[], rfl, .nil⟩, happlied, hexpression, hrun,
    hrun', by simpa using hunequal⟩

end Machine

end Secd
