import Secd.Proofs.Machine.Clean
import Secd.Proofs.Machine.Reached
import Secd.Proofs.Module.Unchanged
import Secd.Proofs.Reader.RoundTrip
import Secd.Proofs.Store.Unfolding

/-!
# The placeholder of a letrec frame

A closure is a pair with the environment in its tail. So a program that takes its closures apart
gets hold of the environment, and of the placeholder while the cell in front is pending. In a
*discreet* run this does not happen: no `CAR` opens a pending cell. All machines of a discreet run
of a compiled program are clean, and when the run stops no cell is pending. Then the placeholder
cannot be reached from the result, and all atoms that can be reached are proper; so a result which
is a tree without callables is printed as text that can be read.
-/

namespace Secd

variable {o : Origin} {closures pending : List Nat}

namespace Machine

variable {m m' : Machine}

/-! ### Runs of compiled programs -/

/-- A step that stops finds the result on the stack, and leaves the store as it is. -/
theorem mem_stack_of_stop {e : Effect} (h : Transition m.registers e) {v : Value}
    (hstep : step.run m = .ok (.stop v) m') : v ∈ m.stack ∧ m'.store = m.store := by
  have heffect := effect_of_stop h hstep
  have hstore : m'.store = m'.registers.store := rfl
  rw [hstore]
  generalize m'.registers = r at heffect
  subst heffect
  cases h with
  | stop _ hstack =>
    have hmem : v ∈ m.registers.stack := by
      rw [hstack]
      exact List.mem_cons_self
    exact ⟨hmem, rfl⟩

/-- A run that begins with `start` gets to the machine. The first list has the closures that `LDF`
has made on the way, and all pairs that `AP` has applied are among them. The second has the cells
that `DUM` has put in front of the environment and that no `RAP` has closed, and no `CAR` has opened
one of these. -/
inductive Discreet (start : Machine) : Machine → (closures pending : List Nat) → Prop where
  | start : Discreet start start [] []
  | step {m m' : Machine} {closures pending : List Nat} (h : Discreet start m closures pending)
      (happly : m.registers.AppliesKnown closures) (hspares : m.registers.Spares pending)
      (hstep : step.run m = .ok .proceed m') :
      Discreet start m' (m.registers.closures closures) (m.registers.pending pending)

/-- The machine after some steps, with the closures and the pending cells, if the run has been
discreet. -/
def discreet? (start : Machine) : Nat → Option (Machine × List Nat × List Nat)
  | 0 => some (start, [], [])
  | n + 1 =>
    match start.discreet? n with
    | some (m, closures, pending) =>
      if m.registers.AppliesKnown closures ∧ m.registers.Spares pending then
        match step.run m with
        | .ok .proceed m' => some (m', m.registers.closures closures, m.registers.pending pending)
        | _ => none
      else none
    | none => none

/-- Such a run is discreet. -/
theorem discreet_of_discreet? {start : Machine} {n : Nat}
    (h : start.discreet? n = some (m, closures, pending)) : Discreet start m closures pending := by
  induction n generalizing m closures pending with
  | zero =>
    obtain ⟨rfl, rfl, rfl⟩ := Option.some.inj h
    exact .start
  | succ n ih =>
    rw [discreet?] at h
    split at h
    · next m₁ closures₁ pending₁ hrun =>
      split at h
      · next hcond =>
        split at h
        · next m₂ hstep =>
          obtain ⟨rfl, rfl, rfl⟩ := Option.some.inj h
          exact .step (ih hrun) hcond.1 hcond.2 hstep
        · cases h
      · cases h
    · cases h

/-- All machines of a discreet run are clean. -/
theorem Discreet.clean {start : Machine} (h : Discreet start m closures pending)
    (houter : o.outer = 0) {args : Sexp} (hheld : o.store.Holds args) (hargs : o.args = args.value)
    (hfits : Fits o start [] []) (hclean : start.registers.Clean o.store []) :
    Fits o m closures pending ∧ m.registers.Clean o.store pending := by
  induction h with
  | start => exact ⟨hfits, hclean⟩
  | step _ happly hspares hstep ih =>
    obtain ⟨hfits, hclean⟩ := ih
    have hafter := hfits.of_step happly hstep
    obtain ⟨live, hwellFormed, -⟩ := hfits.wellFormed
    obtain ⟨live', hwellFormed', -⟩ := hafter.wellFormed
    obtain ⟨c, _, _, -, hcontrol⟩ := hwellFormed'.exists_held_control
    obtain ⟨e, he, -⟩ := hwellFormed.progresses
    have htransition := effect_of_proceed he hstep ▸ he
    refine ⟨hafter, hclean.of_transition hwellFormed houter hheld hargs hspares htransition ?_⟩
    rw [hcontrol]
    rfl

/-- A machine that is about to run a program is clean if the program and the arguments are held
fast. -/
theorem clean_ofModule {program : Module} {u : Store}
    (hcode : u.HoldsFast program.code) {args : Sexp} (hargs : u.HoldsFast args) (limits : Limits) :
    (ofModule program args.value limits u).registers.Clean
      (ofModule program args.value limits u).store [] := by
  obtain ⟨hs, env, henv, hframe⟩ := exists_holdsFast_env program args.value limits u
  rw [ofModule_eq_load program args.value limits u]
  exact {
    store := Store.clean_self _
    stack := List.forall_mem_singleton.2 (.inl ⟨args, hargs.extends hs, rfl⟩)
    env := .inl ⟨env, hframe, henv⟩
    control := .inl ⟨program.code, hcode.extends hs, rfl⟩
    dump := by
      intro entry hentry
      cases hentry
      contradiction }

/-! ### Results -/

/-- If no cell is pending, nothing that can be reached in a clean store is the placeholder. -/
theorem yields_of_follow {base s : Store} (h : base.Clean s []) (hs : base.Extends s)
    {path : List Selector} {v w : Value} (hv : base.Yields v) (hw : s.follow path v = some w) :
    base.Yields w := by
  induction path generalizing v with
  | nil =>
    obtain rfl := Option.some.inj hw
    exact hv
  | cons part path ih =>
    obtain ⟨u, hu, hw⟩ := Option.bind_eq_some_iff.1 hw
    cases v with
    | atom a => cases part <;> cases hu
    | pair c =>
      obtain ⟨hhead, htail⟩ := h.parts hs hv
      cases part with
      | head =>
        obtain rfl := Option.some.inj hu
        exact ih (hhead List.not_mem_nil) hw
      | tail =>
        obtain rfl := Option.some.inj hu
        exact ih htail hw

/-- If no cell is pending, all atoms of a tree in a clean store are proper. -/
theorem proper_of_yields {base s : Store} (h : base.Clean s []) (hs : base.Extends s) {e : Sexp}
    (he : s.Holds e) (hv : base.Yields e.value) : e.AllAtoms Atom.Proper := by
  induction e with
  | atom a =>
    rcases hv with ⟨e, hfast, heq⟩ | ⟨c, -, heq⟩
    · cases e with
      | atom b =>
        obtain rfl := Value.atom.inj heq
        exact hfast.proper
      | pair c head tail => cases heq
    · cases heq
  | pair c head tail ihHead ihTail =>
    obtain ⟨-, hcell, hheadHeld, htailHeld⟩ := he
    obtain ⟨hhead, htail⟩ := h.parts hs hv
    rw [hcell] at hhead htail
    exact ⟨ihHead hheadHeld (hhead List.not_mem_nil), ihTail htailHeld htail⟩

/-- The placeholder of a letrec frame does not become a value of the program. Let a program have
been read from a text and compiled, and arguments read from a text. If a run applies no pairs but
closures, and opens no cell of the environment by `CAR` between the `DUM` that makes the cell and
the `RAP` that closes it, then the placeholder cannot be reached from the result; and if this is a
tree without callables, it is printed as text that is read as the same tree. -/
theorem follow_ne_pending_of_compile {source text : String} {shape : Shape}
    {prelude : Option Prelude} {s s₁ s₂ t t₁ u : Store} {r a : Reading} {program : Module}
    (hprelude : Prelude.IsStandard prelude) (hread : Reader.readOne source s = (.ok r, s₁))
    (hheight : r.expression.height < Address.limit)
    (hcompile : Module.compile r.expression r.map shape prelude s₁ = (.ok program, s₂))
    (hargs : Reader.readOne text t = (.ok a, t₁)) (hprogram : s₂.Extends u) (htext : t₁.Extends u)
    (limits : Limits) {m m' : Machine} {closures pending : List Nat}
    (hrun : Discreet (ofModule program a.expression.value limits u) m closures pending) {v : Value}
    (hstop : step.run m = .ok (.stop v) m') :
    (∀ path w, m'.store.follow path v = some w → w ≠ .pending) ∧
      ∀ e, m'.store.Holds e → v = e.value → e.AllAtoms Atom.Plain →
        Reader.ReadsAs (m'.store.render v) e := by
  have hexpression := Reader.holdsFast_of_readOne hread
  obtain ⟨-, hcode, -⟩ := Module.holdsFast_of_compile hexpression hcompile
  have htree := (Reader.holdsFast_of_readOne hargs).extends htext
  obtain ⟨t, ending, sites, hcompiled, -, hsited⟩ := Module.exists_sited_of_compile hprelude
    hexpression.held hheight hcompile (Prelude.scopes prelude).length
  have hstart := wellFormed_ofModule hcompiled hprelude hprogram rfl (.inr rfl) hsited nofun
    a.expression.value limits
  have hbase := (exists_holdsFast_env program a.expression.value limits u).1
  obtain ⟨⟨⟨live, hwellFormed, -⟩, -⟩, hclean⟩ := hrun.clean rfl (htree.held.extends hbase) rfl
    ⟨⟨[], hstart, List.forall_mem_nil _⟩, nofun⟩
    (clean_ofModule (hcode.extends hprogram) htree limits)
  obtain ⟨-, rfl⟩ := registers_eq_of_stop hwellFormed hstop
  have hs := hwellFormed.new_pending.1
  obtain ⟨e, he, -⟩ := hwellFormed.progresses
  obtain ⟨hv, hstore⟩ := mem_stack_of_stop he hstop
  have hyields := hclean.stack v hv
  rw [hstore]
  refine ⟨fun path w hw => (yields_of_follow hclean.store hs hyields hw).ne_pending, ?_⟩
  rintro e he rfl hplain
  have hproper := proper_of_yields hclean.store hs he hyields
  exact Reader.readsAs_render he ((hproper.and hplain).imp fun _ ha => ha.1.readable ha.2)

/-- The result with which the next step stops the machine, if it does. -/
def stopped? (m : Machine) : Option Value :=
  match step.run m with
  | .ok (.stop v) _ => some v
  | _ => none

/-- Then the step stops with this result. -/
theorem exists_stop_of_stopped? {v : Value} (h : m.stopped? = some v) :
    ∃ m', step.run m = .ok (.stop v) m' := by
  rw [stopped?] at h
  split at h
  · next w m' hstep =>
    obtain rfl := Option.some.inj h
    exact ⟨m', hstep⟩
  · cases h

/-- Only a symbol is taken for one. -/
theorem eq_symbol_of_asSymbol {v : Value} {name : String} (h : v.asSymbol = .ok name) :
    v = .symbol name := by
  cases v with
  | atom a =>
    cases a with
    | symbol n =>
      obtain rfl := Except.ok.inj h
      rfl
    | _ => cases h
  | pair c => cases h

/-- A program with a recursive binding that takes a pair apart. -/
def firstOfPair : String := "(LETREC ((F (LAMBDA (X) (CAR X)))) (F (QUOTE (A))))"

/-- The run of the program makes two closures, applies both, and opens the pair `(A)`. Its result is
the symbol `A`, and is printed as such. -/
theorem follow_ne_pending_of_compile_firstOfPair :
    ∃ r s₁ program s₂ a s₃ m m' closures,
      Reader.readOne firstOfPair .empty = (.ok r, s₁) ∧
        Module.compile r.expression r.map .expression none s₁ = (.ok program, s₂) ∧
        Reader.readOne "NIL" s₂ = (.ok a, s₃) ∧
        Discreet (ofModule program a.expression.value {} s₃) m closures [] ∧ closures.length = 2 ∧
        step.run m = .ok (.stop (.symbol "A")) m' ∧
        (∀ path w, m'.store.follow path (.symbol "A") = some w → w ≠ .pending) ∧
        Reader.ReadsAs (m'.store.render (.symbol "A")) (.atom (.symbol "A")) := by
  have hcheck : (ofTexts? firstOfPair "NIL").any (fun start =>
      decide (start.store.size < Address.limit) && (start.discreet? 15).any fun reached =>
        reached.2.1.length == 2 && reached.2.2.isEmpty &&
          reached.1.stopped?.any fun v => decide (v.asSymbol = .ok "A")) = true := by
    decide +kernel
  obtain ⟨start, hstart, hcheck⟩ := (Option.any_eq_true _ _).1 hcheck
  obtain ⟨hsize, hrun⟩ := Bool.and_eq_true_iff.1 hcheck
  obtain ⟨⟨m, closures, pending⟩, hdiscreet, hrun⟩ := (Option.any_eq_true _ _).1 hrun
  obtain ⟨hcounts, hstop⟩ := Bool.and_eq_true_iff.1 hrun
  obtain ⟨hlength, hpending⟩ := Bool.and_eq_true_iff.1 hcounts
  obtain rfl := List.isEmpty_iff.1 hpending
  obtain ⟨v, hv, hsymbol⟩ := (Option.any_eq_true _ _).1 hstop
  obtain rfl := eq_symbol_of_asSymbol (of_decide_eq_true hsymbol)
  obtain ⟨m', hstop⟩ := exists_stop_of_stopped? hv
  obtain ⟨r, s₁, program, s₂, a, s₃, hread, hcompile, hargs, rfl⟩ := exists_of_ofTexts? hstart
  have hexpression := Reader.holdsFast_of_readOne hread
  have hcompiled := (Module.holdsFast_of_compile hexpression hcompile).1
  have hextends : s₂.Extends s₃ := (Reader.builds_of_readOne hargs).extends_store
  have hheight : r.expression.height < Address.limit := by
    have hle := hexpression.held.height_le_size
    have hloaded := (exists_holdsFast_env program a.expression.value {} s₃).1
    have hlt := of_decide_eq_true hsize
    have := hcompiled.size_le
    have := hextends.size_le
    have := hloaded.size_le
    omega
  have hrun := discreet_of_discreet? hdiscreet
  obtain ⟨hfree, hprinted⟩ := follow_ne_pending_of_compile Prelude.isStandard_none hread hheight
    hcompile hargs hextends (.refl s₃) {} hrun hstop
  exact ⟨r, s₁, program, s₂, a, s₃, m, m', closures, hread, hcompile, hargs, hrun,
    beq_iff_eq.1 hlength, hstop, hfree, hprinted _ trivial rfl trivial⟩

/-- A program with a recursive binding that gets the placeholder out of a closure. -/
def brokenClosure : String := "(LETREC ((A (CAR (CDR (LAMBDA () 1))))) A)"

/-- A program that applies data as if it were a closure. -/
def forgedClosure : String := "((QUOTE ((DUM LDF (RTN) CDR RTN))))"

/-- A program whose result is its own environment, with itself as the only item of the frame. -/
def knottedFrame : String := "(LETREC ((A (CDR (LAMBDA () 1)))) A)"

/-- What the printer writes for a cell within itself cannot be read. -/
theorem exists_error_of_cycle (s : Store) :
    ∃ e s', Reader.readOne "((#cycle))" s = (.error e, s') := by
  have hparse : (Reader.parseOne "((#cycle))").isOk = false := by decide +kernel
  rw [Reader.readOne]
  cases hresult : Reader.parseOne "((#cycle))" with
  | error e => exact ⟨e, s, rfl⟩
  | ok d =>
    rw [hresult] at hparse
    cases hparse

/-- From two cells that have each other as their heads only the empty list is reached. -/
theorem eq_nil_of_follow_knot {s : Store} {c d : Nat} (hc : s.cell c = ⟨.pair d, .nil⟩)
    (hd : s.cell d = ⟨.pair c, .nil⟩) {path : List Selector} {v : Value} {a : Atom}
    (hv : v = .pair c ∨ v = .pair d ∨ v = .nil) (ha : s.follow path v = some (.atom a)) :
    a = .nil := by
  induction path generalizing v with
  | nil =>
    obtain rfl := Option.some.inj ha
    rcases hv with hv | hv | hv <;> cases hv
    rfl
  | cons part path ih =>
    obtain ⟨w, hw, ha⟩ := Option.bind_eq_some_iff.1 ha
    refine ih ?_ ha
    rcases hv with rfl | rfl | rfl <;> cases part <;> cases hw
    · exact .inr (.inl (by rw [hc]))
    · exact .inr (.inr (by rw [hc]))
    · exact .inl (by rw [hd])
    · exact .inr (.inr (by rw [hd]))

/-- Whether the value is a cell that has another one for its head, which has the first one for its
head, and neither has a tail. -/
def isKnot (s : Store) : Value → Bool
  | .pair c =>
    match s.cell c with
    | ⟨.pair d, .nil⟩ =>
      match s.cell d with
      | ⟨.pair e, .nil⟩ => e == c
      | _ => false
    | _ => false
  | .atom _ => false

/-- Such a value is the address of a cell. -/
theorem exists_of_isKnot {s : Store} {v : Value} (h : isKnot s v = true) :
    ∃ c d, v = .pair c ∧ s.cell c = ⟨.pair d, .nil⟩ ∧ s.cell d = ⟨.pair c, .nil⟩ := by
  cases v with
  | atom a => cases h
  | pair c =>
    rw [isKnot] at h
    split at h
    · next d hc =>
      split at h
      · next e hd => exact ⟨c, d, rfl, hc, beq_iff_eq.1 h ▸ hd⟩
      · cases h
    · cases h

/-- It is not so that the placeholder cannot be reached from any result: neither if all pairs that
`AP` applies are closures, nor if `CAR` is never executed. And a result without closures and
callables is not always printed as text that can be read. -/
theorem not_forall_follow_ne_pending :
    (¬ ∀ source text r s₁ program s₂ a s₃ limits m closures v m',
      Reader.readOne source .empty = (.ok r, s₁) →
      Module.compile r.expression r.map .expression none s₁ = (.ok program, s₂) →
      Reader.readOne text s₂ = (.ok a, s₃) →
      Reached (ofModule program a.expression.value limits s₃) m closures →
      step.run m = .ok (.stop v) m' →
      ∀ path w, m'.store.follow path v = some w → w ≠ .pending) ∧
    (¬ ∀ source text r s₁ program s₂ a s₃ limits fuel v m',
      Reader.readOne source .empty = (.ok r, s₁) →
      Module.compile r.expression r.map .expression none s₁ = (.ok program, s₂) →
      Reader.readOne text s₂ = (.ok a, s₃) →
      run fuel (ofModule program a.expression.value limits s₃) = some (.halted v, m') →
      (∀ n < fuel, ((ofModule program a.expression.value limits s₃).after n).registers.opcode? ≠
        some (.unary .car)) →
      ∀ path w, m'.store.follow path v = some w → w ≠ .pending) ∧
    ¬ ∀ source text r s₁ program s₂ a s₃ limits fuel v m',
      Reader.readOne source .empty = (.ok r, s₁) →
      Module.compile r.expression r.map .expression none s₁ = (.ok program, s₂) →
      Reader.readOne text s₂ = (.ok a, s₃) →
      run fuel (ofModule program a.expression.value limits s₃) = some (.halted v, m') →
      (∀ path atom, m'.store.follow path v = some (.atom atom) → atom = .nil) →
      ∃ r' s', Reader.readOne (m'.store.render v) m'.store = (.ok r', s') := by
  refine ⟨?_, ?_, ?_⟩
  · intro hall
    have hcheck : (ofTexts? brokenClosure "NIL").any (fun start =>
        (start.reach? 10).any fun reached => reached.1.stopped?.any Value.isPending) = true := by
      decide +kernel
    obtain ⟨start, hstart, hrun⟩ := (Option.any_eq_true _ _).1 hcheck
    obtain ⟨⟨m, closures⟩, hreach, hstops⟩ := (Option.any_eq_true _ _).1 hrun
    obtain ⟨v, hv, hpending⟩ := (Option.any_eq_true _ _).1 hstops
    obtain ⟨m', hstop⟩ := exists_stop_of_stopped? hv
    obtain ⟨r, s₁, program, s₂, a, s₃, hread, hcompile, hargs, rfl⟩ := exists_of_ofTexts? hstart
    exact hall _ _ _ _ _ _ _ _ _ _ _ _ _ hread hcompile hargs (reached_of_reach? hreach) hstop
      [] v rfl (Value.isPending_iff.1 hpending)
  · intro hall
    have hcheck : (ofTexts? forgedClosure "NIL").any (fun start =>
        (List.range 11).all (fun n =>
          decide ((start.after n).registers.opcode? ≠ some (.unary .car))) &&
        (run 11 start).any fun ended => ended.1.value?.any fun v =>
          (ended.2.store.follow [.head] v).any Value.isPending) = true := by
      decide +kernel
    obtain ⟨start, hstart, hcheck⟩ := (Option.any_eq_true _ _).1 hcheck
    obtain ⟨hcodes, hrun⟩ := Bool.and_eq_true_iff.1 hcheck
    obtain ⟨r, s₁, program, s₂, a, s₃, hread, hcompile, hargs, rfl⟩ := exists_of_ofTexts? hstart
    obtain ⟨⟨outcome, m'⟩, hhalted, hvalue⟩ := (Option.any_eq_true _ _).1 hrun
    obtain ⟨v, hv, hhead⟩ := (Option.any_eq_true _ _).1 hvalue
    obtain rfl := Outcome.eq_halted_of_value? hv
    obtain ⟨w, hw, hpending⟩ := (Option.any_eq_true _ _).1 hhead
    refine hall _ _ _ _ _ _ _ _ _ _ _ _ hread hcompile hargs hhalted (fun n hn => ?_) [.head] w
      hw (Value.isPending_iff.1 hpending)
    exact of_decide_eq_true (List.all_eq_true.1 hcodes n (List.mem_range.2 hn))
  · intro hall
    have hcheck : (ofTexts? knottedFrame "NIL").any (fun start =>
        (run 10 start).any fun ended => ended.1.value?.any fun v =>
          ended.2.store.render v == "((#cycle))" && isKnot ended.2.store v) = true := by
      decide +kernel
    obtain ⟨start, hstart, hrun⟩ := (Option.any_eq_true _ _).1 hcheck
    obtain ⟨r, s₁, program, s₂, a, s₃, hread, hcompile, hargs, rfl⟩ := exists_of_ofTexts? hstart
    obtain ⟨⟨outcome, m'⟩, hhalted, hvalue⟩ := (Option.any_eq_true _ _).1 hrun
    obtain ⟨v, hv, hprinted⟩ := (Option.any_eq_true _ _).1 hvalue
    obtain rfl := Outcome.eq_halted_of_value? hv
    obtain ⟨htext, hknot⟩ := Bool.and_eq_true_iff.1 hprinted
    obtain ⟨c, d, rfl, hc, hd⟩ := exists_of_isKnot hknot
    have hnil (path : List Selector) (atom : Atom)
        (hatom : m'.store.follow path (.pair c) = some (.atom atom)) : atom = .nil :=
      eq_nil_of_follow_knot hc hd (.inl rfl) hatom
    obtain ⟨r', s', hagain⟩ := hall _ _ _ _ _ _ _ _ _ _ _ _ hread hcompile hargs hhalted hnil
    obtain ⟨e, s'', herror⟩ := exists_error_of_cycle m'.store
    have htext : m'.store.render (.pair c) = "((#cycle))" := beq_iff_eq.1 htext
    rw [htext] at hagain
    cases hagain.symm.trans herror

end Machine

end Secd
