import Secd.Proofs.Machine.Reached

/-!
# Calls of callables by their names

The compiler checks how many arguments a call has if the function is the name of a callable of the
prelude. When the machine comes to the `AP` of such a call, it finds this callable on top of the
stack and a list of so many arguments below it, whatever frames `AP`, `DUM` and `RAP` have put in
front of that of the prelude. So only calls of other functions can have a wrong number of arguments.
-/

namespace Secd

/-- Two call sites of a program are the same if their instructions are in the same place. -/
theorem CallSite.eq_of_value_eq {sites : List CallSite} (hdistinct : (cells sites).Nodup)
    {site site' : CallSite} (h : site ∈ sites) (h' : site' ∈ sites)
    (hvalue : site.code.value = site'.code.value) : site = site' := by
  have hcell : site.code.cell? = site'.code.cell? := by
    cases hcode : site.code <;> cases hcode' : site'.code <;> rw [hcode, hcode'] at hvalue <;>
      cases hvalue <;> rfl
  exact List.inj_on_of_nodup_map hdistinct h h' hcell

variable {o : Origin} {r : Registers} {live pending : List Nat}

/-- At the call of a callable by its name, a well-formed machine has the callable on the stack, and
as many arguments as it takes. -/
theorem WellFormed.exists_saturated (h : WellFormed o r live pending)
    (hdistinct : (CallSite.cells o.sites).Nodup) {site : CallSite} (hsite : site ∈ o.sites)
    {slot : Nat} (hcallee : site.callee = some slot) (hop : r.opcode? = some .ap)
    (hcontrol : r.control = site.code.value) : ∃ p identity args stack list,
      Primitive.all[slot]? = some p ∧
        r.stack = .callable ⟨identity, p.name, p.arity, p⟩ :: args :: stack ∧
          r.store.toList args = .ok list ∧ list.length = p.arity := by
  obtain ⟨⟨c, top, bottom, cells, opened, depth, ending, home, -, hrunning, hready⟩, -⟩ := h
  have hsame {site' : CallSite} (hsite' : site' ∈ o.sites) (hcode : site'.code = c) :
      site = site' := by
    refine CallSite.eq_of_value_eq hdistinct hsite hsite' ?_
    rw [hcode, ← hrunning.control, hcontrol]
  generalize cells.length = n at hready
  cases hready with
  | rap hcode _ _ _ _ _ _ => cases hrunning.opcode_eq hcode hop
  | code htyped hslots =>
    cases htyped with
    | ap _ hsite' _ _ =>
      obtain rfl := hsame hsite' rfl
      cases hcallee
    | @call _ _ slot' _ p _ _ _ _ _ hsite' hp _ =>
      obtain rfl := hsame hsite' rfl
      obtain rfl : slot' = slot := Option.some.inj hcallee
      obtain _ | @⟨_, _, _, _, ⟨identity, rfl⟩, _ | @⟨_, args, _, rest, hargs, -⟩⟩ := hslots
      obtain ⟨list, hlist, hlength⟩ := hargs.exists_toList
      exact ⟨p, identity, args, _, list, hp, hrunning.stack, hlist, hlength⟩
    | ld hcode _ _ _ | callee hcode _ _ _ _ _ | ldc hcode _ | nil hcode _ | push hcode _
    | ldf hcode _ _ | dum hcode _ | rap hcode _ _ _ | sel hcode _ _ _ | unary hcode _
    | binary hcode _ | stop hcode | rtn hcode | join hcode => cases hrunning.opcode_eq hcode hop

namespace Machine

/-- The static check of the numbers of arguments is sound. A program that has been compiled with the
standard prelude has call sites, each in a cell of its own. Let a machine be reached from the one
that is about to run the program, while `AP` has only applied pairs that are closures. If it
executes the `AP` of a call whose function is a name in the frame of the prelude, it finds the
callable of this name on top of the stack and below it a list of as many arguments as the callable
takes. And if a step faults because of the number of arguments, it executes the `AP` of another
call. -/
theorem saturated_of_compile {e : Sexp} {map : SourceMap} {shape : Shape} {callables : Prelude}
    {program : Module} {s s₁ s₂ : Store} (hprelude : Prelude.IsStandard (some callables))
    (he : s.Holds e) (hheight : e.height < Address.limit)
    (hcompile : Module.compile e map shape (some callables) s = (.ok program, s₁))
    (hs : s₁.Extends s₂) (hclosed : s₂.Closed) {args : Value} (hargs : s₂.Contains args)
    (limits : Limits) :
    (∃ t sites, Term.Resolves (Prelude.scopes (some callables)) e t ∧ program.Sited 0 t sites) ∧
    ∀ t sites, Term.Resolves (Prelude.scopes (some callables)) e t → program.Sited 0 t sites →
      ∀ m closures, Reached (ofModule program args limits s₂) m closures →
        (∀ site ∈ sites, ∀ slot, site.callee = some slot → m.registers.opcode? = some .ap →
          m.control = site.code.value → ∃ p identity list stack items,
            callables.names[slot]? = some p.name ∧
              m.stack = .callable ⟨identity, p.name, p.arity, p⟩ :: list :: stack ∧
                m.store.toList list = .ok items ∧ items.length = p.arity) ∧
        ∀ f m' expected got, step.run m = .error f m' → f.kind = .arityError expected got →
          ∃ site ∈ sites, site.callee = none ∧ m.control = site.code.value := by
  obtain ⟨term, ending, own, hcompiled, -, hown⟩ :=
    Module.exists_sited_of_compile hprelude he hheight hcompile 0
  refine ⟨⟨term, own, hcompiled.resolves, hown⟩, ?_⟩
  intro t sites hresolves hsited m closures hreached
  obtain rfl := hresolves.unique hcompiled.resolves
  have hwellFormed := Module.exists_compile_iff_wellFormed.1 ⟨program, s₁, hcompile⟩
  have hsaturated := hsited.saturated hprelude hresolves hwellFormed
  have hstart := wellFormed_ofModule hcompiled hprelude hs (Nat.zero_add 1).symm (.inl rfl) hsited
    (fun _ => hsaturated) args limits
  have hcode : s₂.Contains program.code.value := (hcompiled.held.extends hs).contains
  obtain ⟨pending, ⟨live, hwellFormed, -⟩, -⟩ := hreached.fits
    ⟨⟨[], hstart, List.forall_mem_nil _⟩, fun _ => closed_ofModule hclosed hcode hargs limits⟩
  constructor
  · intro site hsite slot hcallee hop hcontrol
    obtain ⟨p, identity, list, stack, items, hp, hstack, hitems, hlength⟩ :=
      hwellFormed.exists_saturated hsited.distinct hsite hcallee hop hcontrol
    obtain ⟨u, hu⟩ := hprelude callables rfl
    have hnames : callables.names = Primitive.all.map Primitive.name := by
      rw [hu]
      exact Prelude.names_ofList u Primitive.all
    refine ⟨p, identity, list, stack, items, ?_, hstack, hitems, hlength⟩
    rw [hnames, List.getElem?_map, hp]
    rfl
  · intro f m' expected got hstep hkind
    exact (isBenign_of_step hwellFormed hstep).2 expected got hkind

/-- The program `((LAMBDA (X) (NEG X)) 5)`. -/
def negation : Datum :=
  let span : Span := ⟨0, 0⟩
  .list [.list [.symbol "LAMBDA" span, .list [.symbol "X" span] span,
    .list [.symbol "NEG" span, .symbol "X" span] span] span, .int 5 span] span

/-- The term of the program. The name `NEG` is the second one in the frame of the prelude. -/
def negationTerm : Term :=
  .apply (.lambda ["X"] (.apply (.variable ⟨1, 1⟩) [.variable ⟨0, 0⟩])) [.constant (.int 5)]

/-- The names in the program resolve to the addresses in the term. -/
theorem resolves_negation : Term.Resolves (Prelude.scopes (some (Prelude.standard .empty).1))
    (negation.read .empty).1.expression negationTerm := by
  have hneg : Scopes.locate? (["X"] :: Prelude.scopes (some (Prelude.standard .empty).1)) "NEG" =
      some ⟨1, 1⟩ := by decide +kernel
  exact .call rfl
    (.lambda rfl rfl (.call rfl (.variable rfl hneg) (.cons (.variable rfl rfl) .nil)))
    (.cons (.constant rfl) .nil)

/-- The code of the term has a call site in cell 11, whose function is the second callable. -/
theorem exists_sited_negation {program : Module} {s : Store}
    (h : Module.ofTerm negationTerm .expression true (negation.read .empty).2 = (program, s)) :
    ∃ sites, program.Sited 0 negationTerm sites ∧
      ∃ site ∈ sites, site.callee = some 1 ∧ site.code.value = .pair 11 := by
  have hx : Address.Below Address.limit ⟨0, 0⟩ := ⟨by decide, by decide⟩
  have hneg : Address.Below Address.limit ⟨1, 1⟩ := ⟨by decide, by decide⟩
  obtain ⟨rfl, -⟩ := Prod.mk.inj h
  refine ⟨_, ⟨⟨_, _, .apply ⟨_, _, rfl, _, _, rfl, rfl⟩
    (.cons .nil (.constant ⟨_, _, rfl, _, _, rfl, rfl⟩) ⟨_, _, rfl, rfl⟩)
    (.lambda ⟨_, _, rfl, _, _, rfl, rfl⟩ (.apply ⟨_, _, rfl, _, _, rfl, rfl⟩
      (.cons .nil (.variable ⟨_, _, rfl, _, _, rfl, rfl⟩ hx) ⟨_, _, rfl, rfl⟩)
      (.variable ⟨_, _, rfl, _, _, rfl, rfl⟩ hneg) ⟨_, _, rfl, rfl⟩)
      ⟨_, _, rfl, rfl⟩) ⟨_, _, rfl, rfl⟩, ⟨_, _, rfl, rfl⟩, rfl⟩, by decide⟩, ?_⟩
  exact ⟨_, List.mem_cons_self, rfl, rfl⟩

/-- Whether the code in the cell is what the machine runs next. -/
def isAt (m : Machine) (cell : Nat) : Bool :=
  match m.control with
  | .pair c => c == cell
  | .atom _ => false

/-- Then the control of the machine is the cell. -/
theorem control_of_isAt {m : Machine} {cell : Nat} (h : m.isAt cell = true) :
    m.control = .pair cell := by
  rw [isAt] at h
  split at h
  · next c heq => rw [heq, beq_iff_eq.1 h]
  · cases h

/-- After nine steps the program comes to the call of `NEG` inside of its function, and finds the
callable and a list of one argument on the stack. -/
theorem saturated_of_compile_negation : ∃ program s m closures,
    Module.compile (negation.read .empty).1.expression .empty .expression
        (some (Prelude.standard .empty).1) (negation.read .empty).2 = (.ok program, s) ∧
      Reached (ofModule program .nil {} s) m closures ∧ closures.length = 1 ∧
      ∃ p identity list stack items,
        m.stack = .callable ⟨identity, p.name, p.arity, p⟩ :: list :: stack ∧
        (Prelude.standard .empty).1.names[1]? = some p.name ∧
        m.store.toList list = .ok items ∧ items.length = p.arity := by
  have hprelude : Prelude.IsStandard (some (Prelude.standard .empty).1) := by
    rintro callables heq
    exact ⟨.empty, (Option.some.inj heq).symm⟩
  have hheight : (negation.read .empty).1.expression.height < Address.limit := by decide
  have hheld := (negation.builds_read .empty).held
  have haccepted : (Module.compile (negation.read .empty).1.expression .empty .expression
      (some (Prelude.standard .empty).1) (negation.read .empty).2).1.isOk = true := by
    decide +kernel
  have hreaches :
      ((ofModule (Module.ofTerm negationTerm .expression true (negation.read .empty).2).1 .nil {}
        (Module.ofTerm negationTerm .expression true (negation.read .empty).2).2).reach? 9).any
        (fun reached => reached.2.length == 1 &&
          decide (reached.1.registers.opcode? = some .ap) && reached.1.isAt 11) = true := by
    decide +kernel
  cases hcompile : Module.compile (negation.read .empty).1.expression .empty .expression
      (some (Prelude.standard .empty).1) (negation.read .empty).2 with
  | mk result s =>
    rw [hcompile] at haccepted
    cases result with
    | error errors => cases haccepted
    | ok program =>
      obtain ⟨t, hresolves, hprogram⟩ := Module.exists_ofTerm_of_compile hcompile
      obtain rfl := hresolves.unique resolves_negation
      obtain ⟨sites, hsited, site, hsite, hcallee, hcell⟩ := exists_sited_negation hprogram
      rw [show Module.ofTerm negationTerm .expression true (negation.read .empty).2 = (program, s)
          from
        hprogram] at hreaches
      obtain ⟨⟨m, closures⟩, hreach, hfacts⟩ := (Option.any_eq_true _ _).1 hreaches
      obtain ⟨hcounts, hcontrol⟩ := Bool.and_eq_true_iff.1 hfacts
      obtain ⟨hlength, hop⟩ := Bool.and_eq_true_iff.1 hcounts
      have hcontrol : m.control = site.code.value := (control_of_isAt hcontrol).trans hcell.symm
      have hreached := reached_of_reach? hreach
      have hclosed : s.Closed := by
        have hbuilt := (negation.builds_read .empty).closed fun c hc =>
          absurd hc (Nat.not_lt_zero c)
        exact (Module.exists_compiled_of_compile hprelude hheld hheight hcompile).2.1 hbuilt
      obtain ⟨-, hcalls⟩ := saturated_of_compile hprelude hheld hheight hcompile (.refl s) hclosed
        (Store.contains_atom s .nil) {}
      obtain ⟨hnamed, -⟩ := hcalls negationTerm sites hresolves hsited m closures hreached
      obtain ⟨p, identity, list, stack, items, hname, hstack, hitems, hcount⟩ :=
        hnamed site hsite 1 hcallee (of_decide_eq_true hop) hcontrol
      exact ⟨program, s, m, closures, rfl, hreached, beq_iff_eq.1 hlength, p, identity, list, stack,
        items, hstack, hname, hitems, hcount⟩

end Machine

end Secd
