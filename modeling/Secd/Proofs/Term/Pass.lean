import Secd.Proofs.Term.Faults
import Secd.Proofs.Term.Production

/-!
# Compiling in one pass

An expression need not be turned into a term before its code is written. Its forms can be recognised
and its names resolved while the code is written, with one stack of scopes for the whole pass: a
frame of names is pushed before the body of a function and popped after it. What is at fault is
reported and left out. This file defines the pass and proves that it comes to the same as analysing
the expression first. It reports the faults that the analysis finds, in the same order, and writes
the code of the term if there are none. In either case it leaves the scopes as they were.
-/

namespace Secd

/-- What a pass works on: the scopes of the place at which it is, the errors that it has reported,
and what it has written. -/
structure Progress where
  scopes : Scopes
  errors : List CompileError
  assembly : Assembly

/-- Steps of a pass. -/
abbrev Pass := StateM Progress

namespace Pass

open Assembler Term

/-- Writes code. -/
def write (x : Assembler Sexp) : Pass Sexp :=
  modifyGet fun
    | ⟨scopes, errors, assembly⟩ =>
      match x.run assembly with
      | (c, assembly) => (c, ⟨scopes, errors, assembly⟩)

/-- Reports errors. -/
def report (found : List CompileError) : Pass Unit :=
  modify fun
    | ⟨scopes, errors, assembly⟩ => ⟨scopes, errors ++ found, assembly⟩

/-- Reports errors in place of writing anything in front of the code `c`. -/
def skip (found : List CompileError) (c : Sexp) : Pass Sexp := do
  report found
  pure c

/-- The scopes at this place. -/
def scopes : Pass Scopes := do pure (← get).scopes

/-- Pushes a frame of names. -/
def push (names : List String) : Pass Unit :=
  modify fun
    | ⟨scopes, errors, assembly⟩ => ⟨names :: scopes, errors, assembly⟩

/-- Pops the innermost frame. -/
def pop : Pass Unit :=
  modify fun
    | ⟨scopes, errors, assembly⟩ => ⟨scopes.tail, errors, assembly⟩

/-- Takes steps in the scope of names. -/
def within (names : List String) (p : Pass Sexp) : Pass Sexp := do
  push names
  let c ← p
  pop
  pure c

/-- Notes the block that the code `c` of an arm loads first, if the arm is a function. -/
def note (name : String) (init c : Sexp) : Assembler Sexp :=
  match c with
  | .pair i (.symbol op) (.pair j block rest) =>
    if init.isLambdaForm ∧ op = Opcode.ldf.mnemonic then
      noteBlock name (.pair i (.symbol op) (.pair j block rest))
    else
      pure c
  | c => pure c

mutual

/-- Compiles the expression, which was written at `span`, in front of the code `c`. -/
def compile (cx : Context) (span : Option Span) : Sexp → (c : Sexp) → Pass Sexp
  | .symbol name, c => do
    match (← scopes).locate? name with
    | some a => write (do instruction .ld [← address a] c)
    | none => skip [⟨.undeclaredIdentifier name, span⟩] c
  | .atom a, c => write (instruction .ldc [.atom a] c)
  | .pair cell head tail, c =>
    match Keyword.ofSexp? head, tail.items? with
    | some keyword, some operands =>
      if operands.length = keyword.operandCount then
        compileForm cx keyword tail c
      else
        skip [⟨.malformedForm (.operandCount keyword operands.length), span⟩] c
    | some keyword, none => skip [⟨.malformedForm (.improperForm keyword), span⟩] c
    | none, some args => do
      report (callErrors cx (← scopes) (cx.map.headSpan? cell) head args)
      let c ← compile cx (cx.map.headSpan? cell) head (← write (instruction .ap [] c))
      write (instruction .ldc [.nil] (← compileOperands cx tail c))
    | none, none => skip [⟨.malformedForm (.improperApplication (.pair cell head tail)), span⟩] c
termination_by structural e => e

/-- Compiles a form, given its operands in the right number. -/
def compileForm (cx : Context) : Keyword → Sexp → (c : Sexp) → Pass Sexp
  | .quote, .pair _ e _, c => write (instruction .ldc [e] c)
  | .unary op, .pair a x _, c => do
    compile cx (cx.map.headSpan? a) x (← write (instruction (.unary op) [] c))
  | .binary op, .pair a x (.pair b y _), c => do
    let c ← write (instruction (.binary op) [] c)
    if op.leftFirst then
      compile cx (cx.map.headSpan? a) x (← compile cx (cx.map.headSpan? b) y c)
    else
      compile cx (cx.map.headSpan? b) y (← compile cx (cx.map.headSpan? a) x c)
  | .if, .pair a test (.pair b yes (.pair d no _)), c => do
    let yes ← compile cx (cx.map.headSpan? b) yes (← write (instruction .join [] .nil))
    let no ← compile cx (cx.map.headSpan? d) no (← write (instruction .join [] .nil))
    compile cx (cx.map.headSpan? a) test (← write (instruction .sel [yes, no] c))
  | .lambda, .pair a params (.pair b body _), c =>
    match Binder.ofList params with
    | .ok names => do
      let block ← within names do
        compile cx (cx.map.headSpan? b) body (← write (instruction .rtn [] .nil))
      write (instruction .ldf [block] c)
    | .error fault => skip [⟨.malformedForm (.binders fault), cx.map.headSpan? a⟩] c
  | .let, .pair a bindings (.pair b body _), c =>
    match boundNames cx.map bindings (cx.map.headSpan? a) with
    | .ok names => do
      let c ← write (instruction .ap [] c)
      let block ← within names do
        compile cx (cx.map.headSpan? b) body (← write (instruction .rtn [] .nil))
      let c ← write (instruction .ldf [block] c)
      write (instruction .ldc [.nil] (← compileInits cx bindings c))
    | .error errors => skip errors c
  | .letrec, .pair a bindings (.pair b body _), c =>
    match boundNames cx.map bindings (cx.map.headSpan? a) with
    | .ok names => do
      let c ← within names do
        let block ← compile cx (cx.map.headSpan? b) body (← write (instruction .rtn [] .nil))
        let c ← write (instruction .ldf [block] (← write (instruction .rap [] c)))
        compileArms cx names bindings c
      write (instruction .dum [] (← write (instruction .ldc [.nil] c)))
    | .error errors => skip errors c
  | keyword, operands, c =>
    skip [⟨.malformedForm (.operandCount keyword (operands.length?.getD 0)), none⟩] c
termination_by structural _ e => e

/-- Compiles the items of a list, the first one last. -/
def compileOperands (cx : Context) : Sexp → (c : Sexp) → Pass Sexp
  | .pair cell e rest, c => do
    let c ← write (instruction (.binary .cons) [] c)
    compileOperands cx rest (← compile cx (cx.map.headSpan? cell) e c)
  | .atom _, c => pure c
termination_by structural e => e

/-- Compiles the initial values in a list of bindings in the same way. -/
def compileInits (cx : Context) : Sexp → (c : Sexp) → Pass Sexp
  | .pair _ (.pair _ _ (.pair cell e _)) rest, c => do
    let c ← write (instruction (.binary .cons) [] c)
    compileInits cx rest (← compile cx (cx.map.headSpan? cell) e c)
  | _, c => pure c
termination_by structural e => e

/-- Does the same for a `LETREC`, and notes the blocks of its functions. -/
def compileArms (cx : Context) : List String → Sexp → (c : Sexp) → Pass Sexp
  | name :: names, .pair _ (.pair _ _ (.pair cell e _)) rest, c => do
    let c ← write (instruction (.binary .cons) [] c)
    let c ← write (note name e (← compile cx (cx.map.headSpan? cell) e c))
    compileArms cx names rest c
  | _, _, c => pure c
termination_by structural _ e => e

end

/-! ### What a pass performs -/

variable {α β : Type} {scopes : Scopes} {x : Checked α} {y : Checked β} {p : Pass Sexp}
  {q : Sexp → Pass Sexp} {f : α → Assembler Sexp} {g : Sexp → β → Assembler Sexp}

/-- Whatever has been reported and written before, the pass leaves the scopes as they are and
reports the errors of `x`. If `x` is a result, what is written is what `f` writes for it. -/
def Performs (p : Pass Sexp) (scopes : Scopes) (x : Checked α) (f : α → Assembler Sexp) : Prop :=
  ∀ errors a, ∃ c b, p.run ⟨scopes, errors, a⟩ = (c, ⟨scopes, errors ++ x.errors, b⟩) ∧
    ∀ t, x = .ok t → (f t).run a = (c, b)

/-- Code is written for a result. -/
theorem performs_write (t : α) {w : Assembler Sexp} (hw : f t = w) :
    Performs (write w) scopes (.ok t) f := by
  intro errors a
  subst hw
  refine ⟨((f t).run a).1, ((f t).run a).2, ?_, fun u h => ?_⟩
  · rw [Checked.errors, List.append_nil]
    rfl
  · obtain rfl := Except.ok.inj h
    rfl

/-- Nothing need be written for a result. -/
theorem performs_pure (t : α) {c : Sexp} (hc : f t = pure c) :
    Performs (pure c) scopes (.ok t) f :=
  performs_write t hc

/-- Errors are reported where there is no result. -/
theorem performs_skip (found : List CompileError) (c : Sexp) :
    Performs (skip found c) scopes (.error found) f :=
  fun _ a => ⟨c, a, rfl, fun _ h => nomatch h⟩

/-- It does not matter how the code is written. -/
theorem Performs.congr (h : Performs p scopes x f) {f' : α → Assembler Sexp}
    (hf : ∀ t a, x = .ok t → (f' t).run a = (f t).run a) : Performs p scopes x f' := by
  intro errors a
  obtain ⟨c, b, hrun, hcode⟩ := h errors a
  exact ⟨c, b, hrun, fun t ht => (hf t a ht).trans (hcode t ht)⟩

/-- Something may be computed from the result before the code is written. -/
theorem Performs.map {k : α → β} {f : β → Assembler Sexp}
    (h : Performs p scopes x fun t => f (k t)) : Performs p scopes (x.map k) f := by
  intro errors a
  obtain ⟨c, b, hrun, hcode⟩ := h errors a
  rw [← Checked.errors_map x k] at hrun
  refine ⟨c, b, hrun, fun u hu => ?_⟩
  obtain ⟨t, ht, rfl⟩ := exists_of_map_eq_ok hu
  exact hcode t ht

/-- One part after the other. -/
theorem Performs.bind (hp : Performs p scopes x f) (hq : ∀ c, Performs (q c) scopes y (g c)) :
    Performs (p >>= q) scopes (Checked.both x y) fun (t, u) => f t >>= fun c => g c u := by
  intro errors a
  obtain ⟨c, b, hrun, hcode⟩ := hp errors a
  obtain ⟨d, b', hrun', hcode'⟩ := hq c (errors ++ x.errors) b
  refine ⟨d, b', ?_, fun (t, u) htu => ?_⟩
  · rw [Checked.errors_both, ← List.append_assoc, StateT.run_bind, hrun]
    exact hrun'
  · obtain ⟨ht, hu⟩ := Checked.both_eq_ok_iff.1 htu
    exact run_bind (hcode t ht) (hcode' u hu)

/-- Code is written first. -/
theorem performs_bind (w : Assembler Sexp) (hq : ∀ c, Performs (q c) scopes y (g c)) :
    Performs (write w >>= q) scopes y fun u => w >>= fun c => g c u := by
  intro errors a
  obtain ⟨d, b, hrun, hcode⟩ := hq (w.run a).1 errors (w.run a).2
  exact ⟨d, b, hrun, fun u hu => run_bind rfl (hcode u hu)⟩

/-- Code is written last. -/
theorem Performs.write (hp : Performs p scopes x f) (w : Sexp → Assembler Sexp) :
    Performs (p >>= fun c => write (w c)) scopes x fun t => f t >>= w := by
  intro errors a
  obtain ⟨c, b, hrun, hcode⟩ := hp errors a
  refine ⟨((w c).run b).1, ((w c).run b).2, ?_, fun t ht => run_bind (hcode t ht) rfl⟩
  rw [StateT.run_bind, hrun]
  rfl

/-- The scopes are those of the place. -/
theorem performs_scopes {q : Scopes → Pass Sexp} (hq : Performs (q scopes) scopes x f) :
    Performs (Pass.scopes >>= q) scopes x f :=
  hq

/-- Errors are reported first. -/
theorem Performs.report (hp : Performs p scopes x f) (found : List CompileError) :
    Performs (report found >>= fun _ => p) scopes (Checked.both (Checked.require found) x)
      fun (_, t) => f t := by
  intro errors a
  obtain ⟨c, b, hrun, hcode⟩ := hp (errors ++ found) a
  refine ⟨c, b, ?_, fun (_, t) ht => hcode t (Checked.both_eq_ok_iff.1 ht).2⟩
  rw [Checked.errors_both, Checked.errors_require, ← List.append_assoc]
  exact hrun

/-- The frame that is pushed is popped. -/
theorem Performs.within {names : List String} (hp : Performs p (names :: scopes) x f) :
    Performs (within names p) scopes x f := by
  intro errors a
  obtain ⟨c, b, hrun, hcode⟩ := hp errors a
  have hinside : (p >>= fun c => pop >>= fun _ => pure c).run ⟨names :: scopes, errors, a⟩ =
      (c, ⟨scopes, errors ++ x.errors, b⟩) := by
    rw [StateT.run_bind, hrun]
    rfl
  exact ⟨c, b, hinside, hcode⟩

/-! ### The block of an arm -/

/-- Nothing is noted unless the arm is a function. -/
theorem note_of_not {name : String} {init : Sexp} (h : ¬ init.isLambdaForm = true) (c : Sexp) :
    note name init c = pure c := by
  rw [note.eq_def]
  split
  · rw [if_neg fun hboth => h hboth.1]
  · rfl

/-- The code of a function loads its block first. -/
theorem code_bind_note {name : String} {init : Sexp} (h : init.isLambdaForm = true)
    (params : List String) (body : Term) (c : Sexp) :
    (Term.lambda params body).code c >>= note name init =
      (Term.lambda params body).code c >>= noteBlock name := by
  funext a
  obtain ⟨i, j, block, hblock⟩ := exists_block params body c a
  have hnote : note name init (((Term.lambda params body).code c).run a).1 =
      noteBlock name (((Term.lambda params body).code c).run a).1 := by
    rw [hblock, Opcode.sexp, note, if_pos ⟨h, rfl⟩]
  exact congrArg (fun x => x.run (((Term.lambda params body).code c).run a).2) hnote

/-- The analysis takes an expression for a function if it has the form of one. -/
theorem isLambdaForm_iff {cx : Context} {span : Option Span} {e : Sexp} {t : Term}
    (h : ofSexp cx scopes span e = .ok t) :
    e.isLambdaForm = true ↔ ∃ params body, t = .lambda params body := by
  have hresolves := resolves_of_ofSexp e h
  have hwell := (decides_ofSexp scopes span e).exists_ok.1 ⟨t, h⟩
  rw [hresolves.isLambda_iff]
  constructor
  · intro hform
    obtain ⟨params, body, names, hphrase, -⟩ := hwell.exists_lambda hform
    exact ⟨_, hphrase⟩
  · rintro ⟨operands, hphrase⟩
    obtain ⟨params, body, rfl⟩ := List.length_eq_two.1 (hwell.length_operands hphrase)
    exact (Sexp.second?_of_phrase_lambda hphrase).1

/-- What is noted after an arm is what the code of the arms notes. -/
theorem codeArms_eq_note {cx : Context} {span : Option Span} {init : Sexp} {t : Term}
    (ht : ofSexp cx scopes span init = .ok t) (name : String) (names : List String)
    (ts : List Term) (c : Sexp) :
    codeArms (name :: names) (t :: ts) c = instruction (.binary .cons) [] c >>= fun c =>
      t.code c >>= fun c => note name init c >>= codeArms names ts := by
  by_cases hform : init.isLambdaForm = true
  · obtain ⟨params, body, rfl⟩ := (isLambdaForm_iff ht).1 hform
    rw [codeArms_lambda]
    refine bind_congr fun c => ?_
    rw [← code_bind_note hform, bind_assoc]
  · rw [codeArms_of_ne fun params body h => hform ((isLambdaForm_iff ht).2 ⟨params, body, h⟩)]
    refine bind_congr fun c => bind_congr fun c => ?_
    rw [note_of_not hform, pure_bind]

/-! ### The pass and the analysis -/

variable {cx : Context}

mutual

/-- The pass over an expression performs its analysis, and writes the code of its term. -/
theorem performs_compile (scopes : Scopes) (span : Option Span) : (e c : Sexp) →
    Performs (compile cx span e c) scopes (ofSexp cx scopes span e) fun t => t.code c
  | .symbol name, c => by
    rw [compile, ofSexp]
    refine performs_scopes ?_
    cases scopes.locate? name with
    | some a => exact performs_write (Term.variable a) rfl
    | none => exact performs_skip _ c
  | .nil, c => performs_write (Term.constant .nil) rfl
  | .int n, c => performs_write (Term.constant (.int n)) rfl
  | .atom (.callable k), c => performs_write (Term.constant (.atom (.callable k))) rfl
  | .pair cell head tail, c => by
    rw [compile, ofSexp]
    cases Keyword.ofSexp? head with
    | some keyword =>
      cases tail.items? with
      | some operands =>
        dsimp only
        split
        · exact performs_compileForm scopes keyword tail c
        · exact performs_skip _ c
      | none => exact performs_skip _ c
    | none =>
      cases tail.items? with
      | some args =>
        refine Performs.map ?_
        have hargs := fun c => (performs_compileOperands scopes tail c).write
          (instruction .ldc [.nil])
        have hcall := performs_bind (instruction .ap [] c) fun c =>
          (performs_compile scopes (cx.map.headSpan? cell) head c).bind hargs
        exact hcall.report (callErrors cx scopes (cx.map.headSpan? cell) head args)
      | none => exact performs_skip _ c
termination_by structural e => e

/-- The same for a form. -/
theorem performs_compileForm (scopes : Scopes) : (keyword : Keyword) → (operands c : Sexp) →
    Performs (compileForm cx keyword operands c) scopes (ofForm cx scopes keyword operands)
      fun t => t.code c
  | .quote, .pair _ e _, c => by
    rw [compileForm, ofForm]
    exact performs_write (Term.constant e) rfl
  | .unary op, .pair a x _, c => by
    rw [compileForm, ofForm]
    exact .map (performs_bind _ (performs_compile scopes _ x))
  | .binary op, .pair a x (.pair b y _), c => by
    have hfirst := performs_compile scopes (cx.map.headSpan? a) x
    have hsecond := performs_compile scopes (cx.map.headSpan? b) y
    rw [ofForm, compileForm]
    split
    · exact .map (performs_bind _ fun c => (hsecond c).bind hfirst)
    · exact .map (performs_bind _ fun c => (hfirst c).bind hsecond)
  | .if, .pair a test (.pair b yes (.pair d no _)), c => by
    have hyes := performs_bind (instruction .join [] .nil)
      (performs_compile scopes (cx.map.headSpan? b) yes)
    have hno := performs_bind (instruction .join [] .nil)
      (performs_compile scopes (cx.map.headSpan? d) no)
    have htest := fun block block' => performs_bind (instruction .sel [block, block'] c)
      (performs_compile scopes (cx.map.headSpan? a) test)
    rw [ofForm, compileForm]
    exact .map (hyes.bind fun block => hno.bind (htest block))
  | .lambda, .pair a params (.pair b body _), c => by
    rw [compileForm, ofForm]
    cases Binder.ofList params with
    | ok names =>
      have hbody := performs_bind (instruction .rtn [] .nil)
        (performs_compile (names :: scopes) (cx.map.headSpan? b) body)
      exact .map (hbody.within.write fun block => instruction .ldf [block] c)
    | error fault => exact performs_skip _ c
  | .let, .pair a bindings (.pair b body _), c => by
    rw [compileForm, ofForm]
    cases boundNames cx.map bindings (cx.map.headSpan? a) with
    | ok names =>
      have hbody := performs_bind (instruction .rtn [] .nil)
        (performs_compile (names :: scopes) (cx.map.headSpan? b) body)
      have hinits := fun c => (performs_compileInits scopes bindings c).write
        (instruction .ldc [.nil])
      refine .map (performs_bind (instruction .ap [] c) fun c => ?_)
      exact hbody.within.bind fun block => performs_bind (instruction .ldf [block] c) hinits
    | error errors => exact performs_skip _ c
  | .letrec, .pair a bindings (.pair b body _), c => by
    rw [compileForm, ofForm]
    cases hnames : boundNames cx.map bindings (cx.map.headSpan? a) with
    | ok names =>
      obtain ⟨arms, harms, rfl⟩ := exists_arms_of_boundNames hnames
      have hbody := performs_bind (instruction .rtn [] .nil)
        (performs_compile (arms.map Prod.fst :: scopes) (cx.map.headSpan? b) body)
      have hinits := fun block => performs_bind (instruction .rap [] c) fun c =>
        performs_bind (instruction .ldf [block] c)
          (performs_compileArms (arms.map Prod.fst :: scopes) bindings harms)
      have hblocks := (hbody.bind hinits).within.write fun c =>
        instruction .ldc [.nil] c >>= instruction .dum []
      exact .map hblocks
    | error errors => exact performs_skip _ c
  | keyword, .atom _, c => by
    cases keyword <;> exact performs_skip _ c
  | .binary _, .pair _ _ (.atom _), c | .if, .pair _ _ (.atom _), c
  | .lambda, .pair _ _ (.atom _), c | .let, .pair _ _ (.atom _), c
  | .letrec, .pair _ _ (.atom _), c | .if, .pair _ _ (.pair _ _ (.atom _)), c =>
    performs_skip _ c
termination_by structural _ operands => operands

/-- The same for the items of a list. -/
theorem performs_compileOperands (scopes : Scopes) : (list c : Sexp) →
    Performs (compileOperands cx list c) scopes (ofOperands cx scopes list) fun ts => codeArgs ts c
  | .pair cell e rest, c => by
    rw [compileOperands, ofOperands]
    refine .map (performs_bind _ fun c => ?_)
    exact (performs_compile scopes _ e c).bind (performs_compileOperands scopes rest)
  | .atom _, c => performs_pure [] rfl
termination_by structural list => list

/-- The same for the initial values in a list of bindings. -/
theorem performs_compileInits (scopes : Scopes) : (bindings c : Sexp) →
    Performs (compileInits cx bindings c) scopes (ofArms cx scopes bindings) fun ts => codeArgs ts c
  | .pair _ (.pair _ _ (.pair cell e _)) rest, c => by
    rw [compileInits, ofArms]
    refine .map (performs_bind _ fun c => ?_)
    exact (performs_compile scopes _ e c).bind (performs_compileInits scopes rest)
  | .atom _, c | .pair _ (.atom _) _, c | .pair _ (.pair _ _ (.atom _)) _, c =>
    performs_pure [] rfl
termination_by structural bindings => bindings

/-- The same for the arms of a `LETREC`. -/
theorem performs_compileArms (scopes : Scopes) : (bindings : Sexp) → {arms : List (String × Sexp)} →
    bindings.arms? = some arms → (c : Sexp) →
      Performs (compileArms cx (arms.map Prod.fst) bindings c) scopes (ofArms cx scopes bindings)
        fun ts => codeArms (arms.map Prod.fst) ts c
  | .pair _ (.pair _ _ (.pair cell e _)) rest, arms, harms, c => by
    obtain ⟨name, init, others, -, hothers, rfl⟩ := exists_arms_of_pair harms
    have hrest := performs_compileArms scopes rest hothers
    have hfirst := performs_compile scopes (cx.map.headSpan? cell) e
    have harm := performs_bind (instruction (.binary .cons) [] c) fun c =>
      (hfirst c).bind fun c => performs_bind (note name e c) hrest
    rw [List.map_cons, compileArms, ofArms]
    refine .map (harm.congr fun (t, ts) a h => ?_)
    rw [codeArms_eq_note (Checked.both_eq_ok_iff.1 h).1]
  | .atom _, arms, _, c | .pair _ (.atom _) _, arms, _, c
  | .pair _ (.pair _ _ (.atom _)) _, arms, _, c => by
    cases arms <;> exact performs_pure [] rfl
termination_by structural bindings => bindings

end

/-- The pass over an expression whose analysis finds no fault writes the code of its term, and
changes nothing else. -/
theorem run_compile {span : Option Span} {e c k : Sexp} {t : Term} {a b : Assembly}
    (ht : ofSexp cx scopes span e = .ok t) (hcode : (t.code k).run a = (c, b))
    (errors : List CompileError) :
    (compile cx span e k).run ⟨scopes, errors, a⟩ = (c, ⟨scopes, errors, b⟩) := by
  obtain ⟨d, b', hrun, hsame⟩ := performs_compile scopes span e k errors a
  obtain ⟨rfl, rfl⟩ := Prod.mk.inj ((hsame t ht).symm.trans hcode)
  rw [hrun, ht, Checked.errors, List.append_nil]

end Pass

end Secd
