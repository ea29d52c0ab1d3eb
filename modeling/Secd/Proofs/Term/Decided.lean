import Secd.Proofs.Term.Binders

/-!
# The analysis decides well-formedness

The analysis has a term for an expression exactly if this is well formed, and otherwise at least one
error. The proof follows the analysis: what each of its combinators does to the question that its
parts decide, then the calls of callables, and then one case for each shape of an expression.
-/

namespace Secd

namespace Checked

variable {α β : Type} {P Q : Prop}

/-- There is a result exactly if the statement holds, and otherwise there is at least one error. -/
structure Decides (x : Checked α) (P : Prop) : Prop where
  exists_ok : (∃ a, x = .ok a) ↔ P
  ne_error_nil : x ≠ .error []

/-- The statement may be replaced by an equivalent one. -/
theorem Decides.congr {x : Checked α} (hx : Decides x P) (h : P ↔ Q) : Decides x Q :=
  ⟨hx.exists_ok.trans h, hx.ne_error_nil⟩

/-- A result decides what holds. -/
theorem decides_ok {a : α} (h : P) : Decides (.ok a : Checked α) P :=
  ⟨⟨fun _ => h, fun _ => ⟨a, rfl⟩⟩, nofun⟩

/-- Some errors decide what does not hold. -/
theorem decides_error {e : CompileError} {es : List CompileError} (h : ¬ P) :
    Decides (.error (e :: es) : Checked α) P := by
  refine ⟨⟨?_, fun hP => absurd hP h⟩, nofun⟩
  rintro ⟨a, ha⟩
  cases ha

/-- A malformation decides what does not hold. -/
theorem decides_malformed {detail : Malformation} {span : Option Span} (h : ¬ P) :
    Decides (malformed detail span : Checked α) P := decides_error h

/-- Something may be computed from the result. -/
theorem Decides.map {x : Checked α} (hx : Decides x P) (f : α → β) : Decides (x.map f) P := by
  cases x with
  | ok a => exact decides_ok (hx.exists_ok.1 ⟨a, rfl⟩)
  | error errors =>
    cases errors with
    | nil => exact absurd rfl hx.ne_error_nil
    | cons e es =>
      refine decides_error fun hP => ?_
      obtain ⟨a, ha⟩ := hx.exists_ok.2 hP
      cases ha

/-- Both parts decide both statements. -/
theorem Decides.both {x : Checked α} {y : Checked β} (hx : Decides x P) (hy : Decides y Q) :
    Decides (both x y) (P ∧ Q) := by
  constructor
  · rw [← hx.exists_ok, ← hy.exists_ok]
    cases x <;> cases y <;> simp [Checked.both]
  · have hx' := hx.ne_error_nil
    have hy' := hy.ne_error_nil
    cases x <;> cases y <;> simp_all [Checked.both]

/-- Errors that must not be there decide whether there are none. -/
theorem decides_require (errors : List CompileError) : Decides (require errors) (errors = []) := by
  cases errors with
  | nil => exact decides_ok rfl
  | cons e es => exact decides_error (List.cons_ne_nil e es)

end Checked

/-! ### Calls of callables -/

/-- Only the outermost of several scopes binds a name if the others inside do not. -/
theorem Scopes.bindsOutermost_cons {frame : List String} {outer : Scopes} {name : String} :
    Scopes.BindsOutermost (frame :: outer) name ↔
      outer = [] ∧ name ∈ frame ∨ name ∉ frame ∧ outer.BindsOutermost name := by
  constructor
  · rintro ⟨inner, outermost, hscopes, hmem, hfree⟩
    cases inner with
    | nil =>
      obtain ⟨rfl, rfl⟩ := List.cons.inj hscopes
      exact .inl ⟨rfl, hmem⟩
    | cons first inner =>
      obtain ⟨rfl, rfl⟩ := List.cons.inj hscopes
      obtain ⟨hfirst, hfree⟩ := List.forall_mem_cons.1 hfree
      exact .inr ⟨hfirst, inner, outermost, rfl, hmem, hfree⟩
  · rintro (⟨rfl, hmem⟩ | ⟨hfirst, inner, outermost, rfl, hmem, hfree⟩)
    · exact ⟨[], frame, rfl, hmem, List.forall_mem_nil _⟩
    · exact ⟨frame :: inner, outermost, rfl, hmem, List.forall_mem_cons.2 ⟨hfirst, hfree⟩⟩

/-- A name is located in the outermost scope if this is the only one that binds it. -/
theorem Scopes.exists_isOutermost_iff {scopes : Scopes} {name : String} :
    (∃ address, scopes.locate? name = some address ∧ scopes.isOutermost address = true) ↔
      scopes.BindsOutermost name := by
  induction scopes with
  | nil =>
    constructor
    · rintro ⟨address, h, -⟩
      cases h
    · rintro ⟨inner, outermost, h, -⟩
      exact absurd h.symm (by simp)
  | cons frame outer ih =>
    rw [bindsOutermost_cons, locate?]
    cases hfound : frame.idxOf? name with
    | some slot =>
      have hmem : name ∈ frame := by
        by_contra hfree
        rw [List.idxOf?_eq_none_iff.2 hfree] at hfound
        cases hfound
      have hsingle : isOutermost (frame :: outer) ⟨0, slot⟩ = true ↔ outer = [] := by
        rw [isOutermost, beq_iff_eq, List.length_cons, ← List.length_eq_zero_iff]
        dsimp only
        omega
      constructor
      · rintro ⟨address, h, houter⟩
        obtain rfl := Option.some.inj h
        exact .inl ⟨hsingle.1 houter, hmem⟩
      · rintro (⟨hempty, -⟩ | ⟨hfree, -⟩)
        · exact ⟨_, rfl, hsingle.2 hempty⟩
        · exact absurd hmem hfree
    | none =>
      have hfree : name ∉ frame := List.idxOf?_eq_none_iff.1 hfound
      have hshift (a : Address) : isOutermost (frame :: outer) ⟨a.frame + 1, a.slot⟩ =
          isOutermost outer a := by
        simp [isOutermost]
      constructor
      · rintro ⟨address, h, houter⟩
        obtain ⟨a, ha, rfl⟩ := Option.map_eq_some_iff.1 h
        rw [hshift] at houter
        exact .inr ⟨hfree, ih.1 ⟨a, ha, houter⟩⟩
      · rintro (⟨-, hmem⟩ | ⟨-, hbinds⟩)
        · exact absurd hmem hfree
        · obtain ⟨a, ha, houter⟩ := ih.2 hbinds
          refine ⟨_, Option.map_eq_some_iff.2 ⟨a, ha, rfl⟩, ?_⟩
          rw [hshift]
          exact houter

namespace Sexp

/-- The parameters of a function are the second item of its list. -/
theorem second?_of_phrase_lambda {e params body : Sexp}
    (h : e.phrase = .form .lambda [params, body]) :
    e.isLambdaForm = true ∧ e.second? = some params := by
  obtain ⟨cell, head, tail, rfl, hlist⟩ := list?_of_phrase_form h
  have hkeyword : Keyword.ofSexp? head = some .lambda := by
    rw [phrase, hlist] at h
    split at h <;> simp_all
  refine ⟨?_, ?_⟩
  · rw [isLambdaForm, hkeyword]
    exact decide_eq_true rfl
  · cases tail with
    | atom a =>
      obtain ⟨-, hnil⟩ := list?_atom hlist
      cases hnil
    | pair c first rest =>
      obtain ⟨others, -, heq⟩ := list?_pair_eq_some hlist
      obtain ⟨rfl, -⟩ := List.cons.inj heq
      rfl

/-- A list of parameters is as long as it has names. -/
theorem length?_of_params? {params : Sexp} {names : List String}
    (h : params.params? = some names) : params.length? = some names.length := by
  obtain ⟨list, hlist, hnames⟩ := Option.bind_eq_some_iff.1 h
  obtain ⟨items, hitems, rfl⟩ := Option.map_eq_some_iff.1 hlist
  rw [length?, hitems, length_symbolNames? hnames, List.length_map]
  rfl

/-- A well-formed list with the keyword `LAMBDA` is a function. -/
theorem WellFormed.exists_lambda {prelude : Option Prelude} {scopes : Scopes} {e : Sexp}
    (he : e.WellFormed prelude scopes) (h : e.isLambdaForm = true) :
    ∃ params body names, e.phrase = .form .lambda [params, body] ∧
      params.params? = some names := by
  cases e with
  | atom a => cases h
  | pair cell head tail =>
    have hkeyword : Keyword.ofSexp? head = some .lambda := of_decide_eq_true h
    cases hlist : tail.list? with
    | none =>
      have himproper : (Sexp.pair cell head tail).phrase = .improper := by
        rw [phrase, hkeyword, hlist]
      exact absurd he (not_wellFormed_improper himproper)
    | some operands =>
      have hphrase : (Sexp.pair cell head tail).phrase = .form .lambda operands := by
        rw [phrase, hkeyword, hlist]
      obtain ⟨params, body, rfl⟩ := List.length_eq_two.1 (he.length_operands hphrase)
      obtain ⟨names, ⟨hparams, -⟩, -⟩ := (wellFormed_lambda hphrase).1 he
      exact ⟨params, body, names, hphrase, hparams⟩

end Sexp

namespace Term

variable {cx : Context} {scopes : Scopes}

/-- No argument is a function of too many parameters if the analysis notes none. -/
theorem excess_eq_nil_iff {args : List (Nat × Sexp)}
    (hargs : ∀ arg ∈ args.map Prod.snd, arg.WellFormed cx.prelude scopes) :
    (args.filterMap fun (cell, arg) =>
      let params := ((arg.second?).bind Sexp.length?).getD 0
      if arg.isLambdaForm ∧ maxCallableArity < params then
        some (⟨.excessArity params, cx.map.headSpan? cell⟩ : CompileError)
      else
        none) = [] ↔
      ∀ arg ∈ args.map Prod.snd, ∀ params body names, arg.phrase = .form .lambda [params, body] →
        params.params? = some names → names.length ≤ maxCallableArity := by
  rw [List.filterMap_eq_nil_iff, List.forall_mem_map]
  refine forall₂_congr fun item hitem => ?_
  obtain ⟨cell, arg⟩ := item
  have harg : arg.WellFormed cx.prelude scopes := hargs arg (List.mem_map_of_mem hitem)
  have hlength {params body : Sexp} {names : List String}
      (hphrase : arg.phrase = .form .lambda [params, body])
      (hparams : params.params? = some names) :
      ((arg.second?).bind Sexp.length?).getD 0 = names.length := by
    rw [(Sexp.second?_of_phrase_lambda hphrase).2, Option.bind_some,
      Sexp.length?_of_params? hparams, Option.getD_some]
  dsimp only
  constructor
  · intro hnone params body names hphrase hparams
    by_contra hexcess
    rw [if_pos] at hnone
    · cases hnone
    · refine ⟨(Sexp.second?_of_phrase_lambda hphrase).1, ?_⟩
      rw [hlength hphrase hparams]
      exact Nat.lt_of_not_le hexcess
  · intro hall
    rw [if_neg]
    rintro ⟨hlambda, hexcess⟩
    obtain ⟨params, body, names, hphrase, hparams⟩ := harg.exists_lambda hlambda
    rw [hlength hphrase hparams] at hexcess
    exact absurd (hall params body names hphrase hparams) (Nat.not_le.2 hexcess)

/-- The number of arguments is not at fault if the callable has as many parameters. -/
theorem arity_eq_nil_iff {p : Prelude} {name : String} {span : Option Span}
    {args : List (Nat × Sexp)} :
    (match p.arityOf? name with
      | some expected =>
        if expected = args.length then []
        else [(⟨.arityMismatch name expected args.length, span⟩ : CompileError)]
      | none => []) = [] ↔
      ∀ expected, p.arityOf? name = some expected → (args.map Prod.snd).length = expected := by
  rw [List.length_map]
  cases p.arityOf? name with
  | none => simp
  | some expected => simp [eq_comm]

/-- There is nothing wrong with a call as such if a callable of the prelude takes the arguments. -/
theorem callErrors_eq_nil_iff {span : Option Span} {function : Sexp} {args : List (Nat × Sexp)}
    (hargs : ∀ arg ∈ args.map Prod.snd, arg.WellFormed cx.prelude scopes) :
    callErrors cx scopes span function args = [] ↔ ∀ p name, cx.prelude = some p →
      function = .symbol name → scopes.BindsOutermost name →
        p.Takes name (args.map Prod.snd) := by
  rw [callErrors.eq_def]
  split
  · next p name hp =>
    have hone : (∀ p' name', cx.prelude = some p' → Sexp.symbol name = .symbol name' →
        scopes.BindsOutermost name' → p'.Takes name' (args.map Prod.snd)) ↔
        (scopes.BindsOutermost name → p.Takes name (args.map Prod.snd)) := by
      constructor
      · intro h
        exact h p name hp rfl
      · rintro h p' name' hp' hname
        obtain rfl := Option.some.inj (hp.symm.trans hp')
        cases hname
        exact h
    rw [hone, ← Scopes.exists_isOutermost_iff]
    cases hlocate : scopes.locate? name with
    | none =>
      refine iff_of_true rfl ?_
      rintro ⟨address, h, -⟩
      cases h
    | some address =>
      by_cases houter : scopes.isOutermost address = true
      · have hfound : ∃ a, some address = some a ∧ scopes.isOutermost a = true :=
          ⟨address, rfl, houter⟩
        dsimp only
        rw [if_pos houter, List.append_eq_nil_iff]
        constructor
        · rintro ⟨hcount, hexcess⟩ -
          exact ⟨arity_eq_nil_iff.1 hcount, (excess_eq_nil_iff hargs).1 hexcess⟩
        · intro h
          obtain ⟨hcount, hparams⟩ := h hfound
          exact ⟨arity_eq_nil_iff.2 hcount, (excess_eq_nil_iff hargs).2 hparams⟩
      · dsimp only
        rw [if_neg houter]
        refine iff_of_true rfl ?_
        rintro ⟨a, ha, houter'⟩
        exact absurd (Option.some.inj ha ▸ houter') houter
  · next hnot =>
    refine iff_of_true rfl fun p name hp hname => ?_
    exact absurd hname (hnot p name hp)

/-! ### The analysis -/

/-- If the scope of bindings is analysed once these are bound, then this decides whether they can be
bound, and what is asked of the scope. -/
theorem decides_bindings {α : Type} {map : SourceMap} {bindings : Sexp} {span : Option Span}
    {f : List String → Checked α} {R : List (String × Sexp) → Prop}
    (hf : ∀ arms, bindings.arms? = some arms → (f (arms.map Prod.fst)).Decides (R arms)) :
    Checked.Decides (boundNames map bindings span >>= f) (∃ arms,
      (bindings.arms? = some arms ∧ Bindable (arms.map Prod.fst)) ∧ R arms) := by
  cases hbound : boundNames map bindings span with
  | ok names =>
    obtain ⟨arms, harms, rfl, hbindable⟩ := boundNames_eq_ok_iff.1 hbound
    refine (hf arms harms).congr ?_
    constructor
    · intro hR
      exact ⟨arms, ⟨harms, hbindable⟩, hR⟩
    · rintro ⟨arms', ⟨harms', -⟩, hR⟩
      obtain rfl := Option.some.inj (harms.symm.trans harms')
      exact hR
  | error errors =>
    cases errors with
    | nil => exact absurd hbound (boundNames_ne_error_nil map bindings span)
    | cons e es =>
      refine Checked.decides_error ?_
      rintro ⟨arms, ⟨harms, hbindable⟩, -⟩
      rw [boundNames_eq_ok_iff.2 ⟨arms, harms, rfl, hbindable⟩] at hbound
      cases hbound

/-- A variable is bound if it is located. -/
theorem exists_bound_iff {name : String} :
    (∃ frame ∈ scopes, name ∈ frame) ↔ scopes.locate? name ≠ none := by
  rw [ne_eq, Scopes.locate?_eq_none_iff]
  push Not
  exact Iff.rfl

mutual

/-- The analysis of an expression decides whether it is well formed. -/
theorem decides_ofSexp (scopes : Scopes) (span : Option Span) : (e : Sexp) →
    (ofSexp cx scopes span e).Decides (e.WellFormed cx.prelude scopes)
  | .atom (.symbol name) => by
    have hbound : (Sexp.symbol name).WellFormed cx.prelude scopes ↔ scopes.locate? name ≠ none :=
      (Sexp.wellFormed_variable rfl).trans exists_bound_iff
    rw [ofSexp]
    cases hlocate : scopes.locate? name with
    | some address =>
      refine Checked.decides_ok (hbound.2 ?_)
      rw [hlocate]
      exact Option.some_ne_none address
    | none => exact Checked.decides_error fun he => hbound.1 he hlocate
  | .atom .nil => Checked.decides_ok (.constant rfl)
  | .atom (.int n) => Checked.decides_ok (.constant rfl)
  | .atom (.callable c) => Checked.decides_ok (.constant rfl)
  | .pair cell head tail => by
    rw [ofSexp]
    split
    · next keyword items hkeyword hitems =>
      have hlist := Sexp.list?_eq_some_of_items? hitems
      have hphrase : (Sexp.pair cell head tail).phrase = .form keyword (items.map Prod.snd) := by
        rw [Sexp.phrase, hkeyword, hlist]
      by_cases hcount : items.length = keyword.operandCount
      · rw [if_pos hcount]
        refine decides_ofForm scopes keyword tail hlist ?_ hphrase
        rw [List.length_map, hcount]
      · rw [if_neg hcount]
        refine Checked.decides_malformed fun he => hcount ?_
        have hlength := he.length_operands hphrase
        rwa [List.length_map] at hlength
    · next keyword hkeyword hitems =>
      have hphrase : (Sexp.pair cell head tail).phrase = .improper := by
        rw [Sexp.phrase, hkeyword, Sexp.list?, hitems]
        rfl
      exact Checked.decides_malformed (Sexp.not_wellFormed_improper hphrase)
    · next args hkeyword hitems =>
      have hlist := Sexp.list?_eq_some_of_items? hitems
      have hphrase : (Sexp.pair cell head tail).phrase = .call head (args.map Prod.snd) := by
        rw [Sexp.phrase, hkeyword, hlist]
      have hcall := Checked.decides_require
        (callErrors cx scopes (cx.map.headSpan? cell) head args)
      have hfunction := decides_ofSexp scopes (cx.map.headSpan? cell) head
      have hoperands := decides_ofOperands scopes tail hlist
      refine ((hcall.both (hfunction.both hoperands)).map _).congr ?_
      rw [Sexp.wellFormed_call hphrase]
      refine and_congr_left fun ⟨_, hargs⟩ => ?_
      exact callErrors_eq_nil_iff hargs
    · next hkeyword hitems =>
      have hphrase : (Sexp.pair cell head tail).phrase = .improper := by
        rw [Sexp.phrase, hkeyword, Sexp.list?, hitems]
        rfl
      exact Checked.decides_malformed (Sexp.not_wellFormed_improper hphrase)

/-- The analysis of the operands of a form, in the right number, decides whether the form is well
formed. -/
theorem decides_ofForm (scopes : Scopes) : (keyword : Keyword) → (tail : Sexp) →
    {e : Sexp} → {operands : List Sexp} → tail.list? = some operands →
    operands.length = keyword.operandCount → e.phrase = .form keyword operands →
    (ofForm cx scopes keyword tail).Decides (e.WellFormed cx.prelude scopes)
  | .quote, .pair _ x rest, e, operands, hlist, hcount, hphrase => by
    obtain rfl := Sexp.eq_singleton_of_list? hlist hcount
    exact Checked.decides_ok (.quote hphrase)
  | .unary op, .pair a x rest, e, operands, hlist, hcount, hphrase => by
    obtain rfl := Sexp.eq_singleton_of_list? hlist hcount
    exact ((decides_ofSexp scopes _ x).map _).congr (Sexp.wellFormed_unary hphrase).symm
  | .binary op, .pair a x (.pair b y rest), e, operands, hlist, hcount, hphrase => by
    obtain rfl := Sexp.eq_pair_of_list? hlist hcount
    have hx := decides_ofSexp scopes (cx.map.headSpan? a) x
    have hy := decides_ofSexp scopes (cx.map.headSpan? b) y
    rw [ofForm]
    split
    · refine ((hy.both hx).map _).congr ?_
      rw [Sexp.wellFormed_binary hphrase]
      exact and_comm
    · exact ((hx.both hy).map _).congr (Sexp.wellFormed_binary hphrase).symm
  | .if, .pair a test (.pair b yes (.pair c no rest)), e, operands, hlist, hcount, hphrase => by
    obtain rfl := Sexp.eq_triple_of_list? hlist hcount
    have htest := decides_ofSexp scopes (cx.map.headSpan? a) test
    have hyes := decides_ofSexp scopes (cx.map.headSpan? b) yes
    have hno := decides_ofSexp scopes (cx.map.headSpan? c) no
    refine ((hyes.both (hno.both htest)).map _).congr ?_
    rw [Sexp.wellFormed_conditional hphrase]
    constructor
    · rintro ⟨hyes, hno, htest⟩
      exact ⟨htest, hyes, hno⟩
    · rintro ⟨htest, hyes, hno⟩
      exact ⟨hyes, hno, htest⟩
  | .lambda, .pair a params (.pair b body rest), e, operands, hlist, hcount, hphrase => by
    obtain rfl := Sexp.eq_pair_of_list? hlist hcount
    have hparts : e.WellFormed cx.prelude scopes ↔ _ := Sexp.wellFormed_lambda hphrase
    rw [ofForm]
    cases hnames : Binder.ofList params with
    | ok names =>
      obtain ⟨hparams, hbindable⟩ := Binder.ofList_eq_ok_iff.1 hnames
      refine ((decides_ofSexp (names :: scopes) _ body).map _).congr ?_
      rw [hparts]
      constructor
      · intro hbody
        exact ⟨names, ⟨hparams, hbindable⟩, hbody⟩
      · rintro ⟨names', ⟨hparams', -⟩, hbody⟩
        obtain rfl := Option.some.inj (hparams.symm.trans hparams')
        exact hbody
    | error fault =>
      refine Checked.decides_malformed fun he => ?_
      obtain ⟨names, hbinds, -⟩ := hparts.1 he
      rw [Binder.ofList_eq_ok_iff.2 hbinds] at hnames
      cases hnames
  | .let, .pair a bindings (.pair b body rest), e, operands, hlist, hcount, hphrase => by
    obtain rfl := Sexp.eq_pair_of_list? hlist hcount
    rw [ofForm]
    refine (decides_bindings fun arms harms => ?_).congr (Sexp.wellFormed_let hphrase).symm
    have hbody := decides_ofSexp (arms.map Prod.fst :: scopes) (cx.map.headSpan? b) body
    exact (hbody.both (decides_ofArms scopes bindings harms)).map _
  | .letrec, .pair a bindings (.pair b body rest), e, operands, hlist, hcount, hphrase => by
    obtain rfl := Sexp.eq_pair_of_list? hlist hcount
    rw [ofForm]
    refine (decides_bindings fun arms harms => ?_).congr (Sexp.wellFormed_letrec hphrase).symm
    have hbody := decides_ofSexp (arms.map Prod.fst :: scopes) (cx.map.headSpan? b) body
    exact (hbody.both (decides_ofArms (arms.map Prod.fst :: scopes) bindings harms)).map _
  | keyword, .atom a, e, operands, hlist, hcount, hphrase => by
    obtain ⟨-, rfl⟩ := Sexp.list?_atom hlist
    cases keyword <;> cases hcount
  | .binary _, .pair _ _ (.atom _), e, operands, hlist, hcount, hphrase
  | .if, .pair _ _ (.atom _), e, operands, hlist, hcount, hphrase
  | .lambda, .pair _ _ (.atom _), e, operands, hlist, hcount, hphrase
  | .let, .pair _ _ (.atom _), e, operands, hlist, hcount, hphrase
  | .letrec, .pair _ _ (.atom _), e, operands, hlist, hcount, hphrase => by
    obtain ⟨others, hothers, rfl⟩ := Sexp.list?_pair_eq_some hlist
    obtain ⟨-, rfl⟩ := Sexp.list?_atom hothers
    cases hcount
  | .if, .pair _ _ (.pair _ _ (.atom _)), e, operands, hlist, hcount, hphrase => by
    obtain ⟨second, hsecond, rfl⟩ := Sexp.list?_pair_eq_some hlist
    obtain ⟨third, hthird, rfl⟩ := Sexp.list?_pair_eq_some hsecond
    obtain ⟨-, rfl⟩ := Sexp.list?_atom hthird
    cases hcount

/-- The analysis of the items of a list decides whether all of them are well formed. -/
theorem decides_ofOperands (scopes : Scopes) : (list : Sexp) → {es : List Sexp} →
    list.list? = some es →
    (ofOperands cx scopes list).Decides (∀ e ∈ es, e.WellFormed cx.prelude scopes)
  | .atom a, es, hlist => by
    obtain ⟨-, rfl⟩ := Sexp.list?_atom hlist
    exact Checked.decides_ok (List.forall_mem_nil _)
  | .pair cell e rest, es, hlist => by
    obtain ⟨others, hothers, rfl⟩ := Sexp.list?_pair_eq_some hlist
    have hfirst := decides_ofSexp scopes (cx.map.headSpan? cell) e
    exact ((hfirst.both (decides_ofOperands scopes rest hothers)).map _).congr
      List.forall_mem_cons.symm

/-- The analysis of the initial values of bindings decides whether all of them are well formed. -/
theorem decides_ofArms (scopes : Scopes) : (bindings : Sexp) → {arms : List (String × Sexp)} →
    bindings.arms? = some arms → (ofArms cx scopes bindings).Decides
      (∀ init ∈ arms.map Prod.snd, init.WellFormed cx.prelude scopes)
  | .pair _ (.pair a name (.pair cell e last)) rest, arms, harms => by
    have hfirst := decides_ofSexp scopes (cx.map.headSpan? cell) e
    obtain ⟨boundName, init, others, ⟨_, _, _, heq⟩, hothers, rfl⟩ := exists_arms_of_pair harms
    cases heq
    exact ((hfirst.both (decides_ofArms scopes rest hothers)).map _).congr
      List.forall_mem_cons.symm
  | .atom a, arms, harms => by
    obtain rfl := eq_nil_of_arms?_atom harms
    exact Checked.decides_ok (List.forall_mem_nil _)
  | .pair _ (.atom a) rest, arms, harms
  | .pair _ (.pair _ _ (.atom a)) rest, arms, harms => by
    obtain ⟨_, _, _, ⟨_, _, _, heq⟩, -⟩ := exists_arms_of_pair harms
    cases heq

end

end Term

end Secd
