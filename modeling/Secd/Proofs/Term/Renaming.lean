import Mathlib.Data.List.Nodup
import Secd.Proofs.Module.Compiled
import Secd.Proofs.Term.Decided

/-!
# Renaming bound variables

Two expressions that differ in the names of their bound variables only. Around each part of them
stand the binders of both, frame by frame, and a reference in the one expression belongs to the
binder at whose place the reference in the other one belongs. A name that no binder binds is the
same in both, so that a new name must not capture it. Quoted data is not renamed.

Such expressions are well formed together: their variables have the same addresses, and a callable
of the prelude is called by its name in both or in neither of them.
-/

namespace Secd

/-- The old and the new names of the binders around an expression, frame by frame, the innermost
frame first. -/
abbrev Renaming := List (List (String × String))

namespace Renaming

/-- The scopes of the expression before its variables are renamed. -/
def old (ρ : Renaming) : Scopes := ρ.map (List.map Prod.fst)

/-- The scopes of the expression after its variables are renamed. -/
def new (ρ : Renaming) : Scopes := ρ.map (List.map Prod.snd)

/-- A reference to the name `x` is to be renamed to `y`: the innermost binder of `x` is renamed to
`y`, and no binder inside of that one is. A name without a binder is kept. -/
inductive Refers : Renaming → String → String → Prop where
  | free {x : String} : Refers [] x x
  | here {frame : List (String × String)} {ρ : Renaming} {x y : String} (hmem : (x, y) ∈ frame) :
      Refers (frame :: ρ) x y
  | outer {frame : List (String × String)} {ρ : Renaming} {x y : String}
      (hold : x ∉ frame.map Prod.fst) (hnew : y ∉ frame.map Prod.snd) (h : Refers ρ x y) :
      Refers (frame :: ρ) x y

/-- The names of each frame can be bound together, both the old and the new ones. -/
def Binds (ρ : Renaming) : Prop :=
  ∀ frame ∈ ρ, Bindable (frame.map Prod.fst) ∧ Bindable (frame.map Prod.snd)

/-- There are no frames around a whole program. -/
theorem binds_nil : Binds [] := List.forall_mem_nil _

variable {ρ : Renaming} {x y : String}

/-- A frame is added for the body of a binder. -/
theorem Binds.cons (hρ : ρ.Binds) {frame : List (String × String)}
    (hold : Bindable (frame.map Prod.fst)) (hnew : Bindable (frame.map Prod.snd)) :
    Binds (frame :: ρ) :=
  List.forall_mem_cons.2 ⟨⟨hold, hnew⟩, hρ⟩

/-- A list of distinct names finds each of them where it stands. -/
theorem idxOf?_getElem {names : List String} (hnames : names.Nodup) {slot : Nat}
    (hslot : slot < names.length) : names.idxOf? names[slot] = some slot := by
  refine List.idxOf?_eq_some_iff.2 ⟨hslot, rfl, fun j hj heq => ?_⟩
  exact Nat.ne_of_lt hj ((List.Nodup.getElem_inj_iff hnames).1 heq)

/-- The old and the new name of one binder stand at the same place in its frame. -/
theorem exists_idxOf?_of_mem {frame : List (String × String)} (hmem : (x, y) ∈ frame)
    (hold : (frame.map Prod.fst).Nodup) (hnew : (frame.map Prod.snd).Nodup) :
    ∃ slot, (frame.map Prod.fst).idxOf? x = some slot ∧
      (frame.map Prod.snd).idxOf? y = some slot := by
  obtain ⟨slot, hslot, hget⟩ := List.getElem_of_mem hmem
  have hold' : slot < (frame.map Prod.fst).length := by rwa [List.length_map]
  have hnew' : slot < (frame.map Prod.snd).length := by rwa [List.length_map]
  have hx := idxOf?_getElem hold hold'
  have hy := idxOf?_getElem hnew hnew'
  rw [List.getElem_map, hget] at hx hy
  exact ⟨slot, hx, hy⟩

/-- A reference has the same address before and after it is renamed. -/
theorem Refers.locate?_eq (h : ρ.Refers x y) (hρ : ρ.Binds) (outer : Scopes) :
    (ρ.old ++ outer).locate? x = (ρ.new ++ outer).locate? y := by
  induction h with
  | free => rfl
  | here hmem =>
    obtain ⟨⟨hold, hnew⟩, -⟩ := List.forall_mem_cons.1 hρ
    obtain ⟨slot, hx, hy⟩ := exists_idxOf?_of_mem hmem hold.nodup hnew.nodup
    rw [old, new, List.map_cons, List.map_cons, List.cons_append, List.cons_append,
      Scopes.locate?, Scopes.locate?, hx, hy]
  | outer hold hnew _ ih =>
    have hrest := ih (List.forall_mem_cons.1 hρ).2
    rw [old, new] at hrest ⊢
    rw [List.map_cons, List.map_cons, List.cons_append, List.cons_append, Scopes.locate?,
      Scopes.locate?, List.idxOf?_eq_none_iff.2 hold, List.idxOf?_eq_none_iff.2 hnew]
    dsimp only
    rw [hrest]

/-- A reference that no binder binds after it is renamed is not renamed. -/
theorem Refers.eq_of_free (h : ρ.Refers x y) (hy : ∀ frame ∈ ρ.new, y ∉ frame) : x = y := by
  induction h with
  | free => rfl
  | here hmem =>
    exact absurd (List.mem_map.2 ⟨_, hmem, rfl⟩) (hy _ List.mem_cons_self)
  | outer _ _ _ ih => exact ih fun frame hframe => hy frame (List.mem_cons_of_mem _ hframe)

/-- A reference that is not that of a keyword is not renamed to one. -/
theorem Refers.isReserved_eq_false (h : ρ.Refers x y) (hρ : ρ.Binds)
    (hx : Keyword.isReserved x = false) : Keyword.isReserved y = false := by
  induction h with
  | free => exact hx
  | here hmem =>
    exact (List.forall_mem_cons.1 hρ).1.2.free _ (List.mem_map.2 ⟨_, hmem, rfl⟩)
  | outer _ _ _ ih => exact ih (List.forall_mem_cons.1 hρ).2 hx

/-- The scopes inside of another one are as many before and after. -/
theorem length_old (ρ : Renaming) (outer : Scopes) :
    (ρ.old ++ outer).length = (ρ.new ++ outer).length := by
  simp [old, new]

/-- A name that only the outermost scope binds after it is renamed is kept, and no other scope has
bound it before. -/
theorem Refers.of_bindsOutermost (h : ρ.Refers x y) (hρ : ρ.Binds) {outermost : List String}
    (hy : (ρ.new ++ [outermost]).BindsOutermost y) :
    x = y ∧ (ρ.old ++ [outermost]).BindsOutermost x := by
  constructor
  · obtain ⟨inner, last, hscopes, -, hfree⟩ := hy
    obtain ⟨rfl, -⟩ := List.append_inj' hscopes rfl
    exact h.eq_of_free hfree
  · obtain ⟨address, hlocate, houtermost⟩ := Scopes.exists_isOutermost_iff.2 hy
    refine Scopes.exists_isOutermost_iff.1 ⟨address, ?_, ?_⟩
    · rw [h.locate?_eq hρ, hlocate]
    · rw [Scopes.isOutermost] at houtermost ⊢
      rw [length_old, houtermost]

end Renaming

namespace Sexp

/-! ### Expressions that differ in the names of bound variables -/

mutual

/-- The second expression is the first one with its bound variables renamed, inside of binders that
are renamed by `ρ`. The functions that `LETREC` binds in the two expressions are listed with their
old and their new names, in the order in which their code is finished: that of the operand that is
evaluated last comes first, and a body comes before what is bound for it. -/
inductive Renames : Renaming → Sexp → Sexp → (functions : List (String × String)) → Prop where
  | constant {ρ : Renaming} {e : Sexp} {a : Atom} (hphrase : e.phrase = .constant a) :
      Renames ρ e e []
  | variable {ρ : Renaming} {x y : String} (hrefers : ρ.Refers x y) :
      Renames ρ (.symbol x) (.symbol y) []
  | quote {ρ : Renaming} {e e' x x' : Sexp} (hphrase : e.phrase = .form .quote [x])
      (hphrase' : e'.phrase = .form .quote [x']) (hx : x.same x' = true) : Renames ρ e e' []
  | unary {ρ : Renaming} {e e' x x' : Sexp} {op : Unary} {fs : List (String × String)}
      (hphrase : e.phrase = .form (.unary op) [x]) (hphrase' : e'.phrase = .form (.unary op) [x'])
      (hx : Renames ρ x x' fs) : Renames ρ e e' fs
  | leftFirst {ρ : Renaming} {e e' x x' y y' : Sexp} {op : Binary}
      {fs gs : List (String × String)} (hphrase : e.phrase = .form (.binary op) [x, y])
      (hphrase' : e'.phrase = .form (.binary op) [x', y']) (hop : op.leftFirst = true)
      (hx : Renames ρ x x' fs) (hy : Renames ρ y y' gs) : Renames ρ e e' (gs ++ fs)
  | rightFirst {ρ : Renaming} {e e' x x' y y' : Sexp} {op : Binary}
      {fs gs : List (String × String)} (hphrase : e.phrase = .form (.binary op) [x, y])
      (hphrase' : e'.phrase = .form (.binary op) [x', y']) (hop : op.leftFirst = false)
      (hx : Renames ρ x x' fs) (hy : Renames ρ y y' gs) : Renames ρ e e' (fs ++ gs)
  | conditional {ρ : Renaming} {e e' test test' yes yes' no no' : Sexp}
      {fs gs hs : List (String × String)} (hphrase : e.phrase = .form .if [test, yes, no])
      (hphrase' : e'.phrase = .form .if [test', yes', no']) (htest : Renames ρ test test' fs)
      (hyes : Renames ρ yes yes' gs) (hno : Renames ρ no no' hs) :
      Renames ρ e e' (gs ++ (hs ++ fs))
  | lambda {ρ : Renaming} {e e' params params' body body' : Sexp}
      {frame fs : List (String × String)} (hphrase : e.phrase = .form .lambda [params, body])
      (hphrase' : e'.phrase = .form .lambda [params', body'])
      (hold : params.params? = some (frame.map Prod.fst))
      (hnew : params'.params? = some (frame.map Prod.snd))
      (hbindable : Bindable (frame.map Prod.snd)) (hbody : Renames (frame :: ρ) body body' fs) :
      Renames ρ e e' fs
  | let {ρ : Renaming} {e e' bindings bindings' body body' : Sexp}
      {arms arms' : List (String × Sexp)} {frame fs gs : List (String × String)}
      (hphrase : e.phrase = .form .let [bindings, body])
      (hphrase' : e'.phrase = .form .let [bindings', body'])
      (harms : bindings.arms? = some arms) (harms' : bindings'.arms? = some arms')
      (hold : arms.map Prod.fst = frame.map Prod.fst)
      (hnew : arms'.map Prod.fst = frame.map Prod.snd)
      (hbindable : Bindable (frame.map Prod.snd))
      (hinits : RenamesAll ρ (arms.map Prod.snd) (arms'.map Prod.snd) gs)
      (hbody : Renames (frame :: ρ) body body' fs) : Renames ρ e e' (fs ++ gs)
  | letrec {ρ : Renaming} {e e' bindings bindings' body body' : Sexp}
      {arms arms' : List (String × Sexp)} {frame fs gs : List (String × String)}
      (hphrase : e.phrase = .form .letrec [bindings, body])
      (hphrase' : e'.phrase = .form .letrec [bindings', body'])
      (harms : bindings.arms? = some arms) (harms' : bindings'.arms? = some arms')
      (hold : arms.map Prod.fst = frame.map Prod.fst)
      (hnew : arms'.map Prod.fst = frame.map Prod.snd)
      (hbindable : Bindable (frame.map Prod.snd)) (hinits : RenamesArms (frame :: ρ) arms arms' gs)
      (hbody : Renames (frame :: ρ) body body' fs) : Renames ρ e e' (fs ++ gs)
  | call {ρ : Renaming} {e e' function function' : Sexp} {args args' : List Sexp}
      {fs gs : List (String × String)} (hphrase : e.phrase = .call function args)
      (hlist' : e'.list? = some (function' :: args')) (hfunction : Renames ρ function function' fs)
      (hargs : RenamesAll ρ args args' gs) : Renames ρ e e' (fs ++ gs)

/-- The expressions are renamed one by one. -/
inductive RenamesAll : Renaming → List Sexp → List Sexp → List (String × String) → Prop where
  | nil {ρ : Renaming} : RenamesAll ρ [] [] []
  | cons {ρ : Renaming} {e e' : Sexp} {es es' : List Sexp} {fs gs : List (String × String)}
      (hfirst : Renames ρ e e' fs) (hothers : RenamesAll ρ es es' gs) :
      RenamesAll ρ (e :: es) (e' :: es') (fs ++ gs)

/-- The expressions in the arms of a `LETREC` are renamed one by one. An arm with a function adds
its own names after those of the functions inside. -/
inductive RenamesArms : Renaming → List (String × Sexp) → List (String × Sexp) →
    List (String × String) → Prop where
  | nil {ρ : Renaming} : RenamesArms ρ [] [] []
  | function {ρ : Renaming} {x y : String} {e e' : Sexp} {operands : List Sexp}
      {arms arms' : List (String × Sexp)} {fs gs : List (String × String)}
      (hphrase : e.phrase = .form .lambda operands) (hfirst : Renames ρ e e' fs)
      (hothers : RenamesArms ρ arms arms' gs) :
      RenamesArms ρ ((x, e) :: arms) ((y, e') :: arms') (fs ++ (x, y) :: gs)
  | other {ρ : Renaming} {x y : String} {e e' : Sexp} {arms arms' : List (String × Sexp)}
      {fs gs : List (String × String)}
      (hphrase : ∀ operands, e.phrase ≠ .form .lambda operands) (hfirst : Renames ρ e e' fs)
      (hothers : RenamesArms ρ arms arms' gs) :
      RenamesArms ρ ((x, e) :: arms) ((y, e') :: arms') (fs ++ gs)

end

variable {ρ : Renaming} {e e' : Sexp} {functions : List (String × String)}

/-- There are as many expressions as before. -/
theorem RenamesAll.length_eq {es es' : List Sexp} (h : RenamesAll ρ es es' functions) :
    es'.length = es.length := by
  induction es generalizing es' functions with
  | nil =>
    cases h
    rfl
  | cons e es ih =>
    cases h with
    | cons _ hothers => rw [List.length_cons, List.length_cons, ih hothers]

/-- The function of a call is no keyword. -/
theorem ofSexp?_of_phrase_call {function : Sexp} {args : List Sexp}
    (h : e.phrase = .call function args) : Keyword.ofSexp? function = none := by
  cases e with
  | atom a => cases a <;> cases h
  | pair cell head tail =>
    rw [phrase] at h
    split at h
    · cases h
    · next hkeyword _ =>
      obtain ⟨rfl, -⟩ := Phrase.call.inj h
      exact hkeyword
    · cases h

/-- A list with another head than a keyword is a call. -/
theorem phrase_of_list? {function : Sexp} {args : List Sexp}
    (h : e.list? = some (function :: args)) (hfunction : Keyword.ofSexp? function = none) :
    e.phrase = .call function args := by
  cases e with
  | atom a =>
    obtain ⟨-, heq⟩ := list?_atom h
    cases heq
  | pair cell head tail =>
    obtain ⟨rest, hrest, heq⟩ := list?_pair_eq_some h
    obtain ⟨rfl, rfl⟩ := List.cons.inj heq
    rw [phrase, hfunction, hrest]

/-- What is no keyword is not renamed to one. -/
theorem Renames.ofSexp?_eq_none (h : Renames ρ e e' functions) (hρ : ρ.Binds)
    (he : Keyword.ofSexp? e = none) : Keyword.ofSexp? e' = none := by
  cases h with
  | constant => exact he
  | «variable» hrefers =>
    have hfree := hrefers.isReserved_eq_false hρ
      (Option.isSome_eq_false_iff.2 (Option.isNone_iff_eq_none.2 he))
    exact Option.isNone_iff_eq_none.1 (Option.isSome_eq_false_iff.1 hfree)
  | call _ hlist' =>
    cases e' with
    | atom a =>
      obtain ⟨-, heq⟩ := list?_atom hlist'
      cases heq
    | pair => rfl
  | _ =>
    obtain ⟨cell, head, tail, rfl, -⟩ := list?_of_phrase_form ‹e'.phrase = _›
    rfl

/-- A call is renamed to a call. -/
theorem Renames.phrase_call {function function' : Sexp} {args args' : List Sexp}
    (hphrase : e.phrase = .call function args) (hlist' : e'.list? = some (function' :: args'))
    (hfunction : Renames ρ function function' functions) (hρ : ρ.Binds) :
    e'.phrase = .call function' args' :=
  phrase_of_list? hlist' (hfunction.ofSexp?_eq_none hρ (ofSexp?_of_phrase_call hphrase))

/-- A function is only renamed to a function with as many parameters. -/
theorem Renames.exists_lambda (h : Renames ρ e e' functions) (hρ : ρ.Binds)
    {params' body' : Sexp} {names' : List String}
    (hphrase' : e'.phrase = .form .lambda [params', body'])
    (hparams' : params'.params? = some names') :
    ∃ params body names, e.phrase = .form .lambda [params, body] ∧
      params.params? = some names ∧ names.length = names'.length := by
  cases h with
  | constant hphrase => cases hphrase.symm.trans hphrase'
  | «variable» hrefers => cases hphrase'
  | lambda hphrase hphrase'' hold hnew =>
    cases hphrase''.symm.trans hphrase'
    obtain rfl := Option.some.inj (hnew.symm.trans hparams')
    exact ⟨_, _, _, hphrase, hold, by rw [List.length_map, List.length_map]⟩
  | call hphrase hlist' hfunction hargs =>
    cases (hfunction.phrase_call hphrase hlist' hρ).symm.trans hphrase'
  | _ => simp_all

/-- Functions are renamed to functions, and other expressions to other expressions. -/
theorem Renames.isLambda_iff (h : Renames ρ e e' functions) (hρ : ρ.Binds) :
    (∃ operands, e.phrase = .form .lambda operands) ↔
      ∃ operands, e'.phrase = .form .lambda operands := by
  cases h with
  | call hphrase hlist' hfunction =>
    have hphrase' := hfunction.phrase_call hphrase hlist' hρ
    simp_all
  | _ => simp_all [phrase]

/-! ### Renamed programs are well formed -/

/-- Renamed expressions are renamed from the expressions at their places. -/
theorem RenamesAll.exists_of_mem {es es' : List Sexp} (h : RenamesAll ρ es es' functions)
    (he' : e' ∈ es') : ∃ e ∈ es, ∃ fs, Renames ρ e e' fs := by
  induction es generalizing es' functions with
  | nil =>
    cases h
    cases he'
  | cons e es ih =>
    cases h with
    | cons hfirst hothers =>
      rcases List.mem_cons.1 he' with rfl | he'
      · exact ⟨e, List.mem_cons_self, _, hfirst⟩
      · obtain ⟨found, hmem, fs, hfound⟩ := ih hothers he'
        exact ⟨found, List.mem_cons_of_mem _ hmem, fs, hfound⟩

variable {prelude : Option Prelude}

/-- A callable of the prelude takes the arguments of a call after they are renamed. -/
theorem RenamesAll.takes {p : Prelude} {name : String} {args args' : List Sexp}
    (h : RenamesAll ρ args args' functions) (hρ : ρ.Binds) (htakes : p.Takes name args) :
    p.Takes name args' := by
  constructor
  · intro expected hexpected
    rw [h.length_eq, htakes.arity expected hexpected]
  · intro arg' harg' params' body' names' hphrase' hparams'
    obtain ⟨arg, harg, fs, hrenames⟩ := h.exists_of_mem harg'
    obtain ⟨params, body, names, hphrase, hparams, hlength⟩ :=
      hrenames.exists_lambda hρ hphrase' hparams'
    rw [← hlength]
    exact htakes.params arg harg params body names hphrase hparams

/-- A callable of the prelude that is called by its name is one before the call is renamed, and then
it takes the arguments. -/
theorem Renames.takes {function function' : Sexp} {args args' : List Sexp}
    {fs gs : List (String × String)} (hfunction : Renames ρ function function' fs)
    (hargs : RenamesAll ρ args args' gs) (hρ : ρ.Binds)
    (htakes : ∀ p name, prelude = some p → function = .symbol name →
      (ρ.old ++ Prelude.scopes prelude).BindsOutermost name → p.Takes name args)
    {p : Prelude} {name : String} (hprelude : prelude = some p) (hname : function' = .symbol name)
    (hbinds : (ρ.new ++ Prelude.scopes prelude).BindsOutermost name) : p.Takes name args' := by
  subst hprelude hname
  cases hfunction with
  | constant hphrase => cases hphrase
  | «variable» hrefers =>
    obtain ⟨rfl, hbindsOld⟩ := hrefers.of_bindsOutermost hρ hbinds
    exact hargs.takes hρ (htakes p _ rfl rfl hbindsOld)
  | call _ hlist' =>
    obtain ⟨-, heq⟩ := list?_atom hlist'
    cases heq
  | _ => cases ‹(Sexp.symbol name).phrase = _›

mutual

/-- An expression that is well formed is well formed after it is renamed. -/
theorem Renames.wellFormed {ρ : Renaming} {e e' : Sexp} {functions : List (String × String)} :
    Renames ρ e e' functions → ρ.Binds → e.WellFormed prelude (ρ.old ++ Prelude.scopes prelude) →
      e'.WellFormed prelude (ρ.new ++ Prelude.scopes prelude)
  | .constant hphrase, _, _ => .constant hphrase
  | .variable hrefers, hρ, he => by
    have hbound := (wellFormed_variable rfl).1 he
    rw [Term.exists_bound_iff, hrefers.locate?_eq hρ] at hbound
    exact .variable rfl (Term.exists_bound_iff.2 hbound)
  | .quote _ hphrase' _, _, _ => .quote hphrase'
  | .unary hphrase hphrase' hx, hρ, he =>
    .unary hphrase' (hx.wellFormed hρ ((wellFormed_unary hphrase).1 he))
  | .leftFirst hphrase hphrase' _ hx hy, hρ, he => by
    obtain ⟨hfirst, hsecond⟩ := (wellFormed_binary hphrase).1 he
    exact .binary hphrase' (hx.wellFormed hρ hfirst) (hy.wellFormed hρ hsecond)
  | .rightFirst hphrase hphrase' _ hx hy, hρ, he => by
    obtain ⟨hfirst, hsecond⟩ := (wellFormed_binary hphrase).1 he
    exact .binary hphrase' (hx.wellFormed hρ hfirst) (hy.wellFormed hρ hsecond)
  | .conditional hphrase hphrase' htest hyes hno, hρ, he => by
    obtain ⟨htest', hyes', hno'⟩ := (wellFormed_conditional hphrase).1 he
    exact .conditional hphrase' (htest.wellFormed hρ htest') (hyes.wellFormed hρ hyes')
      (hno.wellFormed hρ hno')
  | .lambda hphrase hphrase' hold hnew hbindable hbody, hρ, he => by
    obtain ⟨names, ⟨hparams, hnames⟩, hbody'⟩ := (wellFormed_lambda hphrase).1 he
    obtain rfl := Option.some.inj (hparams.symm.trans hold)
    exact .lambda hphrase' hnew hbindable (hbody.wellFormed (hρ.cons hnames hbindable) hbody')
  | .let hphrase hphrase' harms harms' hold hnew hbindable hinits hbody, hρ, he => by
    obtain ⟨arms, ⟨hbound, hnames⟩, hbody', hinits'⟩ := (wellFormed_let hphrase).1 he
    obtain rfl := Option.some.inj (harms.symm.trans hbound)
    rw [hold] at hnames hbody'
    refine .let hphrase' harms' (hnew ▸ hbindable) (hinits.wellFormed hρ hinits') ?_
    rw [hnew]
    exact hbody.wellFormed (hρ.cons hnames hbindable) hbody'
  | .letrec hphrase hphrase' harms harms' hold hnew hbindable hinits hbody, hρ, he => by
    obtain ⟨arms, ⟨hbound, hnames⟩, hbody', hinits'⟩ := (wellFormed_letrec hphrase).1 he
    obtain rfl := Option.some.inj (harms.symm.trans hbound)
    rw [hold] at hnames hbody' hinits'
    have hinside := hρ.cons hnames hbindable
    refine .letrec hphrase' harms' (hnew ▸ hbindable) ?_ ?_
    · rw [hnew]
      exact hinits.wellFormed hinside hinits'
    · rw [hnew]
      exact hbody.wellFormed hinside hbody'
  | .call hphrase hlist' hfunction hargs, hρ, he => by
    obtain ⟨htakes, hfunction', hargs'⟩ := (wellFormed_call hphrase).1 he
    refine .call (hfunction.phrase_call hphrase hlist' hρ) (hfunction.wellFormed hρ hfunction')
      (hargs.wellFormed hρ hargs') ?_
    intro p name hprelude hname hbinds
    exact hfunction.takes hargs hρ htakes hprelude hname hbinds

/-- The same for several expressions. -/
theorem RenamesAll.wellFormed {ρ : Renaming} {es es' : List Sexp}
    {functions : List (String × String)} : RenamesAll ρ es es' functions → ρ.Binds →
      (∀ e ∈ es, e.WellFormed prelude (ρ.old ++ Prelude.scopes prelude)) →
        ∀ e ∈ es', e.WellFormed prelude (ρ.new ++ Prelude.scopes prelude)
  | .nil, _, _ => List.forall_mem_nil _
  | .cons hfirst hothers, hρ, hes => by
    obtain ⟨he, hes⟩ := List.forall_mem_cons.1 hes
    exact List.forall_mem_cons.2 ⟨hfirst.wellFormed hρ he, hothers.wellFormed hρ hes⟩

/-- The same for the expressions in the arms of a `LETREC`. -/
theorem RenamesArms.wellFormed {ρ : Renaming} {arms arms' : List (String × Sexp)}
    {functions : List (String × String)} : RenamesArms ρ arms arms' functions → ρ.Binds →
      (∀ e ∈ arms.map Prod.snd, e.WellFormed prelude (ρ.old ++ Prelude.scopes prelude)) →
        ∀ e ∈ arms'.map Prod.snd, e.WellFormed prelude (ρ.new ++ Prelude.scopes prelude)
  | .nil, _, _ => List.forall_mem_nil _
  | .function _ hfirst hothers, hρ, hes => by
    obtain ⟨he, hes⟩ := List.forall_mem_cons.1 hes
    exact List.forall_mem_cons.2 ⟨hfirst.wellFormed hρ he, hothers.wellFormed hρ hes⟩
  | .other _ hfirst hothers, hρ, hes => by
    obtain ⟨he, hes⟩ := List.forall_mem_cons.1 hes
    exact List.forall_mem_cons.2 ⟨hfirst.wellFormed hρ he, hothers.wellFormed hρ hes⟩

end

end Sexp

end Secd
