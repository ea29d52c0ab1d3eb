import Mathlib.Data.List.Perm.Subperm
import Secd.Proofs.Sexp.Phrase

/-!
# The functions that an expression binds by `LETREC`

An arm of a `LETREC` binds a function if its expression is a `LAMBDA`. The arms of an expression are
those of the `LETREC` forms that are compiled with it: the expression itself may be such a form, or
one of its parts may have one, but what is quoted has no parts. In an expression in which no cell
occurs twice an arm is known by the cell of its function, so lists of functions that follow the
parts of the expression name each arm once.
-/

namespace Secd

namespace Sexp

/-- The expressions that are compiled as parts of an expression. Quoted data are none, nor are the
names that are bound. -/
def parts (e : Sexp) : List Sexp :=
  match e.phrase with
  | .form (.unary _) operands | .form (.binary _) operands | .form .if operands => operands
  | .form .lambda [_, body] => [body]
  | .form .let [bindings, body] | .form .letrec [bindings, body] =>
    body :: (bindings.arms?.getD []).map Prod.snd
  | .call function args => function :: args
  | _ => []

/-- An arm of a `LETREC` that is compiled with the expression binds the name to the function. -/
inductive BindsFunction : Sexp → String → Sexp → Prop where
  | arm {e bindings body function : Sexp} {name : String} {arms : List (String × Sexp)}
      {operands : List Sexp} (hphrase : e.phrase = .form .letrec [bindings, body])
      (harms : bindings.arms? = some arms) (harm : (name, function) ∈ arms)
      (hfunction : function.phrase = .form .lambda operands) : BindsFunction e name function
  | part {e x function : Sexp} {name : String} (hx : x ∈ e.parts)
      (h : BindsFunction x name function) : BindsFunction e name function

/-- The cells of a tree, as often as they occur. -/
def cells : Sexp → List Nat
  | .atom _ => []
  | .pair cell head tail => cell :: (head.cells ++ tail.cells)

/-- The cells of a tree other than its first one. -/
def innerCells (e : Sexp) : List Nat := e.cells.tail

variable {e : Sexp}

/-- The other cells are among the cells. -/
theorem innerCells_sublist (e : Sexp) : e.innerCells.Sublist e.cells := List.tail_sublist _

/-- The cells of the items of a list are among those of the list. -/
theorem cells_sublist_of_list? {items : List Sexp} (h : e.list? = some items) :
    (items.flatMap cells).Sublist e.cells := by
  induction e generalizing items with
  | atom a =>
    obtain ⟨-, rfl⟩ := list?_atom h
    exact List.nil_sublist _
  | pair cell head tail _ ih =>
    obtain ⟨rest, hrest, rfl⟩ := list?_pair_eq_some h
    exact ((ih hrest).append_left head.cells).cons cell

/-- The cells of the expressions in arms are among those of the arms. -/
theorem cells_sublist_of_armsOf? {list : List Sexp} {arms : List (String × Sexp)}
    (h : armsOf? list = some arms) :
    ((arms.map Prod.snd).flatMap cells).Sublist (list.flatMap cells) := by
  induction list generalizing arms with
  | nil =>
    obtain rfl := Option.some.inj h
    exact .refl _
  | cons arm rest ih =>
    rw [armsOf?] at h
    split at h
    · next name init hlist =>
      obtain ⟨others, hothers, rfl⟩ := Option.map_eq_some_iff.1 h
      have hinit : init.cells.Sublist arm.cells := by
        have hitems := cells_sublist_of_list? hlist
        simpa [cells] using hitems
      exact hinit.append (ih hothers)
    · cases h

/-- The cells of the expressions in bindings are among those of the bindings. -/
theorem cells_sublist_of_arms? {arms : List (String × Sexp)} (h : e.arms? = some arms) :
    ((arms.map Prod.snd).flatMap cells).Sublist e.cells := by
  obtain ⟨list, hlist, harms⟩ := Option.bind_eq_some_iff.1 h
  exact (cells_sublist_of_armsOf? harms).trans (cells_sublist_of_list? hlist)

/-- The cells of the operands of a form are among its cells, without the first one. -/
theorem cells_sublist_of_phrase_form {keyword : Keyword} {operands : List Sexp}
    (h : e.phrase = .form keyword operands) :
    (operands.flatMap cells).Sublist e.innerCells := by
  obtain ⟨cell, head, tail, rfl, hlist⟩ := list?_of_phrase_form h
  exact (cells_sublist_of_list? hlist).trans (List.sublist_append_right _ _)

/-- The cells of the function and the arguments of a call are among its cells, without the first
one. -/
theorem cells_sublist_of_phrase_call {function : Sexp} {args : List Sexp}
    (h : e.phrase = .call function args) :
    ((function :: args).flatMap cells).Sublist e.innerCells := by
  obtain ⟨cell, tail, rfl, hlist⟩ := list?_of_phrase_call h
  exact (cells_sublist_of_list? hlist).append_left function.cells

/-- The cells of the body of a form and of the expressions in its bindings are among its cells,
without the first one. -/
theorem cells_subperm_of_bindings {keyword : Keyword} {bindings body : Sexp}
    (h : e.phrase = .form keyword [bindings, body]) :
    ((body :: (bindings.arms?.getD []).map Prod.snd).flatMap cells).Subperm e.innerCells := by
  have hinits : (((bindings.arms?.getD []).map Prod.snd).flatMap cells).Sublist bindings.cells := by
    cases harms : bindings.arms? with
    | none => exact List.nil_sublist _
    | some arms => exact cells_sublist_of_arms? harms
  have hoperands : (bindings.cells ++ body.cells).Sublist e.innerCells := by
    simpa using cells_sublist_of_phrase_form h
  rw [List.flatMap_cons]
  exact List.perm_append_comm.subperm.trans
    ((hinits.append_right body.cells).trans hoperands).subperm

/-- The cells of the parts of an expression are among its cells, without the first one. -/
theorem cells_parts_subperm (e : Sexp) : (e.parts.flatMap cells).Subperm e.innerCells := by
  rw [parts]
  split
  · next hphrase => exact (cells_sublist_of_phrase_form hphrase).subperm
  · next hphrase => exact (cells_sublist_of_phrase_form hphrase).subperm
  · next hphrase => exact (cells_sublist_of_phrase_form hphrase).subperm
  · next hphrase =>
    refine (List.Sublist.trans ?_ (cells_sublist_of_phrase_form hphrase)).subperm
    rw [List.flatMap_cons]
    exact List.sublist_append_right _ _
  · next hphrase => exact cells_subperm_of_bindings hphrase
  · next hphrase => exact cells_subperm_of_bindings hphrase
  · next hphrase => exact (cells_sublist_of_phrase_call hphrase).subperm
  · exact List.nil_subperm

/-! ### Lists of functions -/

/-- A function with the name that an arm of a `LETREC` binds to it, and its block. -/
structure Procedure where
  name : String
  function : Sexp
  block : Sexp

/-- The procedures are those that arms in the expressions bind, and the cells of their functions are
different ones of those inside the expressions, as far as these are different. -/
structure Lists (es : List Sexp) (ps : List Procedure) : Prop where
  binds_iff : ∀ name function, (∃ e ∈ es, e.BindsFunction name function) ↔
    ∃ p ∈ ps, p.name = name ∧ p.function = function
  cells : (ps.map fun p => p.function.cell?).Subperm ((es.flatMap innerCells).map some)

/-- The procedures are those that the arms and the arms in their expressions bind, and the cells of
their functions are different ones of those of the expressions, as far as these are different. -/
structure ListsArms (arms : List (String × Sexp)) (ps : List Procedure) : Prop where
  binds_iff : ∀ name function,
    ((name, function) ∈ arms ∧ ∃ operands, function.phrase = .form .lambda operands) ∨
      (∃ init ∈ arms.map Prod.snd, init.BindsFunction name function) ↔
        ∃ p ∈ ps, p.name = name ∧ p.function = function
  cells : (ps.map fun p => p.function.cell?).Subperm
    (((arms.map Prod.snd).flatMap Sexp.cells).map some)

variable {es es' : List Sexp} {ps qs : List Procedure} {arms : List (String × Sexp)}

/-- No expressions bind no functions. -/
theorem lists_nil : Lists [] [] := ⟨by simp, .refl _⟩

/-- The functions of two lists of expressions. -/
theorem Lists.append (h : Lists es ps) (h' : Lists es' qs) : Lists (es ++ es') (ps ++ qs) := by
  constructor
  · intro name function
    simp only [List.mem_append, or_and_right, exists_or, h.binds_iff, h'.binds_iff]
  · rw [List.map_append, List.flatMap_append, List.map_append]
    exact h.cells.append h'.cells

/-- The order of the functions does not matter. -/
theorem Lists.perm (h : Lists es ps) (hperm : ps.Perm qs) : Lists es qs := by
  constructor
  · intro name function
    simp only [h.binds_iff, hperm.mem_iff]
  · exact (hperm.map _).symm.subperm.trans h.cells

/-- The functions of an expression that is no `LETREC` are those of its parts. -/
theorem Lists.of_parts (hphrase : ∀ bindings body, e.phrase ≠ .form .letrec [bindings, body])
    (h : Lists e.parts ps) : Lists [e] ps := by
  constructor
  · intro name function
    rw [← h.binds_iff]
    constructor
    · rintro ⟨x, hx, hbinds⟩
      obtain rfl := List.mem_singleton.1 hx
      cases hbinds with
      | arm hletrec => exact absurd hletrec (hphrase _ _)
      | part hx h => exact ⟨_, hx, h⟩
    · rintro ⟨x, hx, hbinds⟩
      exact ⟨e, List.mem_singleton_self e, .part hx hbinds⟩
  · have hinner : (e.parts.flatMap innerCells).Sublist (e.parts.flatMap Sexp.cells) := by
      generalize e.parts = es
      induction es with
      | nil => exact .refl _
      | cons x es ih => exact (innerCells_sublist x).append ih
    refine h.cells.trans ?_
    have hcells := hinner.subperm.trans (cells_parts_subperm e)
    simpa using hcells.map fun _ _ => Option.some.inj

/-- The functions of no arms. -/
theorem listsArms_nil : ListsArms [] [] := ⟨by simp, .refl _⟩

/-- The functions of several arms are those of the first one and those of the others. -/
theorem ListsArms.binds_cons_iff {name name' : String} {init function : Sexp}
    (h : Lists [init] ps) (harms : ListsArms arms qs) :
    (((name', function) ∈ (name, init) :: arms ∧
        ∃ operands, function.phrase = .form .lambda operands) ∨
      ∃ x ∈ ((name, init) :: arms).map Prod.snd, x.BindsFunction name' function) ↔
    (name' = name ∧ function = init ∧ ∃ operands, init.phrase = .form .lambda operands) ∨
      ∃ p ∈ ps ++ qs, p.name = name' ∧ p.function = function := by
  have hinside := h.binds_iff name' function
  have hothers := harms.binds_iff name' function
  simp only [List.mem_singleton, exists_eq_left] at hinside
  simp only [List.map_cons, List.mem_cons, List.mem_append, or_and_right, exists_or,
    exists_eq_left, ← hinside, ← hothers, Prod.mk.injEq]
  constructor
  · rintro ((⟨⟨rfl, rfl⟩, hlambda⟩ | harm) | h | h)
    · exact .inl ⟨rfl, rfl, hlambda⟩
    · exact .inr (.inr (.inl harm))
    · exact .inr (.inl h)
    · exact .inr (.inr (.inr h))
  · rintro (⟨rfl, rfl, hlambda⟩ | h | harm | h)
    · exact .inl (.inl ⟨⟨rfl, rfl⟩, hlambda⟩)
    · exact .inr (.inl h)
    · exact .inl (.inr harm)
    · exact .inr (.inr h)

/-- An arm that is a function comes after the functions inside. -/
theorem ListsArms.function {name : String} {function block : Sexp} {operands : List Sexp}
    (hphrase : function.phrase = .form .lambda operands) (h : Lists [function] ps)
    (harms : ListsArms arms qs) :
    ListsArms ((name, function) :: arms) (ps ++ ⟨name, function, block⟩ :: qs) := by
  have hperm : (ps ++ ⟨name, function, block⟩ :: qs).Perm (⟨name, function, block⟩ :: (ps ++ qs)) :=
    List.perm_middle
  constructor
  · intro name' function'
    rw [binds_cons_iff h harms]
    simp only [hperm.mem_iff, List.mem_cons, or_and_right, exists_or, exists_eq_left]
    refine or_congr_left ⟨?_, ?_⟩
    · rintro ⟨rfl, rfl, -⟩
      exact ⟨rfl, rfl⟩
    · rintro ⟨rfl, rfl⟩
      exact ⟨rfl, rfl, operands, hphrase⟩
  · obtain ⟨cell, head, tail, rfl, -⟩ := list?_of_phrase_form hphrase
    have hinside : (ps.map fun p => p.function.cell?).Subperm
        ((head.cells ++ tail.cells).map some) := by
      simpa [innerCells, Sexp.cells] using h.cells
    have hall := (List.subperm_cons (some cell)).2 (hinside.append harms.cells)
    refine (hperm.map _).subperm.trans ?_
    simpa [Sexp.cells, cell?] using hall

/-- An arm that is no function has only the functions inside. -/
theorem ListsArms.other {name : String} {init : Sexp}
    (hphrase : ∀ operands, init.phrase ≠ .form .lambda operands) (h : Lists [init] ps)
    (harms : ListsArms arms qs) : ListsArms ((name, init) :: arms) (ps ++ qs) := by
  constructor
  · intro name' function'
    rw [binds_cons_iff h harms, or_iff_right]
    rintro ⟨-, -, operands, hlambda⟩
    exact hphrase operands hlambda
  · have hinside : (ps.map fun p => p.function.cell?).Subperm (init.cells.map some) := by
      refine h.cells.trans ?_
      simpa using ((innerCells_sublist init).map some).subperm
    simpa using hinside.append harms.cells

/-- The functions of a `LETREC` are those of its body and of its arms. -/
theorem Lists.letrec {bindings body : Sexp} (hphrase : e.phrase = .form .letrec [bindings, body])
    (harms : bindings.arms? = some arms) (h : Lists [body] ps) (h' : ListsArms arms qs) :
    Lists [e] (ps ++ qs) := by
  have hparts : e.parts = body :: arms.map Prod.snd := by
    rw [parts, hphrase]
    dsimp only
    rw [harms, Option.getD_some]
  constructor
  · intro name function
    have hinside := h.binds_iff name function
    have hothers := h'.binds_iff name function
    simp only [List.mem_singleton, exists_eq_left] at hinside ⊢
    simp only [List.mem_append, or_and_right, exists_or, ← hinside, ← hothers]
    constructor
    · intro hbinds
      cases hbinds with
      | arm hphrase' harms' harm hfunction =>
        obtain ⟨rfl, rfl⟩ : _ ∧ _ := by
          simpa using (Phrase.form.inj (hphrase.symm.trans hphrase')).2
        obtain rfl := Option.some.inj (harms.symm.trans harms')
        exact .inr (.inl ⟨harm, _, hfunction⟩)
      | part hx hbinds =>
        rw [hparts] at hx
        rcases List.mem_cons.1 hx with rfl | hx
        · exact .inl hbinds
        · exact .inr (.inr ⟨_, hx, hbinds⟩)
    · rintro (hbinds | ⟨harm, operands, hfunction⟩ | ⟨x, hx, hbinds⟩)
      · exact .part (hparts ▸ List.mem_cons_self) hbinds
      · exact .arm hphrase harms harm hfunction
      · exact .part (hparts ▸ List.mem_cons_of_mem _ hx) hbinds
  · have hcells := (cells_parts_subperm e).map fun _ _ => Option.some.inj
    rw [hparts, List.flatMap_cons, List.map_append] at hcells
    have hbody : (ps.map fun p => p.function.cell?).Subperm (body.cells.map some) := by
      refine h.cells.trans ?_
      simpa using ((innerCells_sublist body).map some).subperm
    simpa using (hbody.append h'.cells).trans hcells

end Sexp

end Secd
