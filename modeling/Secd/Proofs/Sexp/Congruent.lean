import Mathlib.Data.List.Forall2
import Secd.CompileError
import Secd.Proofs.Sexp.Items
import Secd.Proofs.Store.Parallel

/-!
# Trees in different cells

The same data, read twice, are trees of the same shape in different cells. What is known about the
cells of the one tree is then known about the cells at the same places of the other one. Nothing
that is computed from such trees alone tells them apart.
-/

namespace Secd

namespace Sexp

/-- The trees have the same shape and the same atoms, and cells at the same place are related. -/
inductive Congruent (Q : Nat → Nat → Prop) : Sexp → Sexp → Prop where
  | atom (a : Atom) : Congruent Q (.atom a) (.atom a)
  | pair {c c' : Nat} {head head' tail tail' : Sexp} (hcell : Q c c')
      (hhead : Congruent Q head head') (htail : Congruent Q tail tail') :
      Congruent Q (.pair c head tail) (.pair c' head' tail')

variable {Q P : Nat → Nat → Prop} {e e' : Sexp}

/-- The trees match. -/
theorem Congruent.matches (h : Congruent Q e e') : e.Matches e' := by
  induction h with
  | atom a => exact rfl
  | pair _ _ _ ihHead ihTail => exact ⟨ihHead, ihTail⟩

/-- Trees that match are congruent, whatever is asked of the cells as long as any two have it. -/
theorem Matches.congruent (h : e.Matches e') (hQ : ∀ c c', Q c c') : Congruent Q e e' := by
  induction e generalizing e' with
  | atom a =>
    cases e' with
    | atom b =>
      obtain rfl : a = b := h
      exact .atom a
    | pair _ _ _ => exact h.elim
  | pair c head tail ihHead ihTail =>
    cases e' with
    | atom b => exact h.elim
    | pair c' head' tail' => exact .pair (hQ c c') (ihHead h.1) (ihTail h.2)

namespace Congruent

/-- The trees have the same structure. -/
theorem same (h : Congruent Q e e') : e.same e' = true := by
  induction h with
  | atom a => exact a.same_refl
  | pair _ _ _ ihHead ihTail => exact Bool.and_eq_true_iff.2 ⟨ihHead, ihTail⟩

/-- Cells that are related in one way may be related in another way, too. -/
theorem imp (h : Congruent Q e e') (hQ : ∀ c c', Q c c' → P c c') : Congruent P e e' := by
  induction h with
  | atom a => exact .atom a
  | pair hcell _ _ ihHead ihTail => exact .pair (hQ _ _ hcell) ihHead ihTail

/-- The printed forms are the same. -/
theorem render_eq (h : Congruent Q e e') : e.render = e'.render := (h.matches.write_eq "").1

/-- The same keyword, if any. -/
theorem ofSexp?_eq (h : Congruent Q e e') : Keyword.ofSexp? e = Keyword.ofSexp? e' := by
  cases h <;> rfl

/-- Both are lists with the keyword `LAMBDA`, or neither is. -/
theorem isLambdaForm_eq (h : Congruent Q e e') : e.isLambdaForm = e'.isLambdaForm := by
  cases h with
  | atom a => rfl
  | pair _ hhead _ => rw [isLambdaForm, isLambdaForm, hhead.ofSexp?_eq]

/-- The items at the same place are in related cells, and are congruent themselves. -/
abbrev Items (Q : Nat → Nat → Prop) : List (Nat × Sexp) → List (Nat × Sexp) → Prop :=
  List.Forall₂ fun item item' => Q item.1 item'.1 ∧ Congruent Q item.2 item'.2

/-- The lists have items at the same places, and end in the same atom. -/
theorem items (h : Congruent Q e e') :
    Items Q e.items.1 e'.items.1 ∧ e.items.2 = e'.items.2 := by
  induction h with
  | atom a => exact ⟨.nil, rfl⟩
  | pair hcell hhead _ _ ihTail => exact ⟨.cons ⟨hcell, hhead⟩ ihTail.1, ihTail.2⟩

/-- Both are lists that end in the empty list, or neither is. -/
theorem items? (h : Congruent Q e e') : Option.Rel (Items Q) e.items? e'.items? := by
  induction h with
  | atom a =>
    cases a with
    | nil => exact .some .nil
    | _ => exact .none
  | pair hcell hhead _ _ ihTail =>
    rw [items?_pair, items?_pair]
    generalize Sexp.items? _ = x at ihTail ⊢
    generalize Sexp.items? _ = x' at ihTail ⊢
    cases ihTail with
    | none => exact .none
    | some hrest => exact .some (.cons ⟨hcell, hhead⟩ hrest)

/-- The lists have as many items. -/
theorem length?_eq (h : Congruent Q e e') : e.length? = e'.length? := by
  have hitems := h.items?
  rw [length?, length?]
  generalize e.items? = x at hitems ⊢
  generalize e'.items? = x' at hitems ⊢
  cases hitems with
  | none => rfl
  | some hitems => exact congrArg some hitems.length_eq

/-- The second items are congruent. -/
theorem second? (h : Congruent Q e e') : Option.Rel (Congruent Q) e.second? e'.second? := by
  cases h with
  | atom a => exact .none
  | pair _ _ htail =>
    cases htail with
    | atom a => exact .none
    | pair _ hhead _ => exact .some hhead

end Congruent

end Sexp

namespace Binder

open Sexp

variable {Q : Nat → Nat → Prop}

/-- Items that are congruent bind the same names. -/
theorem namesFrom_eq {items items' : List Sexp} (h : List.Forall₂ (Congruent Q) items items')
    (earlier : List String) : namesFrom earlier items = namesFrom earlier items' := by
  induction h generalizing earlier with
  | nil => rfl
  | @cons e e' _ _ hitem _ ih =>
    have hname : name earlier e = name earlier e' := by cases hitem <;> rfl
    simp only [namesFrom, hname, ih]

/-- Lists that are congruent bind the same names. -/
theorem ofList_eq {e e' : Sexp} (h : Congruent Q e e') : ofList e = ofList e' := by
  obtain ⟨hitems, hending⟩ := h.items
  have hnames : names (e.items.1.map Prod.snd) = names (e'.items.1.map Prod.snd) :=
    namesFrom_eq (List.rel_map (fun _ _ hitem => hitem.2) hitems) []
  simp only [ofList, hnames, hending]

end Binder

end Secd
