import Mathlib.Data.List.Forall2
import Secd.Proofs.Machine.Transition
import Secd.Proofs.Semantics.Representation
import Secd.Proofs.Store.Equality

/-!
# Operations on representations

Values that represent the operands of an operation are all that an instruction needs: it gives a
value that represents the result, or a fault of the same kind. Most operations look at atoms only,
and these represent themselves. Equality and `LENGTH` follow pairs for as long as the evaluator
does; the order in which the machine compares the parts of values does not matter, because its
answer is determined by their unfoldings.
-/

namespace Secd

namespace World

variable {base : Store} {w : World} {v u : Value}

/-! ### Atoms -/

/-- A value belongs to the store if it represents something. -/
theorem Represents.contains {x : Meaning} (h : Represents base w v x) : w.store.Contains v := by
  cases x with
  | atom a =>
    obtain rfl := h
    exact trivial
  | pair _ _ | closure _ _ _ =>
    obtain ⟨c, rfl, hc, -⟩ := h
    exact hc

/-- Truth is represented by itself. -/
theorem Represents.isTrue_eq {x : Meaning} (h : Represents base w v x) : v.isTrue = x.isTrue := by
  cases x with
  | atom a =>
    obtain rfl := h
    cases a <;> rfl
  | pair _ _ | closure _ _ _ =>
    obtain ⟨c, rfl, -⟩ := h
    rfl

/-- The empty list is represented by itself. -/
theorem Represents.isNil_eq {x : Meaning} (h : Represents base w v x) : v.isNil = x.isNil := by
  cases x with
  | atom a =>
    obtain rfl := h
    cases a <;> rfl
  | pair _ _ | closure _ _ _ =>
    obtain ⟨c, rfl, -⟩ := h
    rfl

/-- An integer is represented by itself, and nothing else by an integer. -/
theorem Represents.int_or {x : Meaning} (h : Represents base w v x) :
    (∃ n, x = .int n ∧ v = .int n) ∨
      (∀ n, x ≠ .int n) ∧ v.asInt = .error (.notAnInt x.kind) := by
  cases x with
  | atom a =>
    obtain rfl := h
    cases a with
    | int n => exact .inl ⟨n, rfl, rfl⟩
    | nil | symbol _ | callable _ => exact .inr ⟨nofun, rfl⟩
  | pair _ _ | closure _ _ _ =>
    obtain ⟨c, rfl, -⟩ := h
    exact .inr ⟨nofun, rfl⟩

/-! ### Data -/

/-- A tree that the store holds represents the datum that it is. -/
theorem Sound.represents_ofSexp (h : w.Sound base) {e : Sexp} (he : base.Holds e) :
    Represents base w e.value (.ofSexp e) := by
  induction e with
  | atom a => rfl
  | pair c head tail ihhead ihtail =>
    obtain ⟨hc, hcell, hhead, htail⟩ := he
    have hcell' : w.store.cell c = ⟨head.value, tail.value⟩ := (h.code.cell_eq c hc).trans hcell
    refine ⟨c, rfl, Nat.lt_of_lt_of_le hc h.code.size_le, ?_, ?_, ?_⟩
    · intro hmem
      obtain ⟨i, hi⟩ := List.mem_iff_getElem?.1 hmem
      have hle := (h.frame i c hi).1
      omega
    · rw [hcell']
      exact ihhead hhead
    · rw [hcell']
      exact ihtail htail

/-! ### Equality -/

/-- Values have the same unfolding exactly if what they represent is found to be equal. -/
theorem Represents.sameUnfolding_iff {x y : Meaning} (hx : Represents base w v x)
    (hy : Represents base w u y) {b : Bool} (h : x.equal? y = some b) :
    w.store.SameUnfolding v u ↔ b = true := by
  induction x generalizing v u y b with
  | atom a =>
    obtain rfl := hx
    cases y with
    | atom a' =>
      obtain rfl := hy
      obtain rfl := Option.some.inj h
      exact Store.sameUnfolding_atom
    | pair _ _ | closure _ _ _ =>
      obtain ⟨c, rfl, -⟩ := hy
      obtain rfl := Option.some.inj h
      exact iff_of_false (Store.not_sameUnfolding_atom_pair a c) Bool.false_ne_true
  | pair head tail ihhead ihtail =>
    obtain ⟨c, rfl, -, -, hhead, htail⟩ := hx
    cases y with
    | atom a =>
      obtain rfl := hy
      obtain rfl := Option.some.inj h
      exact iff_of_false (Store.not_sameUnfolding_pair_atom c a) Bool.false_ne_true
    | pair head' tail' =>
      obtain ⟨d, rfl, -, -, hhead', htail'⟩ := hy
      rw [Store.sameUnfolding_pair]
      rw [Meaning.equal?] at h
      cases hanswer : head.equal? head' with
      | none => rw [hanswer] at h; cases h
      | some answer =>
        rw [hanswer] at h
        rw [ihhead hhead hhead' hanswer]
        cases answer with
        | true =>
          rw [ihtail htail htail' h]
          exact and_iff_right rfl
        | false =>
          obtain rfl := Option.some.inj h
          exact ⟨fun hsame => hsame.1, nofun⟩
    | closure _ _ _ => cases h
  | closure params body env =>
    obtain ⟨c, rfl, -⟩ := hx
    cases y with
    | atom a =>
      obtain rfl := hy
      obtain rfl := Option.some.inj h
      exact iff_of_false (Store.not_sameUnfolding_pair_atom c a) Bool.false_ne_true
    | pair _ _ | closure _ _ _ => cases h

/-- The machine finds values equal exactly if what they represent is found to be equal. -/
theorem Represents.equal_eq {x y : Meaning} (hx : Represents base w v x)
    (hy : Represents base w u y) (hw : w.store.Closed) {b : Bool} (h : x.equal? y = some b) :
    w.store.equal v u = b := by
  rw [Bool.eq_iff_iff, hw.equal_eq_true_iff hx.contains hy.contains]
  exact hx.sameUnfolding_iff hy h

/-! ### Lists -/

/-- A value that represents a list that does not end in a closure is a chain of as many cells. -/
theorem Represents.exists_chain {x : Meaning} (h : Represents base w v x) {n : Nat} {a : Atom}
    (hx : x.spine = (n, some a)) : ∃ cells, w.store.Chain v cells a ∧ cells.length = n := by
  induction x generalizing v n with
  | atom a' =>
    obtain rfl := h
    obtain ⟨rfl, ha⟩ := Prod.mk.inj hx
    obtain rfl := Option.some.inj ha
    exact ⟨[], rfl, rfl⟩
  | pair head tail _ ihtail =>
    obtain ⟨c, rfl, hc, -, -, htail⟩ := h
    obtain ⟨rfl, ha⟩ := Prod.mk.inj hx
    obtain ⟨cells, hchain, hlength⟩ := ihtail htail (n := tail.spine.1) (by rw [← ha])
    exact ⟨c :: cells, ⟨rfl, hc, hchain⟩, congrArg Nat.succ hlength⟩
  | closure _ _ _ => cases hx

/-- A value that represents the list of given values is a list of values that represent these. -/
theorem Represents.exists_list {xs : List Meaning} (h : Represents base w v (.list xs)) :
    ∃ vs, w.store.toList v = .ok vs ∧ List.Forall₂ (Represents base w) vs xs := by
  obtain ⟨cells, hchain, hall⟩ : ∃ cells, w.store.Chain v cells .nil ∧
      List.Forall₂ (Represents base w) (cells.map fun c => (w.store.cell c).head) xs := by
    induction xs generalizing v with
    | nil => exact ⟨[], h, .nil⟩
    | cons x xs ih =>
      obtain ⟨c, rfl, hc, -, hfirst, hothers⟩ := h
      obtain ⟨cells, hchain, hall⟩ := ih hothers
      exact ⟨c :: cells, ⟨rfl, hc, hchain⟩, .cons hfirst hall⟩
  exact ⟨_, hchain.toList_eq, hall⟩

/-- A new list of values represents the list of what they represent. -/
theorem Sound.represents_list (h : w.Sound base) {vs : List Value} {xs : List Meaning}
    (hall : List.Forall₂ (Represents base w) vs xs) :
    (w.withStore (w.store.list vs).2).Sound base ∧
      Represents base (w.withStore (w.store.list vs).2) (w.store.list vs).1 (.list xs) := by
  induction hall with
  | nil => exact ⟨h, rfl⟩
  | @cons v x vs xs hfirst hothers ih =>
    obtain ⟨hsound, hrest⟩ := ih
    have hextends : w.store.Extends (w.store.list vs).2 := Store.extends_dotted w.store vs .nil
    have hfirst := hfirst.evolves (grows_withStore hextends).toEvolves
    exact ⟨hsound.withStore (Store.extends_cons _ _ _), hsound.represents_cons hfirst hrest⟩

/-- A list is not the placeholder of a pending frame. -/
theorem Represents.not_pending {xs : List Meaning} (h : Represents base w v (.list xs)) :
    v.isPending = false := by
  cases xs with
  | nil =>
    obtain rfl := h
    rfl
  | cons x xs =>
    obtain ⟨c, rfl, -⟩ := h
    rfl

/-- The item of a list at an index represents the value at that index. -/
theorem Represents.nth {xs : List Meaning} (h : Represents base w v (.list xs)) {slot : Nat}
    {x : Meaning} (hx : xs[slot]? = some x) :
    ∃ u, w.store.nth v slot = .ok u ∧ Represents base w u x := by
  suffices hfrom : ∀ index, ∃ u, w.store.nthFrom index slot v = .ok u ∧ Represents base w u x from
    hfrom slot
  intro index
  induction xs generalizing v slot with
  | nil => cases hx
  | cons y xs ih =>
    obtain ⟨c, rfl, -, -, hfirst, hothers⟩ := h
    cases slot with
    | zero =>
      obtain rfl := Option.some.inj hx
      exact ⟨_, rfl, hfirst⟩
    | succ slot => exact ih hothers hx

/-- A list has no item after its last one. -/
theorem Represents.nth_error {xs : List Meaning} (h : Represents base w v (.list xs)) {slot : Nat}
    (hx : xs[slot]? = none) : ∃ e, w.store.nth v slot = .error e := by
  suffices hfrom : ∀ index, ∃ e, w.store.nthFrom index slot v = .error e from hfrom slot
  intro index
  induction xs generalizing v slot with
  | nil =>
    obtain rfl := h
    cases slot <;> exact ⟨_, rfl⟩
  | cons y xs ih =>
    obtain ⟨c, rfl, -, -, -, hothers⟩ := h
    cases slot with
    | zero => cases hx
    | succ slot => exact ih hothers hx

end World

end Secd
