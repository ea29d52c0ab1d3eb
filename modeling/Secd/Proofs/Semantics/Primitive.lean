import Secd.Proofs.Semantics.Operations

/-!
# Host primitives on representations

The primitives are modelled twice: for the machine on values of the store, with the message of the
host for a fault, and for the evaluator on what the values represent. The two models correspond to
each other step by step.
-/

namespace Secd

/-- The results correspond: they are related if both are there, and they are faults with the same
message otherwise. Where the language leaves the result open there may be any. -/
def Corresponds {α β : Type} (R : α → β → Prop) :
    Except Interruption α → Except String β → Prop
  | .ok a, .ok b => R a b
  | .error (.fault kind), .error message => kind = .hostError message
  | .error .outside, _ => True
  | _, _ => False

/-- Computations correspond if their first parts do, and the others for related results of these. -/
theorem Corresponds.bind {α β γ δ : Type} {R : α → β → Prop} {S : γ → δ → Prop}
    {x : Except Interruption α} {y : Except String β} (h : Corresponds R x y)
    {f : α → Except Interruption γ} {g : β → Except String δ}
    (hrest : ∀ a b, R a b → Corresponds S (f a) (g b)) : Corresponds S (x >>= f) (y >>= g) := by
  match x, y, h with
  | .ok a, .ok b, h => exact hrest a b h
  | .error (.fault kind), .error message, h => exact h
  | .error .outside, _, _ => exact trivial

namespace World

variable {base : Store} {w : World} {v : Value}

/-- An integer argument is the integer that it represents. -/
theorem Represents.corresponds_int {x : Meaning} (h : Represents base w v x) (p : Primitive) :
    Corresponds (· = ·) (p.denoteInt x) (p.intArg v) := by
  rcases h.int_or with ⟨n, rfl, rfl⟩ | ⟨hx, hv⟩
  · exact rfl
  · rw [Primitive.intArg, hv]
    cases x with
    | atom a =>
      cases a with
      | int n => exact absurd rfl (hx n)
      | nil | symbol _ | callable _ => exact rfl
    | pair _ _ | closure _ _ _ => exact rfl

/-- An integer result represents the integer. -/
theorem corresponds_result (p : Primitive) (result : Option Int64) :
    Corresponds (fun x v => Represents base w v x) (p.denoteResult result)
      (p.intResult result) := by
  cases result <;> exact rfl

/-- The sum of arguments represents the sum of what these represent. -/
theorem corresponds_sum (p : Primitive) (total : Int64) {vs : List Value} {xs : List Meaning}
    (hall : List.Forall₂ (Represents base w) vs xs) :
    Corresponds (fun x v => Represents base w v x) (p.denoteSum total xs)
      (p.sumFrom total vs) := by
  induction hall generalizing total with
  | nil => exact rfl
  | cons hfirst hothers ih =>
    rw [Primitive.denoteSum, Primitive.sumFrom]
    refine (hfirst.corresponds_int p).bind ?_
    intro n m hn
    subst hn
    cases Integer.add? total n with
    | some sum => exact ih sum
    | none => exact rfl

/-- The length of a list is that of the list which it represents. -/
theorem Represents.corresponds_length {x : Meaning} (h : Represents base w v x) :
    Corresponds (fun x v => Represents base w v x) (Primitive.denote .length [x])
      (Primitive.compute .length w.store [v]) := by
  rw [Primitive.denote, Primitive.compute, Store.length]
  rcases hspine : x.spine with ⟨n, _ | a⟩
  · exact trivial
  · obtain ⟨cells, hchain, hlength⟩ := h.exists_chain hspine
    by_cases hnil : a = .nil
    · subst hnil
      rw [hchain.toList_eq, ← hlength]
      dsimp only [Except.map]
      rw [List.length_map]
      exact rfl
    · rw [hchain.toList_eq_error hnil]
      cases a with
      | nil => exact absurd rfl hnil
      | int _ | symbol _ | callable _ => exact rfl

/-- An integer that is computed from one argument is that of the integer. -/
theorem Represents.corresponds_unary {x : Meaning} (h : Represents base w v x) (p : Primitive)
    (compute? : Int64 → Option Int64) :
    Corresponds (fun x v => Represents base w v x)
      (do p.denoteResult (compute? (← p.denoteInt x)))
      (do p.intResult (compute? (← p.intArg v))) := by
  refine (h.corresponds_int p).bind ?_
  intro n m hn
  subst hn
  exact corresponds_result p _

/-- The greater or the lesser of two arguments is that of the integers. -/
theorem corresponds_choice {v u : Value} {x y : Meaning} (hx : Represents base w v x)
    (hy : Represents base w u y) (p : Primitive) (choose : Int64 → Int64 → Int64) :
    Corresponds (fun x v => Represents base w v x)
      (do let m ← p.denoteInt x; let n ← p.denoteInt y; .ok (.int (choose m n)))
      (do let m ← p.intArg v; let n ← p.intArg u; .ok (.int (choose m n))) := by
  refine (hx.corresponds_int p).bind ?_
  intro m m' hm
  refine (hy.corresponds_int p).bind ?_
  intro n n' hn
  subst hm hn
  exact rfl

/-- The wrong number of arguments is the same on both sides. -/
theorem corresponds_arity (p : Primitive) {vs : List Value} {xs : List Meaning}
    (hall : List.Forall₂ (Represents base w) vs xs) :
    Corresponds (fun x v => Represents base w v x)
      (Primitive.refuse (Primitive.arityMessage p.name p.arity xs.length))
      (.error (Primitive.arityMessage p.name p.arity vs.length)) := by
  rw [hall.length_eq]
  exact rfl

/-- A primitive that makes no list corresponds to what it denotes. -/
theorem corresponds_compute {p : Primitive} (hp : p ≠ .list) {vs : List Value}
    {xs : List Meaning} (hall : List.Forall₂ (Represents base w) vs xs) :
    Corresponds (fun x v => Represents base w v x) (p.denote xs) (p.compute w.store vs) := by
  have harity := corresponds_arity p hall
  cases p with
  | list => exact absurd rfl hp
  | zero =>
    match hall with
    | .nil => exact rfl
    | .cons _ _ => exact harity
  | neg =>
    match hall with
    | .cons h .nil => exact h.corresponds_unary .neg Integer.neg?
    | .nil | .cons _ (.cons _ _) => exact harity
  | abs =>
    match hall with
    | .cons h .nil => exact h.corresponds_unary .abs Integer.abs?
    | .nil | .cons _ (.cons _ _) => exact harity
  | null =>
    match hall with
    | .cons h .nil =>
      rw [Primitive.denote, Primitive.compute, h.isNil_eq]
      exact rfl
    | .nil | .cons _ (.cons _ _) => exact harity
  | length =>
    match hall with
    | .cons h .nil => exact h.corresponds_length
    | .nil | .cons _ (.cons _ _) => exact harity
  | max =>
    rcases hall with _ | ⟨hx, _ | ⟨hy, _ | _⟩⟩
    · exact harity
    · exact harity
    · exact corresponds_choice hx hy .max fun m n => if m ≤ n then n else m
    · exact harity
  | min =>
    rcases hall with _ | ⟨hx, _ | ⟨hy, _ | _⟩⟩
    · exact harity
    · exact harity
    · exact corresponds_choice hx hy .min fun m n => if m ≤ n then m else n
    · exact harity
  | sum =>
    have hsum := corresponds_sum .sum 0 hall
    rcases hall with _ | ⟨_, _ | ⟨_, _ | ⟨_, _ | ⟨_, _ | ⟨_, _⟩⟩⟩⟩⟩
    · exact harity
    · exact harity
    · exact harity
    · exact harity
    · exact hsum
    · exact harity

end World

end Secd
