import Secd.Sexp

/-!
# Scopes and addresses

While an expression is compiled, each enclosing function contributes a frame of names; when it
runs, the environment has a frame of values for each. A variable is found by its address in them:
how many frames out, and how many slots along.
-/

namespace Secd

/-- The place of a variable: `frame` zero is the innermost frame. -/
structure Address where
  frame : Nat
  slot : Nat
deriving DecidableEq, Repr

namespace Address

/-- The address that a pair of integers denotes. -/
def ofValue (s : Store) (v : Value) : Except ValueError Address := do
  let frame ← (← s.head v).asInt
  let slot ← (← s.tail v).asInt
  if frame < 0 ∨ slot < 0 then
    .error (.indexOutOfRange (min frame.toInt slot.toInt).natAbs)
  else
    .ok ⟨frame.toInt.toNat, slot.toInt.toNat⟩

end Address

/-- The names in scope, one frame for each enclosing function, the innermost one first. -/
abbrev Scopes := List (List String)

namespace Scopes

/-- The address of a name: the innermost frame that has it, and its first place there. -/
def locate? (scopes : Scopes) (name : String) : Option Address :=
  match scopes with
  | [] => none
  | frame :: outer =>
    match frame.idxOf? name with
    | some slot => some ⟨0, slot⟩
    | none => (locate? outer name).map fun a => ⟨a.frame + 1, a.slot⟩

/-- A name without an address is in no frame. -/
theorem locate?_eq_none_iff (scopes : Scopes) (name : String) :
    scopes.locate? name = none ↔ ∀ frame ∈ scopes, name ∉ frame := by
  induction scopes with
  | nil => simp [locate?]
  | cons frame outer ih =>
    rw [locate?]
    cases found : frame.idxOf? name with
    | some slot =>
      have bound : name ∈ frame := by
        apply Classical.byContradiction
        intro free
        rw [List.idxOf?_eq_none_iff.2 free] at found
        cases found
      simp [bound]
    | none =>
      have free : name ∉ frame := List.idxOf?_eq_none_iff.1 found
      simp [ih, free]

/-- Whether an address points into the outermost frame. -/
def isOutermost (scopes : Scopes) (a : Address) : Bool :=
  a.frame + 1 == scopes.length

end Scopes

end Secd
