import Secd.Proofs.Module.NamedBlocks

/-!
# Code that computes a value

The code of an expression leaves one value on the stack, and so does every part of it, in the place
of the values that it finds there. The relation `Computes` says this about code and forgets what the
code has been written for: it is put together from single instructions, from branches, and from
pieces of code one after the other. It holds for whatever the compiler writes, with any names and of
any height.
-/

namespace Secd

namespace Sexp

/-- The number of cells along the tails. -/
def extent : Sexp → Nat
  | .atom _ => 0
  | .pair _ _ tail => tail.extent + 1

/-- The items at the beginning take one cell each. -/
theorem Begins.extent_eq {c k : Sexp} {items : List Sexp} (h : c.Begins items k) :
    c.extent = items.length + k.extent := by
  induction items generalizing c with
  | nil =>
    obtain rfl := h
    exact (Nat.zero_add _).symm
  | cons item items ih =>
    obtain ⟨cell, tail, rfl, htail⟩ := h
    rw [extent, ih htail, List.length_cons]
    omega

end Sexp

/-- The numbers of operands and of values taken from the stack, for the instructions that go on with
the next one after they have put one value on the stack. -/
def Opcode.effect? : Opcode → Option (Nat × Nat)
  | .ld | .ldc | .ldf => some (1, 0)
  | .unary _ => some (0, 1)
  | .binary _ => some (0, 2)
  | _ => none

namespace Sexp

/-- The code `c`, in front of the code `k`, leaves one value in the place of `taken` values that it
finds on the stack. -/
inductive Computes : (taken : Nat) → (c k : Sexp) → Prop where
  | keep {k : Sexp} : Computes 1 k k
  | instruction {op : Opcode} {operands : List Sexp} {taken : Nat} {c k : Sexp}
      (hcode : c.Begins (op.sexp :: operands) k)
      (hop : op.effect? = some (operands.length, taken)) :
      Computes taken c k
  | call {op : Opcode} {c k : Sexp} (hcode : c.Begins [op.sexp] k) (hop : op = .ap ∨ op = .rap) :
      Computes 2 c k
  | open {taken : Nat} {c d k : Sexp} (hcode : c.Begins [Opcode.dum.sexp] d)
      (hrest : Computes taken d k) : Computes taken c k
  | branch {c k yesCode noCode yesEnd noEnd : Sexp}
      (hcode : c.Begins [Opcode.sel.sexp, yesCode, noCode] k) (hyes : Computes 0 yesCode yesEnd)
      (hyesEnd : yesEnd.Begins [Opcode.join.sexp] .nil) (hno : Computes 0 noCode noEnd)
      (hnoEnd : noEnd.Begins [Opcode.join.sexp] .nil) : Computes 1 c k
  | seq {taken more : Nat} {c d k : Sexp} (hfirst : Computes taken c d)
      (hrest : Computes (more + 1) d k) : Computes (taken + more) c k

variable {taken : Nat} {c d g k : Sexp}

/-- Code is no shorter than what comes after it. -/
theorem Computes.extent_le (h : Computes taken c k) : k.extent ≤ c.extent := by
  induction h with
  | keep => exact Nat.le_refl _
  | instruction hcode _ | call hcode _ | branch hcode _ _ _ _ _ _ =>
    rw [hcode.extent_eq]
    exact Nat.le_add_left _ _
  | «open» hcode _ ih =>
    rw [hcode.extent_eq]
    exact Nat.le_trans ih (Nat.le_add_left _ _)
  | seq _ _ ih ih' => exact Nat.le_trans ih' ih

/-- Code that finds nothing on the stack is not empty. -/
theorem Computes.extent_lt (h : Computes 0 c k) : k.extent < c.extent := by
  generalize hzero : (0 : Nat) = taken at h
  induction h with
  | keep | call | branch => cases hzero
  | instruction hcode _ =>
    rw [hcode.extent_eq, List.length_cons]
    omega
  | «open» hcode hrest _ =>
    have hle := hrest.extent_le
    rw [hcode.extent_eq, List.length_singleton]
    omega
  | seq hfirst hrest ih _ =>
    have hle := hrest.extent_le
    have hlt := ih (by omega)
    omega

/-- A value is computed from one that comes first and one that comes next. -/
theorem Computes.binary {op : Binary} (hfirst : Computes 0 c d) (hnext : Computes 0 d g)
    (hcode : g.Begins [(Opcode.binary op).sexp] k) : Computes 0 c k :=
  .seq hfirst (.seq hnext (.instruction hcode rfl))

/-- A value comes in front of a list that has been computed. -/
theorem Computes.cons (hothers : Computes 1 c d) (hfirst : Computes 0 d g)
    (hcode : g.Begins [(Opcode.binary .cons).sexp] k) : Computes 1 c k :=
  .seq hothers (.seq hfirst (.instruction hcode rfl))

/-- A function is called with a list that has been computed. -/
theorem Computes.apply {h : Sexp} {op : Opcode} (hnil : c.Begins [Opcode.ldc.sexp, .nil] d)
    (hargs : Computes 1 d g) (hfunction : Computes 0 g h) (hcall : h.Begins [op.sexp] k)
    (hop : op = .ap ∨ op = .rap) : Computes 0 c k := by
  have happlied : Computes 1 g k := .seq hfunction (.call hcall hop)
  have hlist : Computes 1 d k := .seq hargs happlied
  exact .seq (.instruction hnil rfl) hlist

mutual

/-- The code of an expression computes a value. -/
theorem CompilesTo.computes {e c k : Sexp} {ps : List Procedure} :
    CompilesTo e c k ps → Computes 0 c k
  | .constant _ hcode | .variable _ hcode | .quote _ hcode | .lambda _ hcode _ _ =>
    .instruction hcode rfl
  | .unary _ hx hcode => .seq hx.computes (.instruction hcode rfl)
  | .leftFirst _ hx hy hcode => hx.computes.binary hy.computes hcode
  | .rightFirst _ hy hx hcode => hy.computes.binary hx.computes hcode
  | .conditional _ htest hcode hyes hyesEnd hno hnoEnd =>
    .seq htest.computes (.branch hcode hyes.computes hyesEnd hno.computes hnoEnd)
  | .let _ _ hcode hinits hldf hap _ _ =>
    .apply hcode hinits.computes (.instruction hldf rfl) hap (.inl rfl)
  | .letrec _ _ hcode hinits hldf hrap _ _ => by
    obtain ⟨d, hdum, hnil⟩ := hcode.append [Opcode.dum.sexp]
    exact .open hdum (.apply hnil hinits.computes (.instruction hldf rfl) hrap (.inr rfl))
  | .call _ hcode hargs hfunction hap =>
    .apply hcode hargs.computes hfunction.computes hap (.inl rfl)

/-- The code of arguments computes a list from one. -/
theorem CompilesAllTo.computes {es : List Sexp} {c k : Sexp} {ps : List Procedure} :
    CompilesAllTo es c k ps → Computes 1 c k
  | .nil => .keep
  | .cons hothers hfirst hcode => hothers.computes.cons hfirst.computes hcode

/-- So does the code of the arms of a `LETREC`. -/
theorem CompilesArmsTo.computes {arms : List (String × Sexp)} {c k : Sexp} {ps : List Procedure} :
    CompilesArmsTo arms c k ps → Computes 1 c k
  | .nil => .keep
  | .function _ hothers hfirst _ hcode => hothers.computes.cons hfirst.computes hcode
  | .other _ hothers hfirst hcode => hothers.computes.cons hfirst.computes hcode

end

end Sexp

end Secd
