import Secd.Proofs.Machine.Transition
import Secd.Proofs.Term.Items

/-!
# Code in the control

Code is a tree that the store holds, and the control is its value. This file says what the machine
finds there: the instruction and the operands with which the tree begins, and in the operand of `LD`
the address of a variable.
-/

namespace Secd

namespace Store

variable {s : Store}

/-- A held list of code begins with the values of its items. -/
theorem Holds.starts {c k : Sexp} (hc : s.Holds c) {items : List Sexp}
    (hcode : c.Begins items k) :
    s.Starts c.value (items.map Sexp.value) k.value ∧ s.Holds k ∧ ∀ x ∈ items, s.Holds x := by
  induction items generalizing c with
  | nil =>
    obtain rfl := hcode
    exact ⟨rfl, hc, by simp⟩
  | cons item items ih =>
    obtain ⟨cell, tail, rfl, htail⟩ := hcode
    obtain ⟨-, hcell, hitem, hheld⟩ := hc
    obtain ⟨hstarts, hk, hitems⟩ := ih hheld htail
    refine ⟨⟨cell, rfl, ?_, ?_⟩, hk, List.forall_mem_cons.2 ⟨hitem, hitems⟩⟩
    · rw [hcell]
    · rw [hcell]
      exact hstarts

/-- The operand for an address is read as that address. -/
theorem Holds.ofValue_eq {operand : Sexp} (hheld : s.Holds operand) {a : Address}
    (ha : operand.IsAddress a) : Address.ofValue s operand.value = .ok a := by
  obtain ⟨cell, i, j, rfl, hi, hj⟩ := ha
  obtain ⟨-, hcell, -, -⟩ := hheld
  have hlow : ¬ (i < 0 ∨ j < 0) := by
    rw [Int64.lt_iff_toInt_lt, Int64.lt_iff_toInt_lt, hi, hj]
    have hzero : (0 : Int64).toInt = 0 := rfl
    rw [hzero]
    omega
  simp only [Address.ofValue, Store.head, Store.tail, Store.asPair, Sexp.value, hcell, Except.map,
    bind, Except.bind, Value.asInt, if_neg hlow, hi, hj, Int.toNat_natCast]

end Store

/-- The next instruction is the one with which the code in the control begins. -/
theorem Registers.next_of_begins {r : Registers} {base : Store} {c k : Sexp} {op : Opcode}
    {operands : List Sexp} (hbase : base.Extends r.store) (hheld : base.Holds c)
    (hcontrol : r.control = c.value) (hcode : c.Begins (op.sexp :: operands) k) :
    r.Next op (operands.map Sexp.value) k.value ∧ base.Holds k ∧
      ∀ x ∈ operands, base.Holds x := by
  obtain ⟨-, hk, hitems⟩ := hheld.starts hcode
  obtain ⟨hstarts, -, -⟩ := (hheld.extends hbase).starts hcode
  rw [Registers.Next, hcontrol]
  exact ⟨hstarts, hk, fun x hx => hitems x (List.mem_cons_of_mem _ hx)⟩

end Secd
