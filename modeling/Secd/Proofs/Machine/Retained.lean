import Secd.Proofs.Machine.Code
import Secd.Proofs.Machine.Mutation

/-!
# Code in a running machine

A step changes no tail, and of the heads only those that are the placeholder of a pending frame. So
code that a machine holds stays what it is, instruction by instruction, even if its program has
quoted the placeholder: at worst, a constant that is the placeholder is overwritten. The store
*retains* a tree if it has the cells of the tree up to such heads. This is all that is needed to
tell which instruction is next, and it lasts for every run.
-/

namespace Secd

/-- The tree has the other one for a part, or is that tree. -/
inductive Sexp.HasPart (part : Sexp) : Sexp → Prop where
  | self : HasPart part part
  | head {cell : Nat} {head tail : Sexp} (h : HasPart part head) :
      HasPart part (.pair cell head tail)
  | tail {cell : Nat} {head tail : Sexp} (h : HasPart part tail) :
      HasPart part (.pair cell head tail)

namespace Store

/-- The store has the cells of the tree, all with the tails that they have in the tree, and with the
heads, too, except for those that are the placeholder in the tree. -/
def Retains (s : Store) : Sexp → Prop
  | .atom _ => True
  | .pair c head tail =>
    c < s.size ∧ (s.cell c).tail = tail.value ∧
      (head.value ≠ .pending → (s.cell c).head = head.value) ∧ s.Retains head ∧ s.Retains tail

variable {s : Store} {e : Sexp}

/-- A tree that is held is retained. -/
theorem Holds.retains (h : s.Holds e) : s.Retains e := by
  induction e with
  | atom a => trivial
  | pair c head tail ihHead ihTail =>
    obtain ⟨hlt, hcell, hhead, htail⟩ := h
    exact ⟨hlt, by rw [hcell], fun _ => by rw [hcell], ihHead hhead, ihTail htail⟩

/-- The parts of a tree that is retained are retained. -/
theorem Retains.part {part : Sexp} (h : s.Retains e) (hpart : Sexp.HasPart part e) :
    s.Retains part := by
  induction hpart with
  | self => exact h
  | head _ ih => exact ih h.2.2.2.1
  | tail _ ih => exact ih h.2.2.2.2

/-- The symbol of an instruction is not the placeholder. -/
theorem opcode_value_ne_pending (op : Opcode) : op.value ≠ .pending := by
  intro h
  have hname : Opcode.ofValue? op.value = some op := Opcode.ofName?_mnemonic op
  rw [h] at hname
  cases hname

/-- A retained list begins with as many items as the tree, and each one that is not the placeholder
in the tree is that of the tree. -/
theorem Retains.exists_starts {c k : Sexp} (hc : s.Retains c) {items : List Sexp}
    (hcode : c.Begins items k) :
    ∃ vs, s.Starts c.value vs k.value ∧ s.Retains k ∧ (∀ x ∈ items, s.Retains x) ∧
      List.Forall₂ (fun x v => x.value ≠ .pending → v = x.value) items vs := by
  induction items generalizing c with
  | nil =>
    obtain rfl := hcode
    exact ⟨[], rfl, hc, by simp, .nil⟩
  | cons item items ih =>
    obtain ⟨cell, tail, rfl, htail⟩ := hcode
    obtain ⟨-, hcell, hhead, hitem, hrest⟩ := hc
    obtain ⟨vs, hstarts, hk, hitems, hvalues⟩ := ih hrest htail
    refine ⟨(s.cell cell).head :: vs, ⟨cell, rfl, rfl, ?_⟩, hk,
      List.forall_mem_cons.2 ⟨hitem, hitems⟩,
      .cons hhead hvalues⟩
    rw [hcell]
    exact hstarts

end Store

namespace Machine

variable {m : Machine} {e : Sexp}

/-- A step retains what has been retained. -/
theorem retains_next (h : m.store.Retains e) : m.next.store.Retains e := by
  induction e with
  | atom a => trivial
  | pair c head tail ihHead ihTail =>
    obtain ⟨hlt, htail, hhead, hheads, htails⟩ := h
    obtain ⟨hlt', hsame | ⟨args, hpatch, hcell⟩⟩ := m.cell_next_eq_or_patches hlt
    · refine ⟨hlt', by rw [hsame, htail], fun hne => ?_, ihHead hheads, ihTail htails⟩
      rw [hsame, hhead hne]
    · refine ⟨hlt', by rw [hcell, htail], fun hne => ?_, ihHead hheads, ihTail htails⟩
      exact absurd (hhead hne ▸ hpatch.pending) hne

/-- A run retains what has been retained. -/
theorem retains_after (h : m.store.Retains e) (n : Nat) : (m.after n).store.Retains e := by
  induction n with
  | zero => exact h
  | succ n ih => exact retains_next ih

/-- The code is next, and the store retains it. -/
structure At (m : Machine) (c : Sexp) : Prop where
  control : m.control = c.value
  retained : m.store.Retains c

/-- The next instruction is the one with which the code begins, with as many operands. -/
theorem At.exists_next {c k : Sexp} {op : Opcode} {operands : List Sexp} (h : m.At c)
    (hcode : c.Begins (op.sexp :: operands) k) :
    ∃ vs, m.registers.Next op vs k.value ∧ m.store.Retains k ∧
      (∀ x ∈ operands, m.store.Retains x) ∧
      List.Forall₂ (fun x v => x.value ≠ .pending → v = x.value) operands vs := by
  obtain ⟨vs, hstarts, hk, hitems, hvalues⟩ := h.retained.exists_starts hcode
  cases hvalues with
  | cons hop hvalues =>
    obtain rfl := hop (Store.opcode_value_ne_pending op)
    refine ⟨_, ?_, hk, fun x hx => hitems x (List.mem_cons_of_mem _ hx), hvalues⟩
    rw [Registers.Next, registers, h.control]
    exact hstarts

end Machine

end Secd
