import Secd.Proofs.Term.Admissible
import Secd.Term.Code

/-!
# Items of code

Code is a list of items, the symbols of instructions and their operands, each in a cell of its own.
Items that are written in front of code are put into new cells: the cells that there were keep what
they hold, among them those of the code behind.
-/

namespace Secd

/-- The frame and the slot of the address are below the limit. -/
structure Address.Below (limit : Nat) (a : Address) : Prop where
  frame_lt : a.frame < limit
  slot_lt : a.slot < limit

/-- The operand of `LD` for the address, in the given cell. -/
def Address.operand (a : Address) (cell : Nat) : Sexp :=
  .pair cell (.int (Int64.ofNat a.frame)) (.int (Int64.ofNat a.slot))

namespace Sexp

/-- The code begins with the given items, and `rest` comes after them. -/
def Begins : (c : Sexp) → (items : List Sexp) → (rest : Sexp) → Prop
  | c, [], rest => c = rest
  | c, item :: items, rest => ∃ cell tail, c = .pair cell item tail ∧ tail.Begins items rest

/-- Code that begins with some items goes on after the first ones with the others. -/
theorem Begins.append (first : List Sexp) {c k : Sexp} {others : List Sexp}
    (h : c.Begins (first ++ others) k) : ∃ d, c.Begins first d ∧ d.Begins others k := by
  induction first generalizing c with
  | nil => exact ⟨c, rfl, h⟩
  | cons item first ih =>
    obtain ⟨cell, tail, rfl, htail⟩ := h
    obtain ⟨d, hd, hrest⟩ := ih htail
    exact ⟨d, ⟨cell, tail, rfl, hd⟩, hrest⟩

/-- Code that begins with one item may go on with others. -/
theorem Begins.cons {c d k : Sexp} {item : Sexp} {others : List Sexp} (h : c.Begins [item] d)
    (hrest : d.Begins others k) : c.Begins (item :: others) k := by
  obtain ⟨cell, _, rfl, rfl⟩ := h
  exact ⟨cell, _, rfl, hrest⟩

/-- Code that begins with the same items is the same if what comes after them is. -/
theorem Begins.same {items items' : List Sexp} {c c' k k' : Sexp} (h : c.Begins items k)
    (h' : c'.Begins items' k') (hitems : List.Forall₂ (fun x x' => x.same x' = true) items items')
    (hk : k.same k' = true) : c.same c' = true := by
  induction hitems generalizing c c' with
  | nil =>
    obtain rfl := h
    obtain rfl := h'
    exact hk
  | cons hitem _ ih =>
    obtain ⟨_, _, rfl, htail⟩ := h
    obtain ⟨_, _, rfl, htail'⟩ := h'
    exact Bool.and_eq_true_iff.2 ⟨hitem, ih htail htail'⟩

/-- The same for an instruction with operands that are the same. -/
theorem Begins.same_instruction {op : Opcode} {operands operands' : List Sexp} {c c' k k' : Sexp}
    (h : c.Begins (op.sexp :: operands) k) (h' : c'.Begins (op.sexp :: operands') k')
    (hoperands : List.Forall₂ (fun x x' => x.same x' = true) operands operands')
    (hk : k.same k' = true) : c.same c' = true :=
  h.same h' (.cons (same_refl _) hoperands) hk

/-- In code that is the same, the operands of the first instruction are the same. -/
theorem Begins.same_operand {op : Opcode} {x x' c c' k k' : Sexp} (h : c.Begins [op.sexp, x] k)
    (h' : c'.Begins [op.sexp, x'] k') (hsame : c.same c' = true) : x.same x' = true := by
  obtain ⟨_, _, rfl, _, _, rfl, -⟩ := h
  obtain ⟨_, _, rfl, _, _, rfl, -⟩ := h'
  exact (Bool.and_eq_true_iff.1 (Bool.and_eq_true_iff.1 hsame).2).1

/-- The items, each in its cell, and the code `k` after them. -/
def before (items : List (Nat × Sexp)) (k : Sexp) : Sexp :=
  items.foldr (fun item rest => .pair item.1 item.2 rest) k

/-- Items come before others. -/
theorem before_append (front back : List (Nat × Sexp)) (k : Sexp) :
    before (front ++ back) k = before front (before back k) :=
  List.foldr_append

/-- Items that nothing comes after are determined by the code. -/
theorem before_inj {items items' : List (Nat × Sexp)} (h : before items .nil = before items' .nil) :
    items = items' := by
  induction items generalizing items' with
  | nil =>
    cases items' with
    | nil => rfl
    | cons _ _ => cases h
  | cons item items ih =>
    cases items' with
    | nil => cases h
    | cons item' items' =>
      obtain ⟨hcell, hitem, hrest⟩ := Sexp.pair.inj h
      rw [ih hrest, Prod.ext hcell hitem]

/-- Items in cells are what the code begins with. -/
theorem begins_before (items : List (Nat × Sexp)) (k : Sexp) :
    (before items k).Begins (items.map Prod.snd) k := by
  induction items with
  | nil => rfl
  | cons item items ih => exact ⟨item.1, _, rfl, ih⟩

/-- What code begins with is in cells. -/
theorem Begins.exists_eq_before {c k : Sexp} {items : List Sexp} (h : c.Begins items k) :
    ∃ own, own.map Prod.snd = items ∧ c = before own k := by
  induction items generalizing c with
  | nil => exact ⟨[], rfl, h⟩
  | cons item items ih =>
    obtain ⟨cell, tail, rfl, htail⟩ := h
    obtain ⟨own, hown, rfl⟩ := ih htail
    exact ⟨(cell, item) :: own, congrArg (item :: ·) hown, rfl⟩

/-- The expression is the operand for the address of a variable. -/
def IsAddress (e : Sexp) (a : Address) : Prop :=
  ∃ cell i j, e = .pair cell (.int i) (.int j) ∧ i.toInt = a.frame ∧ j.toInt = a.slot

end Sexp

/-- The operand for an address below the limit of machine integers is read as the address. -/
theorem Address.Below.isAddress {a : Address} (h : a.Below Address.limit) (cell : Nat) :
    (a.operand cell).IsAddress a :=
  ⟨cell, _, _, rfl, Int64.toInt_ofNat_of_lt h.frame_lt, Int64.toInt_ofNat_of_lt h.slot_lt⟩

open Sexp

namespace Store

/-- In the store, each item is the head of its cell, and the tail is the cell of the next item, or
the code `k` after the last one. -/
def Links (s : Store) : (items : List (Nat × Sexp)) → (k : Sexp) → Prop
  | [], _ => True
  | (cell, item) :: items, k =>
    s.cell cell = ⟨item.value, (before items k).value⟩ ∧ s.Links items k

variable {s s' : Store}

/-- Items in cells that are kept stay linked. -/
theorem Links.extends {items : List (Nat × Sexp)} {k : Sexp} (h : s.Links items k)
    (hlt : ∀ item ∈ items, item.1 < s.size) (hs : s.Extends s') : s'.Links items k := by
  induction items with
  | nil => exact trivial
  | cons item items ih =>
    obtain ⟨hcell, hrest⟩ := h
    obtain ⟨hfirst, hothers⟩ := List.forall_mem_cons.1 hlt
    exact ⟨(hs.cell_eq _ hfirst).trans hcell, ih hrest hothers⟩

/-- Items that are linked to others are linked together with them. -/
theorem Links.append {front back : List (Nat × Sexp)} {k : Sexp}
    (hfront : s.Links front (before back k)) (hback : s.Links back k) :
    s.Links (front ++ back) k := by
  induction front with
  | nil => exact hback
  | cons item front ih =>
    obtain ⟨hcell, hrest⟩ := hfront
    rw [← before_append] at hcell
    exact ⟨hcell, ih hrest⟩

end Store

/-! ### Writing in front of code -/

/-- From the assembly `a` to the assembly `b`, the items have been written in front of the code `k`,
and the blocks have been noted. The items are in new cells, and the cells that there were keep what
they hold, among them those of `k`. -/
structure Assembly.Prepends (a b : Assembly) (items : List (Nat × Sexp)) (noted : List NamedBlock)
    (k : Sexp) : Prop where
  named : b.named = noted ++ a.named
  extends_store : a.store.Extends b.store
  fresh : ∀ item ∈ items, a.store.size ≤ item.1 ∧ item.1 < b.store.size
  links : b.store.Links items k

namespace Assembly.Prepends

variable {a b b' : Assembly} {front back items : List (Nat × Sexp)} {noted noted' : List NamedBlock}
  {k : Sexp}

/-- Nothing has been written yet. -/
theorem refl (a : Assembly) (k : Sexp) : a.Prepends a [] [] k :=
  ⟨rfl, .refl _, List.forall_mem_nil _, trivial⟩

/-- What is written later comes first in the code. -/
theorem trans (h : a.Prepends b back noted k) (h' : b.Prepends b' front noted' (before back k)) :
    a.Prepends b' (front ++ back) (noted' ++ noted) k where
  named := by rw [h'.named, h.named, List.append_assoc]
  extends_store := h.extends_store.trans h'.extends_store
  fresh item hitem := by
    rcases List.mem_append.1 hitem with hitem | hitem
    · obtain ⟨hle, hlt⟩ := h'.fresh item hitem
      exact ⟨Nat.le_trans h.extends_store.size_le hle, hlt⟩
    · obtain ⟨hle, hlt⟩ := h.fresh item hitem
      exact ⟨hle, Nat.lt_of_lt_of_le hlt h'.extends_store.size_le⟩
  links := by
    have hkept := h.links.extends (fun item hitem => (h.fresh item hitem).2) h'.extends_store
    exact h'.links.append hkept

/-- Before that, an operand has been written somewhere else. -/
theorem after {e : Sexp} (h : b.Prepends b' items noted' k) (h' : a.Prepends b back noted e) :
    a.Prepends b' items (noted' ++ noted) k where
  named := by rw [h.named, h'.named, List.append_assoc]
  extends_store := h'.extends_store.trans h.extends_store
  fresh item hitem := by
    obtain ⟨hle, hlt⟩ := h.fresh item hitem
    exact ⟨Nat.le_trans h'.extends_store.size_le hle, hlt⟩
  links := h.links

/-- A block has been noted. -/
theorem note (h : a.Prepends b items noted k) (n : NamedBlock) :
    a.Prepends ⟨b.store, n :: b.named⟩ items (n :: noted) k where
  named := congrArg (n :: ·) h.named
  extends_store := h.extends_store
  fresh := h.fresh
  links := h.links

end Assembly.Prepends

end Secd
