import Secd.Proofs.Term.Written

/-!
# Sequences of instructions

The code of a term as a sequence of instructions, whatever comes after it. The sequence belongs to
the term alone: however the code has been written, it begins with the items of these instructions.
-/

namespace Secd

/-- An instruction with its operands. The names with a block are those of the frame in which it
runs, and are no part of the code. -/
inductive Instruction where
  /-- An instruction without operands. -/
  | plain (op : Opcode)
  | ld (a : Address)
  | ldc (value : Sexp)
  | ldf (names : List String) (block : List Instruction)
  | sel (yes no : List Instruction)

namespace Term

mutual

/-- The instructions of a term. -/
def instructions : Term → List Instruction
  | .constant value => [.ldc value]
  | .variable a => [.ld a]
  | .unary op operand => operand.instructions ++ [.plain (.unary op)]
  | .binary op earlier later =>
    earlier.instructions ++ later.instructions ++ [.plain (.binary op)]
  | .conditional test yes no =>
    test.instructions ++
      [.sel (yes.instructions ++ [.plain .join]) (no.instructions ++ [.plain .join])]
  | .lambda names body => [.ldf names (body.instructions ++ [.plain .rtn])]
  | .apply function args =>
    [.ldc .nil] ++ argInstructions args ++ function.instructions ++ [.plain .ap]
  | .letrec names inits body =>
    [.plain .dum, .ldc .nil] ++ armInstructions names inits ++
      [.ldf names (body.instructions ++ [.plain .rtn])] ++ [.plain .rap]

/-- The instructions that put the values of terms in front of a list, the value of the last term
first. -/
def argInstructions : List Term → List Instruction
  | [] => []
  | t :: ts => argInstructions ts ++ t.instructions ++ [.plain (.binary .cons)]

/-- The same for the arms of a `LETREC`. -/
def armInstructions : List String → List Term → List Instruction
  | _ :: names, t :: ts =>
    armInstructions names ts ++ t.instructions ++ [.plain (.binary .cons)]
  | _, _ => []

end

/-- As long as each arm has a name, it does not matter which. -/
theorem armInstructions_eq {names : List String} {ts : List Term}
    (h : names.length = ts.length) : armInstructions names ts = argInstructions ts := by
  induction ts generalizing names with
  | nil => cases names <;> rfl
  | cons t ts ih =>
    cases names with
    | nil => cases h
    | cons name names => rw [armInstructions, argInstructions, ih (Nat.succ.inj h)]

end Term

open Sexp

namespace Instruction

mutual

/-- The addresses of the variables that an instruction loads, also in its blocks. -/
def addressesOf : Instruction → List Address
  | .plain _ | .ldc _ => []
  | .ld a => [a]
  | .ldf _ block => addresses block
  | .sel yes no => addresses yes ++ addresses no

/-- The addresses of the variables that instructions load. -/
def addresses : List Instruction → List Address
  | [] => []
  | i :: is => i.addressesOf ++ addresses is

end

/-- Instructions load the variables of their parts. -/
@[simp] theorem addresses_append (is js : List Instruction) :
    addresses (is ++ js) = addresses is ++ addresses js := by
  induction is with
  | nil => rfl
  | cons i is ih => rw [List.cons_append, addresses, addresses, ih, List.append_assoc]

/-- The items are those of the instructions: each of them is a symbol and its operands. A block that
is an operand is a list of the items of its own instructions. -/
inductive LaidOut : List Instruction → List (Nat × Sexp) → Prop where
  | nil : LaidOut [] []
  | plain {op : Opcode} {is : List Instruction} {own items : List (Nat × Sexp)}
      (hown : own.map Prod.snd = [op.sexp]) (hrest : LaidOut is items) :
      LaidOut (.plain op :: is) (own ++ items)
  | ld {a : Address} {cell : Nat} {is : List Instruction} {own items : List (Nat × Sexp)}
      (hown : own.map Prod.snd = [Opcode.ld.sexp, a.operand cell]) (hrest : LaidOut is items) :
      LaidOut (.ld a :: is) (own ++ items)
  | ldc {value : Sexp} {is : List Instruction} {own items : List (Nat × Sexp)}
      (hown : own.map Prod.snd = [Opcode.ldc.sexp, value]) (hrest : LaidOut is items) :
      LaidOut (.ldc value :: is) (own ++ items)
  | ldf {names : List String} {block is : List Instruction} {own inner items : List (Nat × Sexp)}
      (hown : own.map Prod.snd = [Opcode.ldf.sexp, before inner .nil])
      (hblock : LaidOut block inner) (hrest : LaidOut is items) :
      LaidOut (.ldf names block :: is) (own ++ items)
  | sel {yes no is : List Instruction} {own yesItems noItems items : List (Nat × Sexp)}
      (hown : own.map Prod.snd = [Opcode.sel.sexp, before yesItems .nil, before noItems .nil])
      (hyes : LaidOut yes yesItems) (hno : LaidOut no noItems) (hrest : LaidOut is items) :
      LaidOut (.sel yes no :: is) (own ++ items)

/-- The items of instructions one after the other. -/
theorem LaidOut.append {is js : List Instruction} {items others : List (Nat × Sexp)}
    (h : LaidOut is items) (h' : LaidOut js others) : LaidOut (is ++ js) (items ++ others) := by
  induction h with
  | nil => exact h'
  | plain hown _ ih =>
    rw [List.append_assoc]
    exact .plain hown ih
  | ld hown _ ih =>
    rw [List.append_assoc]
    exact .ld hown ih
  | ldc hown _ ih =>
    rw [List.append_assoc]
    exact .ldc hown ih
  | ldf hown hblock _ _ ih =>
    rw [List.append_assoc]
    exact .ldf hown hblock ih
  | sel hown hyes hno _ _ _ ih =>
    rw [List.append_assoc]
    exact .sel hown hyes hno ih

/-- The items of a single instruction are its own. -/
theorem LaidOut.single {is : List Instruction} {own : List (Nat × Sexp)}
    (h : LaidOut is (own ++ [])) : LaidOut is own := by
  rwa [List.append_nil] at h

/-- Code that is laid out as instructions goes on with one without operands. -/
theorem LaidOut.plain_after {is : List Instruction} {items : List (Nat × Sexp)}
    {op : Opcode} {d k : Sexp} (h : LaidOut is items) (hcode : d.Begins [op.sexp] k) :
    ∃ all, LaidOut (is ++ [.plain op]) all ∧ before items d = before all k := by
  obtain ⟨own, hown, rfl⟩ := hcode.exists_eq_before
  exact ⟨items ++ own, h.append (.single (.plain hown .nil)), (before_append _ _ _).symm⟩

end Instruction

open Instruction

namespace Term

/-! ### Addresses below a limit -/

section

variable {s : Store} {limit depth : Nat}

/-- The code of arguments loads the variables of the arguments. -/
theorem below_argInstructions {ts : List Term}
    (hts : ∀ t ∈ ts, ∀ a ∈ addresses t.instructions, a.Below limit) :
    ∀ a ∈ addresses (argInstructions ts), a.Below limit := by
  induction ts with
  | nil => exact List.forall_mem_nil _
  | cons t ts ih =>
    obtain ⟨ht, hts⟩ := List.forall_mem_cons.1 hts
    simpa [argInstructions, addresses, addressesOf, or_imp, forall_and] using ⟨ih hts, ht⟩

/-- The code of an admissible term loads variables whose addresses are below the limit. -/
theorem Admissible.below_of_mem {t : Term} (ht : Admissible s limit depth t) :
    ∀ a ∈ addresses t.instructions, a.Below limit := by
  induction ht with
  | constant _ => simp [instructions, addresses, addressesOf]
  | «variable» _ hframe hslot =>
    simpa [instructions, addresses, addressesOf] using ⟨hframe, hslot⟩
  | unary _ ih => simpa [instructions, addresses, addressesOf] using ih
  | binary _ _ iht ihu =>
    simpa [instructions, addresses, addressesOf, or_imp, forall_and] using ⟨iht, ihu⟩
  | conditional _ _ _ ihtest ihyes ihno =>
    simpa [instructions, addresses, addressesOf, or_imp, forall_and] using ⟨ihtest, ihyes, ihno⟩
  | lambda _ ih => simpa [instructions, addresses, addressesOf] using ih
  | apply _ _ ihf ihargs =>
    have hargs := below_argInstructions ihargs
    simpa [instructions, addresses, addressesOf, or_imp, forall_and] using ⟨hargs, ihf⟩
  | letrec hlength _ _ ihinits ihbody =>
    have hinits := below_argInstructions ihinits
    rw [instructions, armInstructions_eq hlength]
    simpa [addresses, addressesOf, or_imp, forall_and] using ⟨hinits, ihbody⟩

end

/-! ### The items of written code -/

mutual

/-- The code of a term is laid out as its instructions. -/
theorem Written.exists_laidOut {P : Address → Prop} {depth : Nat} {t : Term} {c k : Sexp}
    {o : Outline} : Written P depth t c k o →
      ∃ items, LaidOut t.instructions items ∧ c = before items k
  | .constant hcode => by
    obtain ⟨own, hown, rfl⟩ := hcode.exists_eq_before
    exact ⟨own, .single (.ldc hown .nil), rfl⟩
  | .variable hcode _ => by
    obtain ⟨own, hown, rfl⟩ := hcode.exists_eq_before
    exact ⟨own, .single (.ld hown .nil), rfl⟩
  | .unary ht hcode => by
    obtain ⟨items, hitems, rfl⟩ := ht.exists_laidOut
    exact hitems.plain_after hcode
  | .binary ht hu hcode => by
    obtain ⟨earlier, hearlier, rfl⟩ := ht.exists_laidOut
    obtain ⟨later, hlater, rfl⟩ := hu.exists_laidOut
    rw [← before_append]
    exact (hearlier.append hlater).plain_after hcode
  | .conditional htest hcode hyes hyesEnd hno hnoEnd => by
    obtain ⟨items, hitems, rfl⟩ := htest.exists_laidOut
    obtain ⟨_, hyesItems, rfl⟩ := hyes.exists_laidOut
    obtain ⟨_, hnoItems, rfl⟩ := hno.exists_laidOut
    obtain ⟨yesItems, hyesAll, hyes⟩ := hyesItems.plain_after hyesEnd
    obtain ⟨noItems, hnoAll, hno⟩ := hnoItems.plain_after hnoEnd
    rw [hyes, hno] at hcode
    obtain ⟨own, hown, rfl⟩ := hcode.exists_eq_before
    exact ⟨_, hitems.append (.single (.sel hown hyesAll hnoAll .nil)), (before_append _ _ _).symm⟩
  | .lambda hcode hbody hend => by
    obtain ⟨_, hinner, rfl⟩ := hbody.exists_laidOut
    obtain ⟨inner, hblock, heq⟩ := hinner.plain_after hend
    rw [heq] at hcode
    obtain ⟨own, hown, rfl⟩ := hcode.exists_eq_before
    exact ⟨own, .single (.ldf hown hblock .nil), rfl⟩
  | .apply hcode hargs hf hap => by
    obtain ⟨own, hown, rfl⟩ := hcode.exists_eq_before
    obtain ⟨list, hlist, rfl⟩ := hargs.exists_laidOut
    obtain ⟨items, hitems, rfl⟩ := hf.exists_laidOut
    have hbegin : LaidOut [.ldc .nil] own := .single (.ldc hown .nil)
    rw [← before_append, ← before_append]
    exact ((hbegin.append hlist).append hitems).plain_after hap
  | .letrec hdum hnil hinits hldf hrap hbody hend => by
    obtain ⟨_, hinner, rfl⟩ := hbody.exists_laidOut
    obtain ⟨inner, hblock, heq⟩ := hinner.plain_after hend
    rw [heq] at hldf
    obtain ⟨own, hown, rfl⟩ := hdum.exists_eq_before
    obtain ⟨empty, hempty, rfl⟩ := hnil.exists_eq_before
    obtain ⟨list, hlist, rfl⟩ := hinits.exists_laidOut
    obtain ⟨load, hload, rfl⟩ := hldf.exists_eq_before
    have hbegin : LaidOut [.plain .dum, .ldc .nil] (own ++ empty) :=
      .plain hown (.single (.ldc hempty .nil))
    rw [← before_append, ← before_append, ← before_append]
    exact ((hbegin.append hlist).append (.single (.ldf hload hblock .nil))).plain_after hrap

/-- The code of arguments is laid out as their instructions. -/
theorem WrittenAll.exists_laidOut {P : Address → Prop} {depth : Nat} {ts : List Term} {c k : Sexp}
    {o : Outline} : WrittenAll P depth ts c k o →
      ∃ items, LaidOut (argInstructions ts) items ∧ c = before items k
  | .nil => ⟨[], .nil, rfl⟩
  | .cons hothers hfirst hcode => by
    obtain ⟨list, hlist, rfl⟩ := hothers.exists_laidOut
    obtain ⟨items, hitems, rfl⟩ := hfirst.exists_laidOut
    rw [← before_append]
    exact (hlist.append hitems).plain_after hcode

/-- The same for the code of the arms of a `LETREC`. -/
theorem WrittenArms.exists_laidOut {P : Address → Prop} {depth : Nat} {names : List String}
    {ts : List Term} {c k : Sexp} {o : Outline} : WrittenArms P depth names ts c k o →
      ∃ items, LaidOut (armInstructions names ts) items ∧ c = before items k
  | .nil hnone => by
    have hempty : armInstructions names ts = [] := by
      rcases hnone with rfl | rfl <;> simp [armInstructions]
    exact ⟨[], hempty ▸ .nil, rfl⟩
  | .function hothers hfirst hcode | .other _ hothers hfirst hcode => by
    obtain ⟨list, hlist, rfl⟩ := hothers.exists_laidOut
    obtain ⟨items, hitems, rfl⟩ := hfirst.exists_laidOut
    rw [← before_append]
    exact (hlist.append hitems).plain_after hcode

end

end Term

end Secd
