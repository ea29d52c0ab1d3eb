import Secd.Proofs.Term.Items

/-!
# Written code

What the code of a term looks like, in whatever cells it is written. The relation `Written` follows
the term: it says which instructions come one after the other, and where the code goes on with the
code that it was written in front of. With the code it gives an outline of it: the blocks that it
loads, its call sites, and the blocks that have been noted. Whatever is known about the code of
terms is read off this relation, by recursion on it.
-/

namespace Secd

/-- A block that code loads, and the name of the `LETREC` arm of whose function it is the code, if
there is one. -/
structure LoadedBlock where
  code : Sexp
  arm : Option String

/-- The first cells of the blocks. -/
def LoadedBlock.cells (blocks : List LoadedBlock) : List (Option Nat) :=
  blocks.map fun b => b.code.cell?

/-- The code that begins with the `AP` of a call, the slot of the function in its frame if this is a
variable of a frame outside of the program, and how many arguments the call has. -/
structure CallSite where
  code : Sexp
  callee : Option Nat
  args : Nat

/-- The cells of the instructions. -/
def CallSite.cells (sites : List CallSite) : List (Option Nat) :=
  sites.map fun site => site.code.cell?

/-! ### Outlines -/

/-- What there is in code. -/
structure Outline where
  /-- Cells of instructions, among them the first ones of the blocks and of the call sites. -/
  cells : List (Option Nat)
  /-- The blocks that the code loads, in the order in which they come in it. -/
  loaded : List LoadedBlock
  sites : List CallSite
  /-- The blocks that have been noted, the last one first. -/
  noted : List NamedBlock

namespace Outline

/-- Nothing. -/
def empty : Outline := ⟨[], [], [], []⟩

/-- Code in front of other code. It has been written later. -/
instance : Append Outline where
  append o o' := ⟨o.cells ++ o'.cells, o.loaded ++ o'.loaded, o.sites ++ o'.sites,
    o.noted ++ o'.noted⟩

/-- One branch and then another, which has been written later. -/
def beside (o o' : Outline) : Outline :=
  ⟨o.cells ++ o'.cells, o.loaded ++ o'.loaded, o.sites ++ o'.sites, o'.noted ++ o.noted⟩

/-- With the instruction at the code `c`. -/
def mark (o : Outline) (c : Sexp) : Outline := { o with cells := c.cell? :: o.cells }

/-- With the `AP` of a call after it. -/
def call (o : Outline) (c : Sexp) (callee : Option Nat) (args : Nat) : Outline :=
  { o with cells := o.cells ++ [c.cell?], sites := o.sites ++ [⟨c, callee, args⟩] }

/-- In a block that the code `c` loads. -/
def load (o : Outline) (c block : Sexp) : Outline :=
  { o with cells := c.cell? :: o.cells, loaded := ⟨block, none⟩ :: o.loaded }

/-- In the block of the function of an arm, which has been noted after it has been written. -/
def arm (o : Outline) (name : String) (c block : Sexp) : Outline :=
  { o with cells := c.cell? :: o.cells, loaded := ⟨block, some name⟩ :: o.loaded,
           noted := ⟨name, block⟩ :: o.noted }

variable (o o' : Outline) (c block : Sexp)

@[simp] theorem loaded_append : (o ++ o').loaded = o.loaded ++ o'.loaded := rfl

@[simp] theorem loaded_beside : (o.beside o').loaded = o.loaded ++ o'.loaded := rfl

@[simp] theorem loaded_mark : (o.mark c).loaded = o.loaded := rfl

@[simp] theorem loaded_call (callee : Option Nat) (args : Nat) :
    (o.call c callee args).loaded = o.loaded := rfl

@[simp] theorem loaded_load : (o.load c block).loaded = ⟨block, none⟩ :: o.loaded := rfl

@[simp] theorem loaded_arm (name : String) :
    (o.arm name c block).loaded = ⟨block, some name⟩ :: o.loaded := rfl

end Outline

namespace Term

/-- The slot of a variable that belongs to a frame outside, if the program has put `depth` frames
around it. -/
def outerSlot? (depth : Nat) : Term → Option Nat
  | .variable a => if depth ≤ a.frame then some a.slot else none
  | _ => none

mutual

/-- The code `c` is that of the term in front of the code `k`, inside of `depth` frames of the
program. The addresses of its variables have the property `P`. -/
inductive Written (P : Address → Prop) : (depth : Nat) → Term → (c k : Sexp) → Outline → Prop where
  | constant {depth : Nat} {value c k : Sexp} (hcode : c.Begins [Opcode.ldc.sexp, value] k) :
      Written P depth (.constant value) c k (Outline.empty.mark c)
  | variable {depth cell : Nat} {a : Address} {c k : Sexp}
      (hcode : c.Begins [Opcode.ld.sexp, a.operand cell] k) (ha : P a) :
      Written P depth (.variable a) c k (Outline.empty.mark c)
  | unary {depth : Nat} {op : Unary} {t : Term} {c d k : Sexp} {o : Outline}
      (ht : Written P depth t c d o) (hcode : d.Begins [(Opcode.unary op).sexp] k) :
      Written P depth (.unary op t) c k o
  | binary {depth : Nat} {op : Binary} {t u : Term} {c d e k : Sexp} {o o' : Outline}
      (ht : Written P depth t c d o) (hu : Written P depth u d e o')
      (hcode : e.Begins [(Opcode.binary op).sexp] k) :
      Written P depth (.binary op t u) c k (o ++ o')
  | conditional {depth : Nat} {test yes no : Term} {c d k yesCode noCode yesEnd noEnd : Sexp}
      {o o' o'' : Outline} (htest : Written P depth test c d o)
      (hcode : d.Begins [Opcode.sel.sexp, yesCode, noCode] k)
      (hyes : Written P depth yes yesCode yesEnd o')
      (hyesEnd : yesEnd.Begins [Opcode.join.sexp] .nil)
      (hno : Written P depth no noCode noEnd o'') (hnoEnd : noEnd.Begins [Opcode.join.sexp] .nil) :
      Written P depth (.conditional test yes no) c k (o ++ o'.beside o'')
  | lambda {depth : Nat} {names : List String} {body : Term} {c k block blockEnd : Sexp}
      {o : Outline} (hcode : c.Begins [Opcode.ldf.sexp, block] k)
      (hbody : Written P (depth + 1) body block blockEnd o)
      (hend : blockEnd.Begins [Opcode.rtn.sexp] .nil) :
      Written P depth (.lambda names body) c k (o.load c block)
  | apply {depth : Nat} {f : Term} {args : List Term} {c d e g k : Sexp} {o o' : Outline}
      (hcode : c.Begins [Opcode.ldc.sexp, .nil] d) (hargs : WrittenAll P depth args d e o)
      (hf : Written P depth f e g o') (hap : g.Begins [Opcode.ap.sexp] k) :
      Written P depth (.apply f args) c k
        (((o ++ o').call g (f.outerSlot? depth) args.length).mark c)
  | letrec {depth : Nat} {names : List String} {inits : List Term} {body : Term}
      {c l d e g k block blockEnd : Sexp} {o o' : Outline}
      (hdum : c.Begins [Opcode.dum.sexp] l) (hnil : l.Begins [Opcode.ldc.sexp, .nil] d)
      (hinits : WrittenArms P (depth + 1) names inits d e o)
      (hldf : e.Begins [Opcode.ldf.sexp, block] g) (hrap : g.Begins [Opcode.rap.sexp] k)
      (hbody : Written P (depth + 1) body block blockEnd o')
      (hend : blockEnd.Begins [Opcode.rtn.sexp] .nil) :
      Written P depth (.letrec names inits body) c k ((o ++ o'.load e block).mark c)

/-- The code `c` puts the values of the terms in front of a list, the last one first, and `k` comes
after it. -/
inductive WrittenAll (P : Address → Prop) :
    (depth : Nat) → List Term → (c k : Sexp) → Outline → Prop where
  | nil {depth : Nat} {k : Sexp} : WrittenAll P depth [] k k .empty
  | cons {depth : Nat} {t : Term} {ts : List Term} {c d e k : Sexp} {o o' : Outline}
      (hothers : WrittenAll P depth ts c d o) (hfirst : Written P depth t d e o')
      (hcode : e.Begins [(Opcode.binary .cons).sexp] k) :
      WrittenAll P depth (t :: ts) c k (o ++ o')

/-- The same for the initial values of a `LETREC`. The block of an arm that is a function is that
which the code of the arm loads first. -/
inductive WrittenArms (P : Address → Prop) :
    (depth : Nat) → List String → List Term → (c k : Sexp) → Outline → Prop where
  | nil {depth : Nat} {names : List String} {ts : List Term} {k : Sexp}
      (hnone : names = [] ∨ ts = []) : WrittenArms P depth names ts k k .empty
  | function {depth : Nat} {name : String} {names params : List String} {body : Term}
      {ts : List Term} {c d e k block : Sexp} {o o' : Outline}
      (hothers : WrittenArms P depth names ts c d o)
      (hfirst : Written P depth (.lambda params body) d e (o'.load d block))
      (hcode : e.Begins [(Opcode.binary .cons).sexp] k) :
      WrittenArms P depth (name :: names) (.lambda params body :: ts) c k
        (o ++ o'.arm name d block)
  | other {depth : Nat} {name : String} {names : List String} {t : Term} {ts : List Term}
      {c d e k : Sexp} {o o' : Outline} (hother : ∀ params body, t ≠ .lambda params body)
      (hothers : WrittenArms P depth names ts c d o) (hfirst : Written P depth t d e o')
      (hcode : e.Begins [(Opcode.binary .cons).sexp] k) :
      WrittenArms P depth (name :: names) (t :: ts) c k (o ++ o')

end

variable {P : Address → Prop} {depth : Nat} {c k : Sexp} {o : Outline}

/-- If the code of a function loads a block, it begins with the `LDF` of this block. -/
theorem Written.begins_of_load {params : List String} {body : Term} {block : Sexp}
    (h : Written P depth (.lambda params body) c k (o.load c block)) :
    c.Begins [Opcode.ldf.sexp, block] k := by
  generalize ho : o.load c block = o' at h
  cases h with
  | lambda hcode _ _ =>
    obtain ⟨rfl, -⟩ := LoadedBlock.mk.inj (List.cons.inj (congrArg Outline.loaded ho)).1
    exact hcode

/-- As long as each initial value has a name, the values are put into a list like those of
arguments. The call sites are the same. -/
theorem WrittenArms.exists_writtenAll {names : List String} {ts : List Term}
    (h : WrittenArms P depth names ts c k o) (hlength : names.length = ts.length) :
    ∃ o', WrittenAll P depth ts c k o' ∧ o'.sites = o.sites := by
  induction ts generalizing names k o with
  | nil =>
    cases h with
    | nil _ => exact ⟨_, .nil, rfl⟩
  | cons t ts ih =>
    cases h with
    | nil hnone =>
      obtain rfl | hnone := hnone
      · cases hlength
      · cases hnone
    | function hothers hfirst hcode =>
      obtain ⟨o', hall, hsites⟩ := ih hothers (Nat.succ.inj hlength)
      exact ⟨_, .cons hall hfirst hcode, congrArg (· ++ _) hsites⟩
    | other _ hothers hfirst hcode =>
      obtain ⟨o', hall, hsites⟩ := ih hothers (Nat.succ.inj hlength)
      exact ⟨_, .cons hall hfirst hcode, congrArg (· ++ _) hsites⟩

end Term

/-! ### What an outline says -/

namespace Outline

/-- The blocks and the call sites are in cells of the outline, the blocks in others than the given
first ones, and the blocks that have been noted are those of arms. -/
structure Coherent (first : List (Option Nat)) (o : Outline) : Prop where
  loaded : (first ++ LoadedBlock.cells o.loaded).Sublist o.cells
  sites : (CallSite.cells o.sites).Sublist o.cells
  mem_noted : ∀ n, n ∈ o.noted ↔ ⟨n.body, some n.name⟩ ∈ o.loaded

namespace Coherent

variable {first first' : List (Option Nat)} {o o' : Outline} {c block : Sexp}

/-- There is nothing in no code. -/
theorem empty : Coherent [] .empty := ⟨.refl _, .refl _, fun n => by simp [Outline.empty]⟩

/-- Code in front of other code. -/
theorem append (h : o.Coherent first) (h' : o'.Coherent first') : (o ++ o').Coherent first where
  loaded := by
    have hothers := (List.sublist_append_right _ _).trans h'.loaded
    have hall := h.loaded.append hothers
    rw [List.append_assoc, LoadedBlock.cells, LoadedBlock.cells, ← List.map_append] at hall
    exact hall
  sites := by
    have hall := h.sites.append h'.sites
    rw [CallSite.cells, CallSite.cells, ← List.map_append] at hall
    exact hall
  mem_noted n := List.mem_append.trans
    ((or_congr (h.mem_noted n) (h'.mem_noted n)).trans List.mem_append.symm)

/-- One branch and then another. -/
theorem beside (h : o.Coherent first) (h' : o'.Coherent first') :
    (o.beside o').Coherent first where
  loaded := (h.append h').loaded
  sites := (h.append h').sites
  mem_noted n :=
    List.mem_append.trans (or_comm.trans (List.mem_append.symm.trans ((h.append h').mem_noted n)))

/-- The code begins with the instruction. -/
theorem mark (h : o.Coherent first) (c : Sexp) : (o.mark c).Coherent [c.cell?] where
  loaded := .cons_cons _ ((List.sublist_append_right _ _).trans h.loaded)
  sites := h.sites.cons _
  mem_noted := h.mem_noted

/-- A call comes after the code. -/
theorem call (h : o.Coherent first) (c : Sexp) (callee : Option Nat) (args : Nat) :
    (o.call c callee args).Coherent first where
  loaded := h.loaded.trans (List.sublist_append_left _ _)
  sites := by
    have hall := h.sites.append (.refl [c.cell?])
    rw [CallSite.cells] at hall ⊢
    simpa [Outline.call] using hall
  mem_noted := h.mem_noted

/-- The code is a block that is loaded. -/
theorem load (h : o.Coherent [block.cell?]) (c : Sexp) :
    (o.load c block).Coherent [c.cell?] where
  loaded := .cons_cons _ h.loaded
  sites := h.sites.cons _
  mem_noted n := by
    rw [show n ∈ (o.load c block).noted ↔ _ from h.mem_noted n]
    simp [Outline.load]

/-- A block that is loaded for an arm is noted. -/
theorem arm (h : (o.load c block).Coherent first) (name : String) :
    (o.arm name c block).Coherent first where
  loaded := h.loaded
  sites := h.sites
  mem_noted n := by
    have hothers : n ∈ o.noted ↔ ⟨n.body, some n.name⟩ ∈ o.loaded := by
      rw [show n ∈ o.noted ↔ _ from h.mem_noted n]
      simp [Outline.load]
    have hfirst : n = ⟨name, block⟩ ↔
        (⟨n.body, some n.name⟩ : LoadedBlock) = ⟨block, some name⟩ := by
      cases n
      simp [and_comm]
    rw [Outline.arm, List.mem_cons, List.mem_cons, hothers, hfirst]

end Coherent

end Outline

namespace Term

open Outline

mutual

/-- The outline of the code of a term is coherent, and the first cell of the code is none of those
of the blocks. -/
theorem Written.coherent {P : Address → Prop} {depth : Nat} {t : Term} {c k : Sexp} {o : Outline} :
    Written P depth t c k o → o.Coherent [c.cell?]
  | .constant _ | .variable _ _ => Coherent.empty.mark c
  | .unary ht _ => ht.coherent
  | .binary ht hu _ => ht.coherent.append hu.coherent
  | .conditional htest _ hyes _ hno _ => htest.coherent.append (hyes.coherent.beside hno.coherent)
  | .lambda _ hbody _ => hbody.coherent.load c
  | .apply _ hargs hf _ => ((hargs.coherent.append hf.coherent).call _ _ _).mark c
  | .letrec _ _ hinits _ _ hbody _ => (hinits.coherent.append (hbody.coherent.load _)).mark c

/-- The same for the code of arguments. -/
theorem WrittenAll.coherent {P : Address → Prop} {depth : Nat} {ts : List Term} {c k : Sexp}
    {o : Outline} : WrittenAll P depth ts c k o → o.Coherent []
  | .nil => .empty
  | .cons hothers hfirst _ => hothers.coherent.append hfirst.coherent

/-- The same for the code of the arms of a `LETREC`. -/
theorem WrittenArms.coherent {P : Address → Prop} {depth : Nat} {names : List String}
    {ts : List Term} {c k : Sexp} {o : Outline} :
    WrittenArms P depth names ts c k o → o.Coherent []
  | .nil _ => .empty
  | .function hothers hfirst _ => hothers.coherent.append (hfirst.coherent.arm _)
  | .other _ hothers hfirst _ => hothers.coherent.append hfirst.coherent

end

end Term

end Secd
