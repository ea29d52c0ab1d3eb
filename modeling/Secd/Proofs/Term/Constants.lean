import Secd.Proofs.Sexp.Atoms
import Secd.Proofs.Term.Resolution
import Secd.Proofs.Term.Written

/-!
# The constants of a program

The atoms of code are the symbols of instructions, numbers in addresses, the ends of lists, and the
atoms of the constants of its term; and these constants are parts of the expression of the program.
So code has no atoms of its own that matter. There is no callable in it if there is none in the
expression: the compiler makes none.
-/

namespace Secd

/-- The property belongs to the atoms that all code has. -/
structure Atom.Coded (P : Atom → Prop) : Prop where
  nil : P .nil
  int (n : Int64) : P (.int n)
  opcode (op : Opcode) : P (.symbol op.mnemonic)

/-- The atoms that all code has are no callables. -/
theorem Atom.coded_plain : Coded Plain := ⟨trivial, fun _ => trivial, fun _ => trivial⟩

namespace Sexp

namespace Hereditary

variable {P : Sexp → Prop} {e : Sexp}

/-- A hereditary property passes on to the items of a list. -/
theorem of_mem_list? (hP : Hereditary P) (he : P e) {list : List Sexp}
    (hlist : e.list? = some list) {item : Sexp} (hitem : item ∈ list) : P item := by
  induction e generalizing list with
  | atom a =>
    obtain ⟨-, rfl⟩ := list?_atom hlist
    cases hitem
  | pair c head tail _ ih =>
    obtain ⟨hhead, htail⟩ := hP c head tail he
    obtain ⟨rest, hrest, rfl⟩ := list?_pair_eq_some hlist
    rcases List.mem_cons.1 hitem with rfl | hitem
    · exact hhead
    · exact ih htail hrest hitem

/-- A hereditary property passes on to the operands of a form. -/
theorem of_phrase_form (hP : Hereditary P) (he : P e) {keyword : Keyword} {operands : List Sexp}
    (h : e.phrase = .form keyword operands) {x : Sexp} (hx : x ∈ operands) : P x := by
  obtain ⟨cell, head, tail, rfl, hlist⟩ := list?_of_phrase_form h
  exact hP.of_mem_list? (hP cell head tail he).2 hlist hx

/-- A hereditary property passes on to the function and the arguments of a call. -/
theorem of_phrase_call (hP : Hereditary P) (he : P e) {function : Sexp} {args : List Sexp}
    (h : e.phrase = .call function args) : P function ∧ ∀ arg ∈ args, P arg := by
  obtain ⟨cell, tail, rfl, hlist⟩ := list?_of_phrase_call h
  obtain ⟨hfunction, htail⟩ := hP cell function tail he
  exact ⟨hfunction, fun arg => hP.of_mem_list? htail hlist⟩

/-- A hereditary property passes on to the names and the expressions of bindings. -/
theorem of_mem_arms? (hP : Hereditary P) (he : P e) {arms : List (String × Sexp)}
    (h : e.arms? = some arms) {name : String} {init : Sexp} (hmem : (name, init) ∈ arms) :
    P (.symbol name) ∧ P init := by
  obtain ⟨list, hlist, harms⟩ := Option.bind_eq_some_iff.1 h
  obtain ⟨arm, harm, hitems⟩ := exists_arm_of_mem harms hmem
  have hall : ∀ item ∈ [.symbol name, init], P item := fun item =>
    hP.of_mem_list? (hP.of_mem_list? he hlist harm) hitems
  exact ⟨hall _ List.mem_cons_self, hall _ (List.mem_cons_of_mem _ List.mem_cons_self)⟩

/-- A hereditary property passes on to the expressions of bindings. -/
theorem of_mem_arms (hP : Hereditary P) (he : P e) {arms : List (String × Sexp)}
    (h : e.arms? = some arms) {init : Sexp} (hinit : init ∈ arms.map Prod.snd) : P init := by
  obtain ⟨_, hmem, rfl⟩ := List.mem_map.1 hinit
  exact (hP.of_mem_arms? he h hmem).2

end Hereditary

/-- All atoms of code have a property if those of the items have it with which it begins, and those
of what comes after them. -/
theorem Begins.allAtoms {P : Atom → Prop} {c k : Sexp} {items : List Sexp} (h : c.Begins items k)
    (hitems : ∀ x ∈ items, x.AllAtoms P) (hk : k.AllAtoms P) : c.AllAtoms P := by
  induction items generalizing c with
  | nil =>
    obtain rfl := h
    exact hk
  | cons item items ih =>
    obtain ⟨cell, tail, rfl, htail⟩ := h
    obtain ⟨hitem, hitems⟩ := List.forall_mem_cons.1 hitems
    exact ⟨hitem, ih htail hitems⟩

/-- The same for an instruction. -/
theorem Begins.allAtoms_instruction {P : Atom → Prop} (hP : Atom.Coded P) {c k : Sexp} {op : Opcode}
    {operands : List Sexp} (h : c.Begins (op.sexp :: operands) k)
    (hoperands : ∀ x ∈ operands, x.AllAtoms P) (hk : k.AllAtoms P) : c.AllAtoms P :=
  h.allAtoms (List.forall_mem_cons.2 ⟨hP.opcode op, hoperands⟩) hk

/-- The same for an instruction without operands. -/
theorem Begins.allAtoms_opcode {P : Atom → Prop} (hP : Atom.Coded P) {c k : Sexp} {op : Opcode}
    (h : c.Begins [op.sexp] k) (hk : k.AllAtoms P) : c.AllAtoms P :=
  h.allAtoms_instruction hP (List.forall_mem_nil _) hk

end Sexp

namespace Term

mutual

/-- The constants of a term. -/
def constants : Term → List Sexp
  | .constant value => [value]
  | .variable _ => []
  | .unary _ t => t.constants
  | .binary _ t u => t.constants ++ u.constants
  | .conditional test yes no => test.constants ++ (yes.constants ++ no.constants)
  | .lambda _ body => body.constants
  | .apply f args => f.constants ++ constantsAll args
  | .letrec _ inits body => constantsAll inits ++ body.constants

/-- The constants of terms. -/
def constantsAll : List Term → List Sexp
  | [] => []
  | t :: ts => t.constants ++ constantsAll ts

end

mutual

/-- A property that passes from an expression to its parts is one of the constants of its term. -/
theorem Resolves.constants {P : Sexp → Prop} (hP : Sexp.Hereditary P) {scopes : Scopes} {e : Sexp}
    {t : Term} : Resolves scopes e t → P e → ∀ x ∈ t.constants, P x
  | .constant hphrase, he => by
    refine List.forall_mem_singleton.2 ?_
    cases e with
    | atom b => cases b <;> cases hphrase <;> exact he
    | pair c head tail =>
      rw [Sexp.phrase] at hphrase
      split at hphrase <;> cases hphrase
  | .variable _ _, _ => List.forall_mem_nil _
  | .quote hphrase, he =>
    List.forall_mem_singleton.2 (hP.of_phrase_form he hphrase List.mem_cons_self)
  | .unary hphrase hx, he => hx.constants hP (hP.of_phrase_form he hphrase (by simp))
  | .leftFirst hphrase _ hx hy, he => by
    have hfirst := hx.constants hP (hP.of_phrase_form he hphrase (by simp))
    have hsecond := hy.constants hP (hP.of_phrase_form he hphrase (by simp))
    exact List.forall_mem_append.2 ⟨hfirst, hsecond⟩
  | .rightFirst hphrase _ hx hy, he => by
    have hfirst := hx.constants hP (hP.of_phrase_form he hphrase (by simp))
    have hsecond := hy.constants hP (hP.of_phrase_form he hphrase (by simp))
    exact List.forall_mem_append.2 ⟨hsecond, hfirst⟩
  | .conditional hphrase htest hyes hno, he => by
    have hfirst := htest.constants hP (hP.of_phrase_form he hphrase (by simp))
    have hsecond := hyes.constants hP (hP.of_phrase_form he hphrase (by simp))
    have hthird := hno.constants hP (hP.of_phrase_form he hphrase (by simp))
    exact List.forall_mem_append.2 ⟨hfirst, List.forall_mem_append.2 ⟨hsecond, hthird⟩⟩
  | .lambda hphrase _ hbody, he => hbody.constants hP (hP.of_phrase_form he hphrase (by simp))
  | .let hphrase harms hinits hbody, he => by
    have hbindings := hP.of_phrase_form he hphrase List.mem_cons_self
    have hinner := hbody.constants hP (hP.of_phrase_form he hphrase (by simp))
    have hvalues := hinits.constants hP fun init => hP.of_mem_arms hbindings harms
    exact List.forall_mem_append.2 ⟨hinner, hvalues⟩
  | .letrec hphrase harms hinits hbody, he => by
    have hbindings := hP.of_phrase_form he hphrase List.mem_cons_self
    have hinner := hbody.constants hP (hP.of_phrase_form he hphrase (by simp))
    have hvalues := hinits.constants hP fun init => hP.of_mem_arms hbindings harms
    exact List.forall_mem_append.2 ⟨hvalues, hinner⟩
  | .call hphrase hfunction hargs, he => by
    obtain ⟨hf, hall⟩ := hP.of_phrase_call he hphrase
    exact List.forall_mem_append.2 ⟨hfunction.constants hP hf, hargs.constants hP hall⟩

/-- The same for the constants of terms. -/
theorem ResolvesAll.constants {P : Sexp → Prop} (hP : Sexp.Hereditary P) {scopes : Scopes}
    {es : List Sexp} {ts : List Term} :
    ResolvesAll scopes es ts → (∀ e ∈ es, P e) → ∀ x ∈ constantsAll ts, P x
  | .nil, _ => List.forall_mem_nil _
  | .cons hfirst hothers, hes => by
    obtain ⟨he, hes⟩ := List.forall_mem_cons.1 hes
    exact List.forall_mem_append.2 ⟨hfirst.constants hP he, hothers.constants hP hes⟩

end

/-- All atoms of the constants of the term have the property. -/
def AllAtoms (P : Atom → Prop) (t : Term) : Prop := ∀ x ∈ t.constants, x.AllAtoms P

/-- All atoms of the constants of a term have a property that all atoms of the expression have. -/
theorem Resolves.allAtoms {P : Atom → Prop} {scopes : Scopes} {e : Sexp} {t : Term}
    (h : Resolves scopes e t) (he : e.AllAtoms P) : t.AllAtoms P :=
  h.constants (Sexp.hereditary_allAtoms P) he

mutual

/-- All atoms of the code of a term have a property that belongs to the atoms of all code, if those
of its constants have it, and those of what comes after it. -/
theorem Written.allAtoms {Q : Atom → Prop} (hQ : Atom.Coded Q) {P : Address → Prop} {depth : Nat}
    {t : Term} {c k : Sexp} {o : Outline} :
    Written P depth t c k o → t.AllAtoms Q → k.AllAtoms Q → c.AllAtoms Q
  | .constant hcode, ht, hk => hcode.allAtoms_instruction hQ ht hk
  | .variable hcode _, _, hk =>
    hcode.allAtoms_instruction hQ (List.forall_mem_singleton.2 ⟨hQ.int _, hQ.int _⟩) hk
  | .unary hwritten hcode, ht, hk => hwritten.allAtoms hQ ht (hcode.allAtoms_opcode hQ hk)
  | .binary hwritten hwritten' hcode, ht, hk => by
    obtain ⟨hearlier, hlater⟩ := List.forall_mem_append.1 ht
    exact hwritten.allAtoms hQ hearlier
      (hwritten'.allAtoms hQ hlater (hcode.allAtoms_opcode hQ hk))
  | .conditional hwritten hcode hyes hyesEnd hno hnoEnd, ht, hk => by
    obtain ⟨htest, hbranches⟩ := List.forall_mem_append.1 ht
    obtain ⟨hyesAtoms, hnoAtoms⟩ := List.forall_mem_append.1 hbranches
    have hyesCode := hyes.allAtoms hQ hyesAtoms (hyesEnd.allAtoms_opcode hQ hQ.nil)
    have hnoCode := hno.allAtoms hQ hnoAtoms (hnoEnd.allAtoms_opcode hQ hQ.nil)
    have hoperands := List.forall_mem_cons.2 ⟨hyesCode, List.forall_mem_singleton.2 hnoCode⟩
    exact hwritten.allAtoms hQ htest (hcode.allAtoms_instruction hQ hoperands hk)
  | .lambda hcode hbody hend, ht, hk => by
    have hblock := hbody.allAtoms hQ ht (hend.allAtoms_opcode hQ hQ.nil)
    exact hcode.allAtoms_instruction hQ (List.forall_mem_singleton.2 hblock) hk
  | .apply hcode hargs hf hap, ht, hk => by
    obtain ⟨hfunction, hall⟩ := List.forall_mem_append.1 ht
    have hcall := hf.allAtoms hQ hfunction (hap.allAtoms_opcode hQ hk)
    exact hcode.allAtoms_instruction hQ (List.forall_mem_singleton.2 hQ.nil)
      (hargs.allAtoms hQ hall hcall)
  | .letrec hdum hnil hinits hldf hrap hbody hend, ht, hk => by
    obtain ⟨hall, hinner⟩ := List.forall_mem_append.1 ht
    have hblock := hbody.allAtoms hQ hinner (hend.allAtoms_opcode hQ hQ.nil)
    have hcall := hldf.allAtoms_instruction hQ (List.forall_mem_singleton.2 hblock)
      (hrap.allAtoms_opcode hQ hk)
    have hlist := hnil.allAtoms_instruction hQ (List.forall_mem_singleton.2 hQ.nil)
      (hinits.allAtoms hQ hall hcall)
    exact hdum.allAtoms_opcode hQ hlist

/-- The same for the code of arguments. -/
theorem WrittenAll.allAtoms {Q : Atom → Prop} (hQ : Atom.Coded Q) {P : Address → Prop}
    {depth : Nat} {ts : List Term} {c k : Sexp} {o : Outline} : WrittenAll P depth ts c k o →
      (∀ x ∈ constantsAll ts, x.AllAtoms Q) → k.AllAtoms Q → c.AllAtoms Q
  | .nil, _, hk => hk
  | .cons hothers hfirst hcode, hts, hk => by
    obtain ⟨ht, hts⟩ := List.forall_mem_append.1 hts
    exact hothers.allAtoms hQ hts (hfirst.allAtoms hQ ht (hcode.allAtoms_opcode hQ hk))

/-- The same for the code of the arms of a `LETREC`. -/
theorem WrittenArms.allAtoms {Q : Atom → Prop} (hQ : Atom.Coded Q) {P : Address → Prop}
    {depth : Nat} {names : List String} {ts : List Term} {c k : Sexp} {o : Outline} :
    WrittenArms P depth names ts c k o →
      (∀ x ∈ constantsAll ts, x.AllAtoms Q) → k.AllAtoms Q → c.AllAtoms Q
  | .nil _, _, hk => hk
  | .function hothers hfirst hcode, hts, hk => by
    obtain ⟨ht, hts⟩ := List.forall_mem_append.1 hts
    exact hothers.allAtoms hQ hts (hfirst.allAtoms hQ ht (hcode.allAtoms_opcode hQ hk))
  | .other _ hothers hfirst hcode, hts, hk => by
    obtain ⟨ht, hts⟩ := List.forall_mem_append.1 hts
    exact hothers.allAtoms hQ hts (hfirst.allAtoms hQ ht (hcode.allAtoms_opcode hQ hk))

end

end Term

end Secd
