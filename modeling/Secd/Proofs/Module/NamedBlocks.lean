import Secd.Proofs.Module.Assembled
import Secd.Proofs.Sexp.Functions
import Secd.Proofs.Term.Nameless

/-!
# The named blocks of a program

The compiler notes a block for each function that an arm of a `LETREC` binds, right after it has
written the code of the arm. The relation `CompilesTo` follows an expression and its code at once
and lists these functions with the blocks that the code of their arms loads, in the order in which
they are noted. So the named blocks of a module are one for each of these arms: if no cell occurs
twice in the expression, no arm is listed twice. And each of the blocks, looked up by its cell, has
the name of its arm, even if other arms have the same name or the same code.
-/

namespace Secd

namespace Sexp

mutual

/-- The code `c` has been written for the expression in front of the code `k`. The procedures are
the functions that arms of a `LETREC` in the expression bind, with the blocks that their code
loads. -/
inductive CompilesTo : Sexp → (c k : Sexp) → List Procedure → Prop where
  | constant {e c k : Sexp} {a : Atom} (hphrase : e.phrase = .constant a)
      (hcode : c.Begins [Opcode.ldc.sexp, .atom a] k) : CompilesTo e c k []
  | variable {e c k address : Sexp} {name : String} (hphrase : e.phrase = .variable name)
      (hcode : c.Begins [Opcode.ld.sexp, address] k) : CompilesTo e c k []
  | quote {e x c k : Sexp} (hphrase : e.phrase = .form .quote [x])
      (hcode : c.Begins [Opcode.ldc.sexp, x] k) : CompilesTo e c k []
  | unary {e x c d k : Sexp} {op : Unary} {ps : List Procedure}
      (hphrase : e.phrase = .form (.unary op) [x]) (hx : CompilesTo x c d ps)
      (hcode : d.Begins [(Opcode.unary op).sexp] k) : CompilesTo e c k ps
  | leftFirst {e x y c d g k : Sexp} {op : Binary} {ps qs : List Procedure}
      (hphrase : e.phrase = .form (.binary op) [x, y]) (hx : CompilesTo x c d ps)
      (hy : CompilesTo y d g qs) (hcode : g.Begins [(Opcode.binary op).sexp] k) :
      CompilesTo e c k (qs ++ ps)
  | rightFirst {e x y c d g k : Sexp} {op : Binary} {ps qs : List Procedure}
      (hphrase : e.phrase = .form (.binary op) [x, y]) (hy : CompilesTo y c d qs)
      (hx : CompilesTo x d g ps) (hcode : g.Begins [(Opcode.binary op).sexp] k) :
      CompilesTo e c k (ps ++ qs)
  | conditional {e test yes no c d k yesCode noCode yesEnd noEnd : Sexp}
      {ps yesPs noPs : List Procedure} (hphrase : e.phrase = .form .if [test, yes, no])
      (htest : CompilesTo test c d ps) (hcode : d.Begins [Opcode.sel.sexp, yesCode, noCode] k)
      (hyes : CompilesTo yes yesCode yesEnd yesPs)
      (hyesEnd : yesEnd.Begins [Opcode.join.sexp] .nil)
      (hno : CompilesTo no noCode noEnd noPs) (hnoEnd : noEnd.Begins [Opcode.join.sexp] .nil) :
      CompilesTo e c k (yesPs ++ (noPs ++ ps))
  | lambda {e params body c k block blockEnd : Sexp} {ps : List Procedure}
      (hphrase : e.phrase = .form .lambda [params, body])
      (hcode : c.Begins [Opcode.ldf.sexp, block] k) (hbody : CompilesTo body block blockEnd ps)
      (hend : blockEnd.Begins [Opcode.rtn.sexp] .nil) : CompilesTo e c k ps
  | let {e bindings body c d g h k block blockEnd : Sexp} {arms : List (String × Sexp)}
      {ps qs : List Procedure} (hphrase : e.phrase = .form .let [bindings, body])
      (harms : bindings.arms? = some arms) (hcode : c.Begins [Opcode.ldc.sexp, .nil] d)
      (hinits : CompilesAllTo (arms.map Prod.snd) d g qs)
      (hldf : g.Begins [Opcode.ldf.sexp, block] h) (hap : h.Begins [Opcode.ap.sexp] k)
      (hbody : CompilesTo body block blockEnd ps)
      (hend : blockEnd.Begins [Opcode.rtn.sexp] .nil) : CompilesTo e c k (ps ++ qs)
  | letrec {e bindings body c d g h k block blockEnd : Sexp} {arms : List (String × Sexp)}
      {ps qs : List Procedure} (hphrase : e.phrase = .form .letrec [bindings, body])
      (harms : bindings.arms? = some arms)
      (hcode : c.Begins [Opcode.dum.sexp, Opcode.ldc.sexp, .nil] d)
      (hinits : CompilesArmsTo arms d g qs) (hldf : g.Begins [Opcode.ldf.sexp, block] h)
      (hrap : h.Begins [Opcode.rap.sexp] k) (hbody : CompilesTo body block blockEnd ps)
      (hend : blockEnd.Begins [Opcode.rtn.sexp] .nil) : CompilesTo e c k (ps ++ qs)
  | call {e function c d g h k : Sexp} {args : List Sexp} {ps qs : List Procedure}
      (hphrase : e.phrase = .call function args) (hcode : c.Begins [Opcode.ldc.sexp, .nil] d)
      (hargs : CompilesAllTo args d g qs) (hfunction : CompilesTo function g h ps)
      (hap : h.Begins [Opcode.ap.sexp] k) : CompilesTo e c k (ps ++ qs)

/-- The same for the code of arguments, the last one first. -/
inductive CompilesAllTo : List Sexp → (c k : Sexp) → List Procedure → Prop where
  | nil {k : Sexp} : CompilesAllTo [] k k []
  | cons {e c d g k : Sexp} {es : List Sexp} {ps qs : List Procedure}
      (hothers : CompilesAllTo es c d qs) (hfirst : CompilesTo e d g ps)
      (hcode : g.Begins [(Opcode.binary .cons).sexp] k) : CompilesAllTo (e :: es) c k (ps ++ qs)

/-- The same for the code of the arms of a `LETREC`, the last one first. The code of an arm that is
a function begins with the `LDF` of the block that is listed for it. -/
inductive CompilesArmsTo : List (String × Sexp) → (c k : Sexp) → List Procedure → Prop where
  | nil {k : Sexp} : CompilesArmsTo [] k k []
  | function {function block c d g k : Sexp} {name : String} {arms : List (String × Sexp)}
      {operands : List Sexp} {ps qs : List Procedure}
      (hphrase : function.phrase = .form .lambda operands) (hothers : CompilesArmsTo arms c d qs)
      (hfirst : CompilesTo function d g ps) (hldf : d.Begins [Opcode.ldf.sexp, block] g)
      (hcode : g.Begins [(Opcode.binary .cons).sexp] k) :
      CompilesArmsTo ((name, function) :: arms) c k (ps ++ ⟨name, function, block⟩ :: qs)
  | other {init c d g k : Sexp} {name : String} {arms : List (String × Sexp)}
      {ps qs : List Procedure} (hphrase : ∀ operands, init.phrase ≠ .form .lambda operands)
      (hothers : CompilesArmsTo arms c d qs) (hfirst : CompilesTo init d g ps)
      (hcode : g.Begins [(Opcode.binary .cons).sexp] k) :
      CompilesArmsTo ((name, init) :: arms) c k (ps ++ qs)

end

/-! ### The functions that are listed -/

mutual

/-- The procedures are those that the arms in the expression bind. -/
theorem CompilesTo.lists {e c k : Sexp} {ps : List Procedure} :
    CompilesTo e c k ps → Lists [e] ps
  | .constant hphrase _ | .variable hphrase _ | .quote hphrase _ =>
    .of_parts (by simp [hphrase]) (by simpa [parts, hphrase] using lists_nil)
  | .unary hphrase hx _ => .of_parts (by simp [hphrase]) (by simpa [parts, hphrase] using hx.lists)
  | .leftFirst hphrase hx hy _ =>
    .of_parts (by simp [hphrase]) (by
      simpa [parts, hphrase] using (hx.lists.append hy.lists).perm List.perm_append_comm)
  | .rightFirst hphrase hy hx _ =>
    .of_parts (by simp [hphrase]) (by simpa [parts, hphrase] using hx.lists.append hy.lists)
  | .conditional hphrase htest _ hyes _ hno _ => by
    have hall := htest.lists.append (hyes.lists.append hno.lists)
    have hperm := hall.perm List.perm_append_comm
    rw [List.append_assoc] at hperm
    exact .of_parts (by simp [hphrase]) (by simpa [parts, hphrase] using hperm)
  | .lambda hphrase _ hbody _ =>
    .of_parts (by simp [hphrase]) (by simpa [parts, hphrase] using hbody.lists)
  | .let hphrase harms _ hinits _ _ hbody _ =>
    .of_parts (by simp [hphrase]) (by
      simpa [parts, hphrase, harms] using hbody.lists.append hinits.lists)
  | .letrec hphrase harms _ hinits _ _ hbody _ => hbody.lists.letrec hphrase harms hinits.lists
  | .call hphrase _ hargs hfunction _ =>
    .of_parts (by simp [hphrase]) (by
      simpa [parts, hphrase] using hfunction.lists.append hargs.lists)

/-- The same for several expressions. -/
theorem CompilesAllTo.lists {es : List Sexp} {c k : Sexp} {ps : List Procedure} :
    CompilesAllTo es c k ps → Lists es ps
  | .nil => lists_nil
  | .cons hothers hfirst _ => hfirst.lists.append hothers.lists

/-- The same for arms of a `LETREC`. -/
theorem CompilesArmsTo.lists {arms : List (String × Sexp)} {c k : Sexp} {ps : List Procedure} :
    CompilesArmsTo arms c k ps → ListsArms arms ps
  | .nil => listsArms_nil
  | .function hphrase hothers hfirst _ _ => .function hphrase hfirst.lists hothers.lists
  | .other hphrase hothers hfirst _ => .other hphrase hfirst.lists hothers.lists

end

/-! ### The names that are listed -/

/-- A hereditary property passes on to the parts of an expression. -/
theorem Hereditary.of_mem_parts {P : Sexp → Prop} (hP : Hereditary P) {e x : Sexp} (he : P e)
    (hx : x ∈ e.parts) : P x := by
  have hform {keyword : Keyword} {operands : List Sexp}
      (h : e.phrase = .form keyword operands) : ∀ y ∈ operands, P y :=
    fun y => hP.of_phrase_form he h
  have hbindings {bindings body : Sexp} {keyword : Keyword}
      (h : e.phrase = .form keyword [bindings, body])
      (hx : x ∈ body :: (bindings.arms?.getD []).map Prod.snd) : P x := by
    rcases List.mem_cons.1 hx with rfl | hx
    · exact hform h _ (List.mem_cons_of_mem _ List.mem_cons_self)
    · cases harms : bindings.arms? with
      | none =>
        rw [harms] at hx
        cases hx
      | some arms =>
        rw [harms] at hx
        exact hP.of_mem_arms (hform h bindings List.mem_cons_self) harms hx
  rw [parts] at hx
  split at hx
  · next hphrase => exact hform hphrase x hx
  · next hphrase => exact hform hphrase x hx
  · next hphrase => exact hform hphrase x hx
  · next hphrase =>
    obtain rfl := List.mem_singleton.1 hx
    exact hform hphrase _ (List.mem_cons_of_mem _ List.mem_cons_self)
  · next hphrase => exact hbindings hphrase hx
  · next hphrase => exact hbindings hphrase hx
  · next hphrase =>
    obtain ⟨hfunction, hargs⟩ := hP.of_phrase_call he hphrase
    exact List.forall_mem_cons.2 ⟨hfunction, hargs⟩ x hx
  · cases hx

/-- A hereditary property passes on to the names of functions that arms bind. -/
theorem BindsFunction.hereditary {P : Sexp → Prop} (hP : Hereditary P) {e function : Sexp}
    {name : String} (h : e.BindsFunction name function) (he : P e) : P (.symbol name) := by
  induction h with
  | arm hphrase harms harm _ =>
    exact (hP.of_mem_arms? (hP.of_phrase_form he hphrase List.mem_cons_self) harms harm).1
  | part hx _ ih => exact ih (hP.of_mem_parts he hx)

end Sexp

/-! ### The blocks that are noted -/

/-- What the compiler notes about a procedure. -/
def Sexp.Procedure.entry (p : Sexp.Procedure) : NamedBlock := ⟨p.name, p.block⟩

open Sexp

namespace Term

/-- The blocks that have been noted in the code of the outline are those of the procedures. -/
def Notes (o : Outline) (ps : List Procedure) : Prop :=
  o.noted.reverse = ps.map Procedure.entry

/-- Code is written after the code behind it. -/
theorem Notes.before {o u : Outline} {ps qs : List Procedure} (h : Notes u ps) (h' : Notes o qs) :
    Notes (o ++ u) (ps ++ qs) := by
  rw [Notes, List.map_append, ← h, ← h', ← List.reverse_append]
  rfl

/-- The same for branches. -/
theorem Notes.beside {o u : Outline} {ps qs : List Procedure} (h : Notes o ps) (h' : Notes u qs) :
    Notes (o.beside u) (ps ++ qs) := by
  rw [Notes, List.map_append, ← h, ← h', ← List.reverse_append]
  rfl

/-- The block of the function of an arm is noted after the functions in it. -/
theorem Notes.arm {o : Outline} {c block : Sexp} {ps : List Procedure}
    (h : Notes (o.load c block) ps) (name : String) (function : Sexp) :
    Notes (o.arm name c block) (ps ++ [⟨name, function, block⟩]) := by
  rw [Notes, List.map_append, ← h]
  exact List.reverse_cons

mutual

/-- The code of the term of an expression is code of the expression, and its procedures have been
noted. -/
theorem Resolves.exists_compilesTo {P : Address → Prop} {scopes : Scopes} {e : Sexp} {t : Term} :
    Resolves scopes e t → ∀ {depth : Nat} {c k : Sexp} {o : Outline}, Written P depth t c k o →
      ∃ ps, e.CompilesTo c k ps ∧ Notes o ps
  | .constant hphrase, _, _, _, _, hwritten => by
    cases hwritten with
    | constant hcode => exact ⟨[], .constant hphrase hcode, rfl⟩
  | .variable hphrase _, _, _, _, _, hwritten => by
    cases hwritten with
    | «variable» hcode _ => exact ⟨[], .variable hphrase hcode, rfl⟩
  | .quote hphrase, _, _, _, _, hwritten => by
    cases hwritten with
    | constant hcode => exact ⟨[], .quote hphrase hcode, rfl⟩
  | .unary hphrase hx, _, _, _, _, hwritten => by
    cases hwritten with
    | unary hoperand hcode =>
      obtain ⟨ps, hcompiles, hnotes⟩ := hx.exists_compilesTo hoperand
      exact ⟨ps, .unary hphrase hcompiles hcode, hnotes⟩
  | .leftFirst hphrase _ hx hy, _, _, _, _, hwritten => by
    cases hwritten with
    | binary hearlier hlater hcode =>
      obtain ⟨ps, hcompiles, hnotes⟩ := hx.exists_compilesTo hearlier
      obtain ⟨qs, hcompiles', hnotes'⟩ := hy.exists_compilesTo hlater
      exact ⟨qs ++ ps, .leftFirst hphrase hcompiles hcompiles' hcode, hnotes'.before hnotes⟩
  | .rightFirst hphrase _ hx hy, _, _, _, _, hwritten => by
    cases hwritten with
    | binary hearlier hlater hcode =>
      obtain ⟨qs, hcompiles', hnotes'⟩ := hy.exists_compilesTo hearlier
      obtain ⟨ps, hcompiles, hnotes⟩ := hx.exists_compilesTo hlater
      exact ⟨ps ++ qs, .rightFirst hphrase hcompiles' hcompiles hcode, hnotes.before hnotes'⟩
  | .conditional hphrase htest hyes hno, _, _, _, _, hwritten => by
    cases hwritten with
    | conditional htestWritten hcode hyesWritten hyesEnd hnoWritten hnoEnd =>
      obtain ⟨ps, htestCode, hnotes⟩ := htest.exists_compilesTo htestWritten
      obtain ⟨yesPs, hyesCode, hyesNotes⟩ := hyes.exists_compilesTo hyesWritten
      obtain ⟨noPs, hnoCode, hnoNotes⟩ := hno.exists_compilesTo hnoWritten
      have hall := (hyesNotes.beside hnoNotes).before hnotes
      rw [List.append_assoc] at hall
      exact ⟨yesPs ++ (noPs ++ ps),
        .conditional hphrase htestCode hcode hyesCode hyesEnd hnoCode hnoEnd, hall⟩
  | .lambda hphrase _ hbody, _, _, _, _, hwritten => by
    cases hwritten with
    | lambda hcode hblock hend =>
      obtain ⟨ps, hcompiles, hnotes⟩ := hbody.exists_compilesTo hblock
      exact ⟨ps, .lambda hphrase hcode hcompiles hend, hnotes⟩
  | .let hphrase harms hinits hbody, _, _, _, _, hwritten => by
    cases hwritten with
    | apply hcode hargs hfunction hap =>
      cases hfunction with
      | lambda hldf hblock hend =>
        obtain ⟨qs, hcompiles', hnotes'⟩ := hinits.exists_compilesAllTo hargs
        obtain ⟨ps, hcompiles, hnotes⟩ := hbody.exists_compilesTo hblock
        exact ⟨ps ++ qs, .let hphrase harms hcode hcompiles' hldf hap hcompiles hend,
          Notes.before hnotes hnotes'⟩
  | .letrec hphrase harms hinits hbody, _, _, _, _, hwritten => by
    cases hwritten with
    | letrec hdum hnil hargs hldf hrap hblock hend =>
      obtain ⟨qs, hcompiles', hnotes'⟩ := hinits.exists_compilesArmsTo rfl hargs
      obtain ⟨ps, hcompiles, hnotes⟩ := hbody.exists_compilesTo hblock
      exact ⟨ps ++ qs, .letrec hphrase harms (hdum.cons hnil) hcompiles' hldf hrap hcompiles hend,
        Notes.before hnotes hnotes'⟩
  | .call hphrase hfunction hargs, _, _, _, _, hwritten => by
    cases hwritten with
    | apply hcode hlist hf hap =>
      obtain ⟨qs, hcompiles', hnotes'⟩ := hargs.exists_compilesAllTo hlist
      obtain ⟨ps, hcompiles, hnotes⟩ := hfunction.exists_compilesTo hf
      exact ⟨ps ++ qs, .call hphrase hcode hcompiles' hcompiles hap, hnotes.before hnotes'⟩

/-- The same for arguments. -/
theorem ResolvesAll.exists_compilesAllTo {P : Address → Prop} {scopes : Scopes} {es : List Sexp}
    {ts : List Term} : ResolvesAll scopes es ts → ∀ {depth : Nat} {c k : Sexp} {o : Outline},
      WrittenAll P depth ts c k o → ∃ ps, CompilesAllTo es c k ps ∧ Notes o ps
  | .nil, _, _, _, _, hwritten => by
    cases hwritten
    exact ⟨[], .nil, rfl⟩
  | .cons hfirst hothers, _, _, _, _, hwritten => by
    cases hwritten with
    | cons hrest hwritten hcode =>
      obtain ⟨ps, hcompiles, hnotes⟩ := hfirst.exists_compilesTo hwritten
      obtain ⟨qs, hcompiles', hnotes'⟩ := hothers.exists_compilesAllTo hrest
      exact ⟨ps ++ qs, .cons hcompiles' hcompiles hcode, hnotes.before hnotes'⟩

/-- The same for the arms of a `LETREC`. -/
theorem ResolvesAll.exists_compilesArmsTo {P : Address → Prop} {scopes : Scopes} {es : List Sexp}
    {ts : List Term} {arms : List (String × Sexp)} (harms : arms.map Prod.snd = es) :
    ResolvesAll scopes es ts → ∀ {depth : Nat} {c k : Sexp} {o : Outline},
      WrittenArms P depth (arms.map Prod.fst) ts c k o → ∃ ps, CompilesArmsTo arms c k ps ∧
        Notes o ps
  | .nil, _, _, _, _, hwritten => by
    obtain rfl := List.map_eq_nil_iff.1 harms
    cases hwritten
    exact ⟨[], .nil, rfl⟩
  | .cons hfirst hothers, _, _, _, _, hwritten => by
    obtain ⟨⟨name, init⟩, others, rfl, rfl, hnext⟩ := List.map_eq_cons_iff.1 harms
    cases hwritten with
    | nil hnone => simp at hnone
    | function hrest hwritten hcode =>
      obtain ⟨operands, hphrase⟩ := hfirst.isLambda_iff.1 ⟨_, _, rfl⟩
      obtain ⟨ps, hcompiles, hnotes⟩ := hfirst.exists_compilesTo hwritten
      obtain ⟨qs, hcompiles', hnotes'⟩ := hothers.exists_compilesArmsTo hnext hrest
      have hall := (hnotes.arm name init).before hnotes'
      rw [List.append_assoc, List.singleton_append] at hall
      exact ⟨ps ++ ⟨name, init, _⟩ :: qs,
        .function hphrase hcompiles' hcompiles hwritten.begins_of_load hcode, hall⟩
    | other hother hrest hwritten hcode =>
      obtain ⟨ps, hcompiles, hnotes⟩ := hfirst.exists_compilesTo hwritten
      obtain ⟨qs, hcompiles', hnotes'⟩ := hothers.exists_compilesArmsTo hnext hrest
      refine ⟨ps ++ qs, .other (fun operands h => ?_) hcompiles' hcompiles hcode,
        hnotes.before hnotes'⟩
      obtain ⟨params, body, heq⟩ := hfirst.isLambda_iff.2 ⟨operands, h⟩
      exact hother params body heq

end

end Term

namespace Module

variable {e : Sexp} {map : SourceMap} {shape : Shape} {prelude : Option Prelude} {s s' : Store}
  {m : Module}

/-- What a program is compiled to is code of its expression, and the named blocks are those of the
procedures. -/
theorem exists_compilesTo_of_compile (h : compile e map shape prelude s = (.ok m, s')) :
    ∃ ps ending, e.CompilesTo m.code ending ps ∧ ending.Begins (lastInstructions shape) .nil ∧
      m.named = ps.map Procedure.entry := by
  obtain ⟨t, ending, o, hresolves, hshape, hproduced⟩ := exists_produced_of_compile h
  obtain ⟨ps, hcompiles, hnotes⟩ := hresolves.exists_compilesTo hproduced.written
  exact ⟨ps, ending, hcompiles, hshape ▸ hproduced.ends, hproduced.named.trans hnotes⟩

/-- The named blocks have names of arms in the expression. -/
theorem exists_bindsFunction_of_mem_named (h : compile e map shape prelude s = (.ok m, s')) :
    ∀ n ∈ m.named, ∃ function, e.BindsFunction n.name function := by
  obtain ⟨ps, ending, hcompiles, -, hnamed⟩ := exists_compilesTo_of_compile h
  intro n hn
  rw [hnamed] at hn
  obtain ⟨p, hp, rfl⟩ := List.mem_map.1 hn
  obtain ⟨_, he, hbinds⟩ := (hcompiles.lists.binds_iff p.name p.function).2 ⟨p, hp, rfl, rfl⟩
  obtain rfl := List.mem_singleton.1 he
  exact ⟨_, hbinds⟩

/-- The named blocks of a program in which no cell occurs twice are those of the functions that arms
of a `LETREC` bind, at any depth in what is compiled: one for each of these arms, under the name of
the arm, and in the very cell that the `LDF` of the arm has for its operand. The name of the block
in this cell is that of the arm. -/
theorem named_of_compile (htree : e.cells.Nodup)
    (hcompile : compile e map shape prelude s = (.ok m, s')) :
    ∃ ps ending, e.CompilesTo m.code ending ps ∧ ending.Begins (lastInstructions shape) .nil ∧
      m.named = ps.map Procedure.entry ∧
      (∀ name function, e.BindsFunction name function ↔
        ∃ p ∈ ps, p.name = name ∧ p.function = function) ∧
      (ps.map fun p => p.function.cell?).Nodup ∧
      ∀ p ∈ ps, m.closureName? p.block = some p.name := by
  obtain ⟨ps, ending, hcompiles, hends, hnamed⟩ := exists_compilesTo_of_compile hcompile
  obtain ⟨t, blocks, -, -, hassembled⟩ := exists_assembled_of_compile hcompile
  have hlists := hcompiles.lists
  refine ⟨ps, ending, hcompiles, hends, hnamed, fun name function => ?_, ?_, fun p hp => ?_⟩
  · rw [← hlists.binds_iff]
    simp
  · have hcells : (ps.map fun p => p.function.cell?).Subperm (e.cells.map some) := by
      refine hlists.cells.trans ?_
      simpa using ((innerCells_sublist e).map some).subperm
    obtain ⟨cells, hperm, hsub⟩ := hcells
    have hnodup := htree.map (f := some) fun _ _ => Option.some.inj
    exact hperm.nodup_iff.1 (hnodup.sublist hsub)
  · have hentry : p.entry ∈ m.named := hnamed ▸ List.mem_map_of_mem hp
    exact hassembled.closureName?_eq ((hassembled.mem_named p.entry).1 hentry)

/-- A program in which one name is that of two functions, and one code is that of two. -/
def reused : String :=
  "(LETREC ((F (LAMBDA (X) (LETREC ((F (LAMBDA (Y) Y))) (F X)))) (G (LAMBDA (Y) Y))) (F (G 1)))"

/-- The program has three named blocks, each with the name of its own arm. -/
theorem named_of_compile_reused : ∃ r s₁ s₂ m, ∃ ps : List Procedure,
    Reader.readOne reused .empty = (.ok r, s₁) ∧ r.expression.cells.Nodup ∧
      compile r.expression r.map .expression none s₁ = (.ok m, s₂) ∧
      m.named = ps.map Procedure.entry ∧ (ps.map fun p => p.function.cell?).Nodup ∧
      ps.map (fun p => m.closureName? p.block) = [some "F", some "F", some "G"] := by
  have hfacts : (ofText? reused).map (fun m => m.named.map NamedBlock.name) =
      some ["F", "F", "G"] := by decide +kernel
  have htree : (Reader.readOne reused .empty).1.toOption.any
      (fun r => decide r.expression.cells.Nodup) = true := by decide +kernel
  obtain ⟨m, hm, hnames⟩ := Option.map_eq_some_iff.1 hfacts
  obtain ⟨r, s₁, s₂, hread, hcompile⟩ := exists_of_ofText? hm
  rw [hread] at htree
  have hnodup : r.expression.cells.Nodup := of_decide_eq_true htree
  obtain ⟨ps, -, -, -, hnamed, -, hcells, hlabels⟩ := named_of_compile hnodup hcompile
  refine ⟨r, s₁, s₂, m, ps, hread, hnodup, hcompile, hnamed, hcells, ?_⟩
  have hall : ps.map (fun p => m.closureName? p.block) = (ps.map Procedure.name).map some := by
    rw [List.map_map]
    exact List.map_congr_left hlabels
  rw [hnamed, List.map_map] at hnames
  exact hall.trans (congrArg (List.map some) hnames)

end Module

end Secd
