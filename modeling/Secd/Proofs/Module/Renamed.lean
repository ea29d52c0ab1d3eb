import Secd.Proofs.Module.Accepted
import Secd.Proofs.Term.Nameless

/-!
# Renamed programs

What the compiler makes of a program does not depend on the names of the bound variables. If they
are renamed, whatever the cells and the spans of the new expression are, the program is compiled to
the same code, and the functions of `LETREC` are noted with the same blocks, in the same order,
under their new names.
-/

namespace Secd

open Sexp Term

namespace Module

variable {e e' : Sexp} {map : SourceMap} {shape : Shape} {prelude : Option Prelude}
  {m m' : Module} {s s' u u' : Store} {functions : List (String × String)}

/-- Terms with the same code have modules with the same code, and with the same blocks for their
functions. -/
theorem noted_ofTerm {t t' : Term} {usesPrelude : Bool} (h : SameCode functions t t')
    (hm : ofTerm t shape usesPrelude s = (m, s')) (hm' : ofTerm t' shape usesPrelude u = (m', u')) :
    m.code.same m'.code = true ∧ m.shape = m'.shape ∧ m.usesPrelude = m'.usesPrelude ∧
      Noted functions m.named m'.named := by
  obtain ⟨hshape, husesPrelude, ending, o, hproduced⟩ :=
    exists_produced_ofTerm (P := fun _ => True) hm (fun _ _ => trivial) 0
  obtain ⟨hshape', husesPrelude', ending', o', hproduced'⟩ :=
    exists_produced_ofTerm (P := fun _ => True) hm' (fun _ _ => trivial) 0
  have hends := hproduced.ends
  have hends' := hproduced'.ends
  rw [hshape] at hends
  rw [hshape'] at hends'
  -- all programs of one shape end in the same way
  have hlast : ending.same ending' = true :=
    hends.same hends' (List.forall₂_same.2 fun x _ => x.same_refl) rfl
  obtain ⟨hcode, hnoted⟩ := h hproduced.written hproduced'.written hlast
  rw [← hproduced.named, ← hproduced'.named] at hnoted
  exact ⟨hcode, hshape.trans hshape'.symm, husesPrelude.trans husesPrelude'.symm, hnoted⟩

/-- A program whose bound variables are renamed is compiled if the program itself is, to the same
code. The functions that `LETREC` binds are noted in the same order, with the same blocks, under
their new names. -/
theorem sameCode_of_renames (h : Renames [] e e' functions)
    (hcompile : compile e map shape prelude s = (.ok m, s')) (map' : SourceMap) (u : Store) :
    ∃ m' u', compile e' map' shape prelude u = (.ok m', u') ∧ m.code.same m'.code = true ∧
      m'.shape = m.shape ∧ m'.usesPrelude = m.usesPrelude ∧
      m.named.map NamedBlock.name = functions.map Prod.fst ∧
      m'.named.map NamedBlock.name = functions.map Prod.snd ∧
      List.Forall₂ (fun n n' => n.body.same n'.body = true) m.named m'.named := by
  have he : e.WellFormed prelude (Prelude.scopes prelude) :=
    exists_compile_iff_wellFormed.1 ⟨m, s', hcompile⟩
  obtain ⟨m', u', hcompile'⟩ : ∃ m' u', compile e' map' shape prelude u = (.ok m', u') :=
    exists_compile_iff_wellFormed.2 (h.wellFormed Renaming.binds_nil he)
  obtain ⟨t, t', ht, ht', hcode⟩ := h.exists_sameCode Renaming.binds_nil he
  -- the terms are those of the two modules
  obtain ⟨v, hv, hm⟩ := exists_ofTerm_of_compile hcompile
  obtain ⟨v', hv', hm'⟩ := exists_ofTerm_of_compile hcompile'
  obtain rfl := hv.unique ht
  obtain rfl := hv'.unique ht'
  obtain ⟨hsame, hshape, husesPrelude, hnoted⟩ := noted_ofTerm hcode hm hm'
  exact ⟨m', u', hcompile', hsame, hshape.symm, husesPrelude.symm, hnoted.old, hnoted.new,
    hnoted.bodies⟩

/-- The list of the given expressions, all in one cell. -/
def listOf : List Sexp → Sexp
  | [] => .nil
  | e :: es => .pair 0 e (listOf es)

/-- The body of a function: a local variable is one less than the parameter, and unless it is zero
the function is called again. The quoted name is that of no variable. -/
def countdownBody (function param binder : String) : Sexp :=
  listOf [.symbol "LET",
    listOf [listOf [.symbol binder, listOf [.symbol "SUB", .symbol param, .int 1]]],
    listOf [.symbol "IF", .symbol binder, listOf [.symbol function, .symbol binder],
      listOf [.symbol "QUOTE", .symbol "N"]]]

/-- A program that binds the function by `LETREC` and calls it. -/
def countdown (function param binder : String) : Sexp :=
  listOf [.symbol "LETREC",
    listOf [listOf [.symbol function, listOf [.symbol "LAMBDA", listOf [.symbol param],
      countdownBody function param binder]]],
    listOf [.symbol function, .int 3]]

/-- In the body of the function the local variable can have the new name of the parameter, to which
there is no reference where the variable is bound. -/
theorem renames_countdownBody : Renames [[("N", "K")], [("F", "LOOP")]]
    (countdownBody "F" "N" "M") (countdownBody "LOOP" "K" "K") [] := by
  have hN : Renaming.Refers [[("N", "K")], [("F", "LOOP")]] "N" "K" := .here (by simp)
  have hM : Renaming.Refers [[("M", "K")], [("N", "K")], [("F", "LOOP")]] "M" "K" :=
    .here (by simp)
  have hF : Renaming.Refers [[("M", "K")], [("N", "K")], [("F", "LOOP")]] "F" "LOOP" :=
    .outer (by simp) (by simp) (.outer (by simp) (by simp) (.here (by simp)))
  have hsub : Renames [[("N", "K")], [("F", "LOOP")]]
      (listOf [.symbol "SUB", .symbol "N", .int 1]) (listOf [.symbol "SUB", .symbol "K", .int 1])
      [] :=
    .leftFirst rfl rfl rfl (.variable hN) (.constant rfl)
  have hcall : Renames [[("M", "K")], [("N", "K")], [("F", "LOOP")]]
      (listOf [.symbol "F", .symbol "M"]) (listOf [.symbol "LOOP", .symbol "K"]) [] :=
    .call rfl rfl (.variable hF) (.cons (.variable hM) .nil)
  exact .let rfl rfl rfl rfl rfl rfl ⟨by simp, by decide⟩ (.cons hsub .nil)
    (.conditional rfl rfl (.variable hM) hcall (.quote rfl rfl rfl))

/-- The function and its parameter can be renamed, too. -/
theorem renames_countdown :
    Renames [] (countdown "F" "N" "M") (countdown "LOOP" "K" "K") [("F", "LOOP")] := by
  have hF : Renaming.Refers [[("F", "LOOP")]] "F" "LOOP" := .here (by simp)
  have hlambda : Renames [[("F", "LOOP")]]
      (listOf [.symbol "LAMBDA", listOf [.symbol "N"], countdownBody "F" "N" "M"])
      (listOf [.symbol "LAMBDA", listOf [.symbol "K"], countdownBody "LOOP" "K" "K"]) [] :=
    .lambda rfl rfl rfl rfl ⟨by simp, by decide⟩ renames_countdownBody
  have hcall : Renames [[("F", "LOOP")]] (listOf [.symbol "F", .int 3])
      (listOf [.symbol "LOOP", .int 3]) [] :=
    .call rfl rfl (.variable hF) (.cons (.constant rfl) .nil)
  exact .letrec rfl rfl rfl rfl rfl rfl ⟨by simp, by decide⟩ (.function rfl hlambda .nil) hcall

/-- The two programs are compiled to the same code, and the block of the function is noted under its
old and its new name. -/
theorem sameCode_of_renames_countdown : ∃ m s m' s',
    compile (countdown "F" "N" "M") .empty .expression none {} = (.ok m, s) ∧
      compile (countdown "LOOP" "K" "K") .empty .expression none {} = (.ok m', s') ∧
      m.code.same m'.code = true ∧ m.named.map NamedBlock.name = ["F"] ∧
      m'.named.map NamedBlock.name = ["LOOP"] := by
  have hok : (compile (countdown "F" "N" "M") .empty .expression none {}).1.isOk = true := by
    decide +kernel
  cases hcompile : compile (countdown "F" "N" "M") .empty .expression none {} with
  | mk result s =>
    cases result with
    | error errors =>
      rw [hcompile] at hok
      cases hok
    | ok m =>
      obtain ⟨m', s', hcompile', hcode, -, -, hold, hnew, -⟩ :=
        sameCode_of_renames renames_countdown hcompile .empty {}
      exact ⟨m, s, m', s', rfl, hcompile', hcode, hold, hnew⟩

end Module

end Secd
