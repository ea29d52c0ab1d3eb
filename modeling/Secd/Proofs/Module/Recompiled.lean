import Secd.Proofs.Module.Conservative
import Secd.Proofs.Module.Assembled
import Secd.Proofs.Term.Congruent

/-!
# Programs that are compiled twice

What the compiler makes of an expression does not depend on the cells in which the expression is, or
on the store in which the code is written. Compiled twice, an expression has the same code, the same
named blocks and the same listing, or the same errors in the same order.
-/

namespace Secd

namespace Term

variable {P P' : Address → Prop}

mutual

/-- The codes of terms that match load blocks of the same arms, in the same order. -/
theorem Matches.arms_eq {t t' : Term} {c c' k k' : Sexp} {depth depth' : Nat} {o o' : Outline} :
    Matches t t' → Written P depth t c k o → Written P' depth' t' c' k' o' →
      o.loaded.map LoadedBlock.arm = o'.loaded.map LoadedBlock.arm
  | .constant _, .constant _, .constant _ => rfl
  | .variable _, .variable _ _, .variable _ _ => rfl
  | .unary _ ht, .unary h _, .unary h' _ => ht.arms_eq h h'
  | .binary _ ht hu, .binary h₁ h₂ _, .binary h₁' h₂' _ => by
    simp only [Outline.loaded_append, List.map_append, ht.arms_eq h₁ h₁', hu.arms_eq h₂ h₂']
  | .conditional ht hu hv, .conditional h₁ _ h₂ _ h₃ _, .conditional h₁' _ h₂' _ h₃' _ => by
    simp only [Outline.loaded_append, Outline.loaded_beside, List.map_append, ht.arms_eq h₁ h₁',
      hu.arms_eq h₂ h₂', hv.arms_eq h₃ h₃']
  | .lambda _ ht, .lambda _ h _, .lambda _ h' _ => congrArg (none :: ·) (ht.arms_eq h h')
  | .apply ht hts, .apply _ h₁ h₂ _, .apply _ h₁' h₂' _ => by
    simp only [Outline.loaded_mark, Outline.loaded_call, Outline.loaded_append, List.map_append,
      hts.arms_eq h₁ h₁', ht.arms_eq h₂ h₂']
  | .letrec _ hts ht, .letrec _ _ h₁ _ _ h₂ _, .letrec _ _ h₁' _ _ h₂' _ => by
    simp only [Outline.loaded_mark, Outline.loaded_append, Outline.loaded_load, List.map_append,
      List.map_cons, hts.armsOf_eq h₁ h₁', ht.arms_eq h₂ h₂']

/-- The same for the codes of arguments. -/
theorem MatchesAll.arms_eq {ts ts' : List Term} {c c' k k' : Sexp} {depth depth' : Nat}
    {o o' : Outline} : MatchesAll ts ts' → WrittenAll P depth ts c k o →
      WrittenAll P' depth' ts' c' k' o' →
        o.loaded.map LoadedBlock.arm = o'.loaded.map LoadedBlock.arm
  | .nil, .nil, .nil => rfl
  | .cons ht hts, .cons h₁ h₂ _, .cons h₁' h₂' _ => by
    simp only [Outline.loaded_append, List.map_append, hts.arms_eq h₁ h₁', ht.arms_eq h₂ h₂']

/-- The same for the codes of the arms of a `LETREC`. -/
theorem MatchesAll.armsOf_eq {ts ts' : List Term} {names : List String} {c c' k k' : Sexp}
    {depth depth' : Nat} {o o' : Outline} : MatchesAll ts ts' →
      WrittenArms P depth names ts c k o → WrittenArms P' depth' names ts' c' k' o' →
        o.loaded.map LoadedBlock.arm = o'.loaded.map LoadedBlock.arm
  | .nil, .nil _, .nil _ => rfl
  | .cons _ _, .nil _, .nil _ => rfl
  | .cons ht hts, .function h₁ h₂ _, .function h₁' h₂' _ => by
    have hfirst := (List.cons.inj (ht.arms_eq h₂ h₂')).2
    simp only [Outline.loaded_append, Outline.loaded_arm, List.map_append, List.map_cons,
      hts.armsOf_eq h₁ h₁', hfirst]
  | .cons ht hts, .other _ h₁ h₂ _, .other _ h₁' h₂' _ => by
    simp only [Outline.loaded_append, List.map_append, hts.armsOf_eq h₁ h₁', ht.arms_eq h₂ h₂']
  | .cons (.lambda _ _) _, .function _ _ _, .other hother _ _ _ => absurd rfl (hother _ _)
  | .cons (.lambda _ _) _, .other hother _ _ _, .function _ _ _ => absurd rfl (hother _ _)
  | .cons _ _, .nil hnone, .function _ _ _ | .cons _ _, .nil hnone, .other _ _ _ _
  | .cons _ _, .function _ _ _, .nil hnone | .cons _ _, .other _ _ _ _, .nil hnone => by
    simp at hnone

end

end Term

namespace CompileError

/-- Errors that agree are put in the same order. -/
theorem agrees_insert {e e' : CompileError} {es es' : List CompileError} (he : e.Agrees Eq e')
    (hes : List.Forall₂ (Agrees Eq) es es') :
    List.Forall₂ (Agrees Eq) (e.insert es) (e'.insert es') := by
  induction hes with
  | nil => exact .cons he .nil
  | @cons f f' _ _ hf hrest ih =>
    have horder : e.notAfter f = e'.notAfter f' := by rw [notAfter, notAfter, he.span, hf.span]
    rw [insert, insert, horder]
    split
    · exact .cons he (.cons hf hrest)
    · exact .cons hf ih

/-- The same for all of them. -/
theorem agrees_sort {es es' : List CompileError} (h : List.Forall₂ (Agrees Eq) es es') :
    List.Forall₂ (Agrees Eq) (sort es) (sort es') := by
  induction h with
  | nil => exact .nil
  | cons he _ ih => exact agrees_insert he ih

/-- Errors that agree have the same diagnostics. -/
theorem map_diagnostic_eq {es es' : List CompileError} (h : List.Forall₂ (Agrees Eq) es es')
    (root : Option Span) : es.map (diagnostic root) = es'.map (diagnostic root) := by
  rw [← List.forall₂_eq_eq_eq, List.forall₂_map_left_iff, List.forall₂_map_right_iff]
  refine h.imp fun e e' he => ?_
  rw [diagnostic, diagnostic, he.message, he.span]

end CompileError

namespace Module

/-- The modules are equal but for their cells, and they have the same listing. -/
structure Twins (m m' : Module) : Prop where
  same : m.same m' = true
  listing : Listing.ofModule m = Listing.ofModule m'

variable {m m' : Module} {t t' : Term}

/-- The blocks of the modules of terms that match have the same labels. -/
theorem labels_of_matches {blocks blocks' : List LoadedBlock} (h : t.Matches t')
    (hm : m.Assembled t blocks) (hm' : m'.Assembled t' blocks')
    (hplain : m.code.AllAtoms Atom.Plain) (hsame : m.same m' = true) :
    Listing.labels m = Listing.labels m' := by
  obtain ⟨hcode, -, -, hnamed⟩ := same_iff.1 hsame
  obtain ⟨o, k, hwritten, -, hblocks⟩ := hm.written
  obtain ⟨o', k', hwritten', -, hblocks'⟩ := hm'.written
  have harms := h.arms_eq hwritten hwritten'
  rw [← hblocks, ← hblocks'] at harms
  have hcodes := (Listing.agree_of_same hplain hcode).blocks
  rw [hm.blocks_eq, hm'.blocks_eq, List.forall₂_map_left_iff, List.forall₂_map_right_iff] at hcodes
  rw [hm.labels_eq, hm'.labels_eq]
  clear hm hm' hblocks hblocks'
  induction hcodes with
  | nil => rfl
  | cons hb _ ih =>
    obtain ⟨harm, harms⟩ := List.cons.inj harms
    rw [List.map_cons, List.map_cons, harm, firstNamed?_of_same hnamed hb, ih harms]

/-- Terms that match have twin modules, in whatever stores. -/
theorem twins_of_matches (h : t.Matches t') (hplain : t.AllAtoms Atom.Plain) {shape : Shape}
    {usesPrelude : Bool} {s s' u u' : Store} (hm : ofTerm t shape usesPrelude s = (m, u))
    (hm' : ofTerm t' shape usesPrelude s' = (m', u')) : m.Twins m' := by
  have hsame := same_of_matches h hm hm'
  obtain ⟨blocks, -, hassembled⟩ := assembled_ofTerm hm
  obtain ⟨blocks', -, hassembled'⟩ := assembled_ofTerm hm'
  have hcode := (hassembled.plain hplain).code
  have hlabels := labels_of_matches h hassembled hassembled' hcode hsame
  refine ⟨hsame, ?_⟩
  rw [Listing.ofModule_eq_of_same hcode hsame hlabels, Listing.ofModule_eq_naming]

variable {R : Option Span → Option Span → Prop} {e e' : Sexp} {map map' : SourceMap}
  {prelude prelude' : Option Prelude}

/-- If the results of the analysis agree, then both programs are compiled, to twins, or neither is,
and the errors that have been found agree before they are put in order. -/
theorem compile_of_agrees
    (h : (Term.ofSexp ⟨map, prelude⟩ (Prelude.scopes prelude) map.root e).Agrees R Term.Matches
      (Term.ofSexp ⟨map', prelude'⟩ (Prelude.scopes prelude') map'.root e'))
    (hprelude : prelude.isSome = prelude'.isSome) (hplain : e.AllAtoms Atom.Plain) (shape : Shape)
    (s s' : Store) :
    (∃ m u m' u', compile e map shape prelude s = (.ok m, u) ∧
      compile e' map' shape prelude' s' = (.ok m', u') ∧ m.Twins m') ∨
    ∃ found found', List.Forall₂ (CompileError.Agrees R) found found' ∧
      compile e map shape prelude s = (.error (CompileError.sort found), s) ∧
      compile e' map' shape prelude' s' = (.error (CompileError.sort found'), s') := by
  generalize hx : Term.ofSexp ⟨map, prelude⟩ (Prelude.scopes prelude) map.root e = x at h
  generalize hx' : Term.ofSexp ⟨map', prelude'⟩ (Prelude.scopes prelude') map'.root e' = x' at h
  cases h with
  | @ok t t' ht =>
    have htplain : t.AllAtoms Atom.Plain := (Term.resolves_of_ofSexp e hx).allAtoms hplain
    refine .inl ⟨_, _, _, _, compile_eq_ok_iff.2 ⟨t, hx, rfl⟩,
      compile_eq_ok_iff.2 ⟨t', hx', rfl⟩, ?_⟩
    rw [← hprelude]
    exact twins_of_matches ht htplain rfl rfl
  | error herrors =>
    refine .inr ⟨_, _, herrors, ?_, ?_⟩
    · rw [compile, analyse_eq, hx]
      rfl
    · rw [compile, analyse_eq, hx']
      rfl

end Module

end Secd
