import Secd.Proofs.Store.Parallel
import Secd.Proofs.Term.Written

/-!
# The same term in different code

What the code of a term looks like is fixed by the term and by the code after it, up to the cells.
So a term that has been written twice, in front of code that matches, has been written as code that
matches: the instructions are the same, and so are the constants.
-/

namespace Secd

namespace Sexp

/-- The trees at the same place of the two lists match. -/
abbrev MatchAll : List Sexp → List Sexp → Prop := List.Forall₂ Matches

/-- Every list of trees matches itself. -/
theorem matchAll_refl (es : List Sexp) : MatchAll es es :=
  List.forall₂_same.2 fun e _ => e.matches_refl

/-- Code that begins with items that match matches if what comes after them does. -/
theorem Begins.matches {items items' : List Sexp} {c k c' k' : Sexp} (h : c.Begins items k)
    (h' : c'.Begins items' k') (hitems : MatchAll items items') (hk : k.Matches k') :
    c.Matches c' := by
  induction hitems generalizing c c' with
  | nil =>
    obtain rfl := h
    obtain rfl := h'
    exact hk
  | cons hitem _ ih =>
    obtain ⟨_, _, rfl, htail⟩ := h
    obtain ⟨_, _, rfl, htail'⟩ := h'
    exact ⟨hitem, ih htail htail'⟩

/-- Lists with items that match match. -/
theorem matches_of_list? {e e' : Sexp} {items items' : List Sexp} (he : e.list? = some items)
    (he' : e'.list? = some items') (hitems : MatchAll items items') : e.Matches e' := by
  induction e generalizing e' items items' with
  | atom a =>
    obtain ⟨rfl, rfl⟩ := list?_atom he
    cases hitems
    cases e' with
    | atom b =>
      obtain ⟨rfl, -⟩ := list?_atom he'
      exact rfl
    | pair _ _ _ =>
      obtain ⟨_, -, heq⟩ := list?_pair_eq_some he'
      cases heq
  | pair c head tail _ ih =>
    obtain ⟨rest, hrest, rfl⟩ := list?_pair_eq_some he
    cases hitems with
    | cons hitem hitems =>
      cases e' with
      | atom b =>
        obtain ⟨-, heq⟩ := list?_atom he'
        cases heq
      | pair _ _ _ =>
        obtain ⟨rest', hrest', heq⟩ := list?_pair_eq_some he'
        obtain ⟨rfl, rfl⟩ := List.cons.inj heq
        exact ⟨hitem, ih hrest hrest' hitems⟩

end Sexp

namespace Term

open Sexp

variable {P P' : Address → Prop}

mutual

/-- The code of a term matches the code of the same term if what comes after it does. -/
theorem Written.matches {t : Term} {depth depth' : Nat} {c k c' k' : Sexp} {o o' : Outline} :
    Written P depth t c k o → Written P' depth' t c' k' o' → k.Matches k' → c.Matches c'
  | .constant hcode, .constant hcode', hk => hcode.matches hcode' (matchAll_refl _) hk
  | .variable hcode _, .variable hcode' _, hk =>
    hcode.matches hcode' (.cons rfl (.cons ⟨rfl, rfl⟩ .nil)) hk
  | .unary ht hcode, .unary ht' hcode', hk =>
    ht.matches ht' (hcode.matches hcode' (matchAll_refl _) hk)
  | .binary ht hu hcode, .binary ht' hu' hcode', hk =>
    ht.matches ht' (hu.matches hu' (hcode.matches hcode' (matchAll_refl _) hk))
  | .conditional htest hcode hyes hyesEnd hno hnoEnd,
      .conditional htest' hcode' hyes' hyesEnd' hno' hnoEnd', hk => by
    have hyesCode := hyes.matches hyes' (hyesEnd.matches hyesEnd' (matchAll_refl _) rfl)
    have hnoCode := hno.matches hno' (hnoEnd.matches hnoEnd' (matchAll_refl _) rfl)
    exact htest.matches htest'
      (hcode.matches hcode' (.cons rfl (.cons hyesCode (.cons hnoCode .nil))) hk)
  | .lambda hcode hbody hend, .lambda hcode' hbody' hend', hk => by
    have hblock := hbody.matches hbody' (hend.matches hend' (matchAll_refl _) rfl)
    exact hcode.matches hcode' (.cons rfl (.cons hblock .nil)) hk
  | .apply hcode hargs hf hap, .apply hcode' hargs' hf' hap', hk => by
    have hfunction := hf.matches hf' (hap.matches hap' (matchAll_refl _) hk)
    exact hcode.matches hcode' (matchAll_refl _) (hargs.matches hargs' hfunction)
  | .letrec hdum hnil hinits hldf hrap hbody hend,
      .letrec hdum' hnil' hinits' hldf' hrap' hbody' hend', hk => by
    have hblock := hbody.matches hbody' (hend.matches hend' (matchAll_refl _) rfl)
    have hcall := hldf.matches hldf' (.cons rfl (.cons hblock .nil))
      (hrap.matches hrap' (matchAll_refl _) hk)
    have hlist := hnil.matches hnil' (matchAll_refl _) (hinits.matches hinits' hcall)
    exact hdum.matches hdum' (matchAll_refl _) hlist

/-- The same for the code of arguments. -/
theorem WrittenAll.matches {ts : List Term} {depth depth' : Nat} {c k c' k' : Sexp}
    {o o' : Outline} : WrittenAll P depth ts c k o → WrittenAll P' depth' ts c' k' o' →
      k.Matches k' → c.Matches c'
  | .nil, .nil, hk => hk
  | .cons hothers hfirst hcode, .cons hothers' hfirst' hcode', hk =>
    hothers.matches hothers' (hfirst.matches hfirst' (hcode.matches hcode' (matchAll_refl _) hk))

/-- The same for the code of the arms of a `LETREC`. -/
theorem WrittenArms.matches {names : List String} {ts : List Term} {depth depth' : Nat}
    {c k c' k' : Sexp} {o o' : Outline} : WrittenArms P depth names ts c k o →
      WrittenArms P' depth' names ts c' k' o' → k.Matches k' → c.Matches c'
  | .nil _, .nil _, hk => hk
  | .function hothers hfirst hcode, .function hothers' hfirst' hcode', hk
  | .other _ hothers hfirst hcode, .other _ hothers' hfirst' hcode', hk =>
    hothers.matches hothers' (hfirst.matches hfirst' (hcode.matches hcode' (matchAll_refl _) hk))
  | .function _ _ _, .other hother _ _ _, _ => absurd rfl (hother _ _)
  | .other hother _ _ _, .function _ _ _, _ => absurd rfl (hother _ _)
  | .nil hnone, .function _ _ _, _ | .nil hnone, .other _ _ _ _, _
  | .function _ _ _, .nil hnone, _ | .other _ _ _ _, .nil hnone, _ => by
    simp at hnone

end

end Term

end Secd
