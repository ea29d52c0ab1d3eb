import Secd.Proofs.Sexp.Atoms
import Secd.Proofs.Term.Renaming

/-!
# The code of renamed expressions

Code has addresses and no names. So expressions that differ in the names of bound variables are
compiled to the same code, and the blocks that are noted for the functions of `LETREC` are the same,
in the same order, under the old and the new names. The codes of two terms are compared in front of
codes that are the same themselves.
-/

namespace Secd

/-- Blocks that have been noted for these functions, under the old names and under the new ones. -/
structure Noted (functions : List (String × String)) (noted noted' : List NamedBlock) : Prop where
  old : noted.map NamedBlock.name = functions.map Prod.fst
  new : noted'.map NamedBlock.name = functions.map Prod.snd
  bodies : List.Forall₂ (fun n n' => n.body.same n'.body = true) noted noted'

namespace Noted

variable {fs gs : List (String × String)} {ns ns' ms ms' : List NamedBlock} {o o' u u' : Outline}

/-- No blocks are noted for no functions. -/
theorem nil : Noted [] [] [] := ⟨rfl, rfl, .nil⟩

/-- Blocks are noted in turn. -/
theorem append (h : Noted fs ns ns') (h' : Noted gs ms ms') :
    Noted (fs ++ gs) (ns ++ ms) (ns' ++ ms') := by
  constructor
  · rw [List.map_append, List.map_append, h.old, h'.old]
  · rw [List.map_append, List.map_append, h.new, h'.new]
  · exact List.rel_append h.bodies h'.bodies

/-- Code is written after the code behind it. -/
theorem before (h : Noted fs u.noted.reverse u'.noted.reverse)
    (h' : Noted gs o.noted.reverse o'.noted.reverse) :
    Noted (fs ++ gs) (o ++ u).noted.reverse (o' ++ u').noted.reverse := by
  have hall := h.append h'
  rw [← List.reverse_append, ← List.reverse_append] at hall
  exact hall

/-- A block that is the same is noted under the two names of a function. -/
theorem concat (h : Noted fs ns ns') {block block' : Sexp} (hblock : block.same block' = true)
    (x y : String) : Noted (fs ++ [(x, y)]) (ns ++ [⟨x, block⟩]) (ns' ++ [⟨y, block'⟩]) :=
  h.append ⟨rfl, rfl, .cons hblock .nil⟩

end Noted

namespace Term

variable {t t' u u' v v' : Term} {fs gs hs : List (String × String)}

/-- However the two terms are written, their codes are the same in front of codes that are the same,
and the blocks that are noted are those of the functions. -/
def SameCode (functions : List (String × String)) (t t' : Term) : Prop :=
  ∀ ⦃P : Address → Prop⦄ ⦃depth : Nat⦄ ⦃c c' k k' : Sexp⦄ ⦃o o' : Outline⦄,
    Written P depth t c k o → Written P depth t' c' k' o' → k.same k' = true →
      c.same c' = true ∧ Noted functions o.noted.reverse o'.noted.reverse

/-- The same for the codes of arguments. -/
def SameCodes (functions : List (String × String)) (ts ts' : List Term) : Prop :=
  ∀ ⦃P : Address → Prop⦄ ⦃depth : Nat⦄ ⦃c c' k k' : Sexp⦄ ⦃o o' : Outline⦄,
    WrittenAll P depth ts c k o → WrittenAll P depth ts' c' k' o' → k.same k' = true →
      c.same c' = true ∧ Noted functions o.noted.reverse o'.noted.reverse

/-- The same for the codes of the arms of a `LETREC` with the given names. -/
def SameArms (functions : List (String × String)) (names names' : List String)
    (ts ts' : List Term) : Prop :=
  ∀ ⦃P : Address → Prop⦄ ⦃depth : Nat⦄ ⦃c c' k k' : Sexp⦄ ⦃o o' : Outline⦄,
    WrittenArms P depth names ts c k o → WrittenArms P depth names' ts' c' k' o' →
      k.same k' = true → c.same c' = true ∧ Noted functions o.noted.reverse o'.noted.reverse

/-! ### One lemma for each kind of term

The codes of two terms of one kind are the same if those of their parts are.
-/

theorem sameCode_constant {e e' : Sexp} (h : e.same e' = true) :
    SameCode [] (.constant e) (.constant e') := by
  intro P depth c c' k k' o o' hwritten hwritten' hk
  cases hwritten with
  | constant hcode =>
    cases hwritten' with
    | constant hcode' => exact ⟨hcode.same_instruction hcode' (.cons h .nil) hk, .nil⟩

theorem sameCode_variable (address : Address) :
    SameCode [] (.variable address) (.variable address) := by
  intro P depth c c' k k' o o' hwritten hwritten' hk
  cases hwritten with
  | «variable» hcode _ =>
    cases hwritten' with
    | «variable» hcode' _ =>
      have hoperand (i j : Nat) : (address.operand i).same (address.operand j) = true :=
        Bool.and_eq_true_iff.2 ⟨Sexp.same_refl _, Sexp.same_refl _⟩
      exact ⟨hcode.same_instruction hcode' (.cons (hoperand _ _) .nil) hk, .nil⟩

theorem SameCode.unary (op : Unary) (ht : SameCode fs t t') :
    SameCode fs (.unary op t) (.unary op t') := by
  intro P depth c c' k k' o o' hwritten hwritten' hk
  cases hwritten with
  | unary hoperand hcode =>
    cases hwritten' with
    | unary hoperand' hcode' =>
      exact ht hoperand hoperand' (hcode.same_instruction hcode' .nil hk)

theorem SameCode.binary (op : Binary) (ht : SameCode fs t t') (hu : SameCode gs u u') :
    SameCode (gs ++ fs) (.binary op t u) (.binary op t' u') := by
  intro P depth c c' k k' o o' hwritten hwritten' hk
  cases hwritten with
  | binary hearlier hlater hcode =>
    cases hwritten' with
    | binary hearlier' hlater' hcode' =>
      obtain ⟨hsame, hnoted⟩ := hu hlater hlater' (hcode.same_instruction hcode' .nil hk)
      obtain ⟨hsame', hnoted'⟩ := ht hearlier hearlier' hsame
      exact ⟨hsame', hnoted.before hnoted'⟩

theorem SameCode.conditional (ht : SameCode fs t t') (hu : SameCode gs u u')
    (hv : SameCode hs v v') :
    SameCode (gs ++ (hs ++ fs)) (.conditional t u v) (.conditional t' u' v') := by
  intro P depth c c' k k' o o' hwritten hwritten' hk
  cases hwritten with
  | conditional htest hcode hyes hyesEnd hno hnoEnd =>
    cases hwritten' with
    | conditional htest' hcode' hyes' hyesEnd' hno' hnoEnd' =>
      obtain ⟨hyesSame, hyesNoted⟩ := hu hyes hyes' (hyesEnd.same_instruction hyesEnd' .nil rfl)
      obtain ⟨hnoSame, hnoNoted⟩ := hv hno hno' (hnoEnd.same_instruction hnoEnd' .nil rfl)
      have hselect :=
        hcode.same_instruction hcode' (.cons hyesSame (.cons hnoSame .nil)) hk
      obtain ⟨hsame, hnoted⟩ := ht htest htest' hselect
      -- the second branch has been written after the first one
      have hall := hyesNoted.append (hnoNoted.append hnoted)
      simp only [← List.reverse_append, List.append_assoc] at hall
      exact ⟨hsame, hall⟩

theorem SameCode.lambda (ht : SameCode fs t t') (params params' : List String) :
    SameCode fs (.lambda params t) (.lambda params' t') := by
  intro P depth c c' k k' o o' hwritten hwritten' hk
  cases hwritten with
  | lambda hcode hbody hend =>
    cases hwritten' with
    | lambda hcode' hbody' hend' =>
      obtain ⟨hblock, hnoted⟩ := ht hbody hbody' (hend.same_instruction hend' .nil rfl)
      exact ⟨hcode.same_instruction hcode' (.cons hblock .nil) hk, hnoted⟩

theorem SameCode.apply {ts ts' : List Term} (ht : SameCode fs t t') (hts : SameCodes gs ts ts') :
    SameCode (fs ++ gs) (.apply t ts) (.apply t' ts') := by
  intro P depth c c' k k' o o' hwritten hwritten' hk
  cases hwritten with
  | apply hcode hargs hf hap =>
    cases hwritten' with
    | apply hcode' hargs' hf' hap' =>
      obtain ⟨hsame, hnoted⟩ := ht hf hf' (hap.same_instruction hap' .nil hk)
      obtain ⟨hsame', hnoted'⟩ := hts hargs hargs' hsame
      exact ⟨hcode.same_instruction hcode' (.cons rfl .nil) hsame', hnoted.before hnoted'⟩

theorem SameCode.letrec {names names' : List String} {ts ts' : List Term}
    (ht : SameCode fs t t') (hts : SameArms gs names names' ts ts') :
    SameCode (fs ++ gs) (.letrec names ts t) (.letrec names' ts' t') := by
  intro P depth c c' k k' o o' hwritten hwritten' hk
  cases hwritten with
  | letrec hdum hnil hinits hldf hrap hbody hend =>
    cases hwritten' with
    | letrec hdum' hnil' hinits' hldf' hrap' hbody' hend' =>
      obtain ⟨hblock, hnoted⟩ := ht hbody hbody' (hend.same_instruction hend' .nil rfl)
      have hcall := hldf.same_instruction hldf' (.cons hblock .nil)
        (hrap.same_instruction hrap' .nil hk)
      obtain ⟨hsame, hnoted'⟩ := hts hinits hinits' hcall
      have hlist := hnil.same_instruction hnil' (.cons rfl .nil) hsame
      exact ⟨hdum.same_instruction hdum' .nil hlist, hnoted.before hnoted'⟩

theorem sameCodes_nil : SameCodes [] [] [] := by
  intro P depth c c' k k' o o' hwritten hwritten' hk
  cases hwritten
  cases hwritten'
  exact ⟨hk, .nil⟩

theorem SameCode.cons {ts ts' : List Term} (ht : SameCode fs t t') (hts : SameCodes gs ts ts') :
    SameCodes (fs ++ gs) (t :: ts) (t' :: ts') := by
  intro P depth c c' k k' o o' hwritten hwritten' hk
  cases hwritten with
  | cons hothers hfirst hcode =>
    cases hwritten' with
    | cons hothers' hfirst' hcode' =>
      obtain ⟨hsame, hnoted⟩ := ht hfirst hfirst' (hcode.same_instruction hcode' .nil hk)
      obtain ⟨hsame', hnoted'⟩ := hts hothers hothers' hsame
      exact ⟨hsame', hnoted.before hnoted'⟩

theorem sameArms_nil {names names' : List String} {ts ts' : List Term}
    (hnone : names = [] ∨ ts = []) (hnone' : names' = [] ∨ ts' = []) :
    SameArms [] names names' ts ts' := by
  intro P depth c c' k k' o o' hwritten hwritten' hk
  cases hwritten with
  | nil _ =>
    cases hwritten' with
    | nil _ => exact ⟨hk, .nil⟩
    | _ => simp at hnone'
  | _ => simp at hnone

/-- The block of a function in an arm is noted after those of the functions inside. -/
theorem SameCode.function {x y : String} {names names' params params' : List String}
    {ts ts' : List Term} (ht : SameCode fs (.lambda params t) (.lambda params' t'))
    (hts : SameArms gs names names' ts ts') :
    SameArms (fs ++ (x, y) :: gs) (x :: names) (y :: names') (.lambda params t :: ts)
      (.lambda params' t' :: ts') := by
  intro P depth c c' k k' o o' hwritten hwritten' hk
  cases hwritten with
  | nil hnone => simp at hnone
  | other hother _ _ _ => exact absurd rfl (hother _ _)
  | function hothers hfirst hcode =>
    cases hwritten' with
    | nil hnone => simp at hnone
    | other hother _ _ _ => exact absurd rfl (hother _ _)
    | function hothers' hfirst' hcode' =>
      obtain ⟨hsame, hnoted⟩ := ht hfirst hfirst' (hcode.same_instruction hcode' .nil hk)
      obtain ⟨hsame', hnoted'⟩ := hts hothers hothers' hsame
      have hblock := hfirst.begins_of_load.same_operand hfirst'.begins_of_load hsame
      have hall := (hnoted.concat hblock x y).append hnoted'
      rw [← List.reverse_cons, ← List.reverse_cons, ← List.reverse_append, ← List.reverse_append,
        List.append_assoc, List.singleton_append] at hall
      exact ⟨hsame', hall⟩

theorem SameCode.other {x y : String} {names names' : List String} {ts ts' : List Term}
    (ht : SameCode fs t t') (hne : ∀ params body, t ≠ .lambda params body)
    (hne' : ∀ params body, t' ≠ .lambda params body) (hts : SameArms gs names names' ts ts') :
    SameArms (fs ++ gs) (x :: names) (y :: names') (t :: ts) (t' :: ts') := by
  intro P depth c c' k k' o o' hwritten hwritten' hk
  cases hwritten with
  | nil hnone => simp at hnone
  | function _ _ _ => exact absurd rfl (hne _ _)
  | other _ hothers hfirst hcode =>
    cases hwritten' with
    | nil hnone => simp at hnone
    | function _ _ _ => exact absurd rfl (hne' _ _)
    | other _ hothers' hfirst' hcode' =>
      obtain ⟨hsame, hnoted⟩ := ht hfirst hfirst' (hcode.same_instruction hcode' .nil hk)
      obtain ⟨hsame', hnoted'⟩ := hts hothers hothers' hsame
      exact ⟨hsame', hnoted.before hnoted'⟩

/-! ### Code that is written twice -/

/-- The functions keep their names. -/
def unrenamed (names : List String) : List (String × String) := names.map fun name => (name, name)

/-- Functions that keep their names may come in two parts. -/
theorem unrenamed_append (names names' : List String) :
    unrenamed (names ++ names') = unrenamed names ++ unrenamed names' := List.map_append

mutual

/-- The terms are the same up to the cells of their constants. -/
inductive Matches : Term → Term → Prop where
  | constant {e e' : Sexp} (h : e.same e' = true) : Matches (.constant e) (.constant e')
  | variable (address : Address) : Matches (.variable address) (.variable address)
  | unary (op : Unary) {t t' : Term} (h : Matches t t') : Matches (.unary op t) (.unary op t')
  | binary (op : Binary) {t t' u u' : Term} (ht : Matches t t') (hu : Matches u u') :
      Matches (.binary op t u) (.binary op t' u')
  | conditional {t t' u u' v v' : Term} (ht : Matches t t') (hu : Matches u u')
      (hv : Matches v v') : Matches (.conditional t u v) (.conditional t' u' v')
  | lambda (params : List String) {t t' : Term} (h : Matches t t') :
      Matches (.lambda params t) (.lambda params t')
  | apply {t t' : Term} {ts ts' : List Term} (ht : Matches t t') (hts : MatchesAll ts ts') :
      Matches (.apply t ts) (.apply t' ts')
  | letrec (names : List String) {t t' : Term} {ts ts' : List Term} (hts : MatchesAll ts ts')
      (ht : Matches t t') : Matches (.letrec names ts t) (.letrec names ts' t')

/-- The same for several terms. -/
inductive MatchesAll : List Term → List Term → Prop where
  | nil : MatchesAll [] []
  | cons {t t' : Term} {ts ts' : List Term} (ht : Matches t t') (hts : MatchesAll ts ts') :
      MatchesAll (t :: ts) (t' :: ts')

end

mutual

/-- A term matches itself. -/
theorem matches_refl : (t : Term) → Matches t t
  | .constant value => .constant value.same_refl
  | .variable address => .variable address
  | .unary op operand => .unary op (matches_refl operand)
  | .binary op earlier later => .binary op (matches_refl earlier) (matches_refl later)
  | .conditional test yes no =>
    .conditional (matches_refl test) (matches_refl yes) (matches_refl no)
  | .lambda params body => .lambda params (matches_refl body)
  | .apply function args => .apply (matches_refl function) (matchesAll_refl args)
  | .letrec names inits body => .letrec names (matchesAll_refl inits) (matches_refl body)

/-- The same for several terms. -/
theorem matchesAll_refl : (ts : List Term) → MatchesAll ts ts
  | [] => .nil
  | t :: ts => .cons (matches_refl t) (matchesAll_refl ts)

end

mutual

/-- The codes of terms that match are the same, wherever they are written, and so are the blocks of
their functions. -/
theorem Matches.exists_sameCode {t t' : Term} : Matches t t' →
    ∃ names, SameCode (unrenamed names) t t'
  | .constant h => ⟨[], sameCode_constant h⟩
  | .variable address => ⟨[], sameCode_variable address⟩
  | .unary op ht => by
    obtain ⟨names, h⟩ := ht.exists_sameCode
    exact ⟨names, h.unary op⟩
  | .binary op ht hu => by
    obtain ⟨names, h⟩ := ht.exists_sameCode
    obtain ⟨names', h'⟩ := hu.exists_sameCode
    exact ⟨names' ++ names, unrenamed_append names' names ▸ h.binary op h'⟩
  | .conditional ht hu hv => by
    obtain ⟨names, h⟩ := ht.exists_sameCode
    obtain ⟨names', h'⟩ := hu.exists_sameCode
    obtain ⟨names'', h''⟩ := hv.exists_sameCode
    refine ⟨names' ++ (names'' ++ names), ?_⟩
    rw [unrenamed_append, unrenamed_append]
    exact h.conditional h' h''
  | .lambda params ht => by
    obtain ⟨names, h⟩ := ht.exists_sameCode
    exact ⟨names, h.lambda params params⟩
  | .apply ht hts => by
    obtain ⟨names, h⟩ := ht.exists_sameCode
    obtain ⟨names', h'⟩ := hts.exists_sameCodes
    exact ⟨names ++ names', unrenamed_append names names' ▸ h.apply h'⟩
  | .letrec bound hts ht => by
    obtain ⟨names, h⟩ := ht.exists_sameCode
    obtain ⟨names', h'⟩ := hts.exists_sameArms bound
    exact ⟨names ++ names', unrenamed_append names names' ▸ h.letrec h'⟩

/-- The same for the codes of arguments. -/
theorem MatchesAll.exists_sameCodes {ts ts' : List Term} : MatchesAll ts ts' →
    ∃ names, SameCodes (unrenamed names) ts ts'
  | .nil => ⟨[], sameCodes_nil⟩
  | .cons ht hts => by
    obtain ⟨names, h⟩ := ht.exists_sameCode
    obtain ⟨names', h'⟩ := hts.exists_sameCodes
    exact ⟨names ++ names', unrenamed_append names names' ▸ h.cons h'⟩

/-- The same for the codes of the arms of a `LETREC`. -/
theorem MatchesAll.exists_sameArms {ts ts' : List Term} (bound : List String) :
    MatchesAll ts ts' → ∃ names, SameArms (unrenamed names) bound bound ts ts'
  | .nil => ⟨[], sameArms_nil (.inr rfl) (.inr rfl)⟩
  | .cons ht hts => by
    cases bound with
    | nil => exact ⟨[], sameArms_nil (.inl rfl) (.inl rfl)⟩
    | cons name bound =>
      obtain ⟨names, h⟩ := ht.exists_sameCode
      obtain ⟨names', h'⟩ := hts.exists_sameArms bound
      cases ht with
      | lambda params _ =>
        exact ⟨names ++ name :: names', unrenamed_append names (name :: names') ▸ h.function h'⟩
      | _ => exact ⟨names ++ names', unrenamed_append names names' ▸ h.other nofun nofun h'⟩

end

end Term

/-! ### Renamed expressions -/

namespace Sexp

open Term

variable {prelude : Option Prelude}

mutual

/-- An expression that is well formed has a term, before and after it is renamed, and the codes of
the two terms are the same. -/
theorem Renames.exists_sameCode {ρ : Renaming} {e e' : Sexp} {functions : List (String × String)} :
    Renames ρ e e' functions → ρ.Binds → e.WellFormed prelude (ρ.old ++ Prelude.scopes prelude) →
      ∃ t t', Resolves (ρ.old ++ Prelude.scopes prelude) e t ∧
        Resolves (ρ.new ++ Prelude.scopes prelude) e' t' ∧ SameCode functions t t'
  | .constant hphrase, _, _ =>
    ⟨_, _, .constant hphrase, .constant hphrase, sameCode_constant (same_refl _)⟩
  | .variable hrefers, hρ, he => by
    have hbound := exists_bound_iff.1 ((wellFormed_variable rfl).1 he)
    obtain ⟨address, hlocate⟩ := Option.ne_none_iff_exists'.1 hbound
    have hlocate' := hrefers.locate?_eq hρ _ ▸ hlocate
    exact ⟨_, _, .variable rfl hlocate, .variable rfl hlocate', sameCode_variable address⟩
  | .quote hphrase hphrase' hx, _, _ =>
    ⟨_, _, .quote hphrase, .quote hphrase', sameCode_constant hx⟩
  | .unary hphrase hphrase' hx, hρ, he => by
    obtain ⟨t, t', ht, ht', hcode⟩ := hx.exists_sameCode hρ ((wellFormed_unary hphrase).1 he)
    exact ⟨_, _, .unary hphrase ht, .unary hphrase' ht', hcode.unary _⟩
  | .leftFirst hphrase hphrase' hop hx hy, hρ, he => by
    obtain ⟨hfirst, hsecond⟩ := (wellFormed_binary hphrase).1 he
    obtain ⟨t, t', ht, ht', hcode⟩ := hx.exists_sameCode hρ hfirst
    obtain ⟨u, u', hu, hu', hlater⟩ := hy.exists_sameCode hρ hsecond
    exact ⟨_, _, .leftFirst hphrase hop ht hu, .leftFirst hphrase' hop ht' hu',
      hcode.binary _ hlater⟩
  | .rightFirst hphrase hphrase' hop hx hy, hρ, he => by
    obtain ⟨hfirst, hsecond⟩ := (wellFormed_binary hphrase).1 he
    obtain ⟨t, t', ht, ht', hlater⟩ := hx.exists_sameCode hρ hfirst
    obtain ⟨u, u', hu, hu', hcode⟩ := hy.exists_sameCode hρ hsecond
    exact ⟨_, _, .rightFirst hphrase hop ht hu, .rightFirst hphrase' hop ht' hu',
      hcode.binary _ hlater⟩
  | .conditional hphrase hphrase' htest hyes hno, hρ, he => by
    obtain ⟨hfirst, hsecond, hthird⟩ := (wellFormed_conditional hphrase).1 he
    obtain ⟨t, t', ht, ht', htestCode⟩ := htest.exists_sameCode hρ hfirst
    obtain ⟨u, u', hu, hu', hyesCode⟩ := hyes.exists_sameCode hρ hsecond
    obtain ⟨v, v', hv, hv', hnoCode⟩ := hno.exists_sameCode hρ hthird
    exact ⟨_, _, .conditional hphrase ht hu hv, .conditional hphrase' ht' hu' hv',
      htestCode.conditional hyesCode hnoCode⟩
  | .lambda hphrase hphrase' hold hnew hbindable hbody, hρ, he => by
    obtain ⟨names, ⟨hparams, hnames⟩, hinside⟩ := (wellFormed_lambda hphrase).1 he
    obtain rfl := Option.some.inj (hparams.symm.trans hold)
    obtain ⟨t, t', ht, ht', hcode⟩ := hbody.exists_sameCode (hρ.cons hnames hbindable) hinside
    exact ⟨_, _, .lambda hphrase hold ht, .lambda hphrase' hnew ht', hcode.lambda _ _⟩
  | .let hphrase hphrase' harms harms' hold hnew hbindable hinits hbody, hρ, he => by
    obtain ⟨arms, ⟨hbound, hnames⟩, hinside, houtside⟩ := (wellFormed_let hphrase).1 he
    obtain rfl := Option.some.inj (harms.symm.trans hbound)
    rw [hold] at hnames hinside
    obtain ⟨t, t', ht, ht', hcode⟩ := hbody.exists_sameCode (hρ.cons hnames hbindable) hinside
    obtain ⟨ts, ts', hts, hts', hcodes⟩ := hinits.exists_sameCodes hρ houtside
    exact ⟨_, _, .let hphrase harms hts (hold ▸ ht), .let hphrase' harms' hts' (hnew ▸ ht'),
      (hcode.lambda _ _).apply hcodes⟩
  | .letrec hphrase hphrase' harms harms' hold hnew hbindable hinits hbody, hρ, he => by
    obtain ⟨arms, ⟨hbound, hnames⟩, hinside, hinside'⟩ := (wellFormed_letrec hphrase).1 he
    obtain rfl := Option.some.inj (harms.symm.trans hbound)
    rw [hold] at hnames hinside hinside'
    have hbinds := hρ.cons hnames hbindable
    obtain ⟨t, t', ht, ht', hcode⟩ := hbody.exists_sameCode hbinds hinside
    obtain ⟨ts, ts', hts, hts', hcodes⟩ := hinits.exists_sameArms hbinds hinside'
    exact ⟨_, _, .letrec hphrase harms (hold ▸ hts) (hold ▸ ht),
      .letrec hphrase' harms' (hnew ▸ hts') (hnew ▸ ht'), hcode.letrec hcodes⟩
  | .call hphrase hlist' hfunction hargs, hρ, he => by
    obtain ⟨-, hcalled, hpassed⟩ := (wellFormed_call hphrase).1 he
    obtain ⟨t, t', ht, ht', hcode⟩ := hfunction.exists_sameCode hρ hcalled
    obtain ⟨ts, ts', hts, hts', hcodes⟩ := hargs.exists_sameCodes hρ hpassed
    exact ⟨_, _, .call hphrase ht hts, .call (hfunction.phrase_call hphrase hlist' hρ) ht' hts',
      hcode.apply hcodes⟩

/-- The same for several expressions. -/
theorem RenamesAll.exists_sameCodes {ρ : Renaming} {es es' : List Sexp}
    {functions : List (String × String)} : RenamesAll ρ es es' functions → ρ.Binds →
      (∀ e ∈ es, e.WellFormed prelude (ρ.old ++ Prelude.scopes prelude)) →
        ∃ ts ts', ResolvesAll (ρ.old ++ Prelude.scopes prelude) es ts ∧
          ResolvesAll (ρ.new ++ Prelude.scopes prelude) es' ts' ∧ SameCodes functions ts ts'
  | .nil, _, _ => ⟨[], [], .nil, .nil, sameCodes_nil⟩
  | .cons hfirst hothers, hρ, hes => by
    obtain ⟨he, hes⟩ := List.forall_mem_cons.1 hes
    obtain ⟨t, t', ht, ht', hcode⟩ := hfirst.exists_sameCode hρ he
    obtain ⟨ts, ts', hts, hts', hcodes⟩ := hothers.exists_sameCodes hρ hes
    exact ⟨_, _, .cons ht hts, .cons ht' hts', hcode.cons hcodes⟩

/-- The same for the expressions in the arms of a `LETREC`. -/
theorem RenamesArms.exists_sameArms {ρ : Renaming} {arms arms' : List (String × Sexp)}
    {functions : List (String × String)} : RenamesArms ρ arms arms' functions → ρ.Binds →
      (∀ e ∈ arms.map Prod.snd, e.WellFormed prelude (ρ.old ++ Prelude.scopes prelude)) →
        ∃ ts ts', ResolvesAll (ρ.old ++ Prelude.scopes prelude) (arms.map Prod.snd) ts ∧
          ResolvesAll (ρ.new ++ Prelude.scopes prelude) (arms'.map Prod.snd) ts' ∧
            SameArms functions (arms.map Prod.fst) (arms'.map Prod.fst) ts ts'
  | .nil, _, _ => ⟨[], [], .nil, .nil, sameArms_nil (.inl rfl) (.inl rfl)⟩
  | .function hphrase hfirst hothers, hρ, hes => by
    obtain ⟨he, hes⟩ := List.forall_mem_cons.1 hes
    obtain ⟨t, t', ht, ht', hcode⟩ := hfirst.exists_sameCode hρ he
    obtain ⟨ts, ts', hts, hts', hcodes⟩ := hothers.exists_sameArms hρ hes
    obtain ⟨params, body, rfl⟩ := ht.isLambda_iff.2 ⟨_, hphrase⟩
    obtain ⟨params', body', rfl⟩ :=
      ht'.isLambda_iff.2 ((hfirst.isLambda_iff hρ).1 ⟨_, hphrase⟩)
    exact ⟨_, _, .cons ht hts, .cons ht' hts', hcode.function hcodes⟩
  | .other hphrase hfirst hothers, hρ, hes => by
    obtain ⟨he, hes⟩ := List.forall_mem_cons.1 hes
    obtain ⟨t, t', ht, ht', hcode⟩ := hfirst.exists_sameCode hρ he
    obtain ⟨ts, ts', hts, hts', hcodes⟩ := hothers.exists_sameArms hρ hes
    refine ⟨_, _, .cons ht hts, .cons ht' hts', hcode.other (fun params body h => ?_)
      (fun params body h => ?_) hcodes⟩
    · obtain ⟨operands, hlambda⟩ := ht.isLambda_iff.1 ⟨params, body, h⟩
      exact hphrase operands hlambda
    · obtain ⟨operands, hlambda⟩ :=
        (hfirst.isLambda_iff hρ).2 (ht'.isLambda_iff.1 ⟨params, body, h⟩)
      exact hphrase operands hlambda

end

end Sexp

end Secd
