import Secd.Proofs.Term.Resolution
import Secd.Proofs.Term.WellFormed

/-!
# The names that a list binds

A list of parameters or of bindings is accepted exactly if it has the form that belongs to it and
its names can be bound together. The converse of what is known of resolved expressions is proved
here: a list of that form is accepted, and any other one has an error.
-/

namespace Secd

namespace Binder

/-- An item can be bound after others if it is a symbol that is not reserved, and none of these. -/
theorem name_eq_ok_iff {earlier : List String} {item : Sexp} {n : String} :
    name earlier item = .ok n ↔
      item = .symbol n ∧ Keyword.isReserved n = false ∧ n ∉ earlier := by
  constructor
  · intro h
    rw [name.eq_def] at h
    split at h
    · next found =>
      by_cases hreserved : Keyword.isReserved found = true
      · rw [if_pos hreserved] at h
        cases h
      by_cases hmem : found ∈ earlier
      · rw [if_neg hreserved, if_pos hmem] at h
        cases h
      · rw [if_neg hreserved, if_neg hmem] at h
        obtain rfl := Except.ok.inj h
        exact ⟨rfl, Bool.eq_false_iff.2 hreserved, hmem⟩
    · cases h
    · cases h
  · rintro ⟨rfl, hfree, hnew⟩
    rw [name, if_neg (Bool.eq_false_iff.1 hfree), if_neg hnew]

/-- Items can be bound together after others if they are symbols whose names are different, not
reserved, and not among the earlier ones. -/
theorem namesFrom_eq_ok_iff {earlier : List String} {items : List Sexp} {names : List String} :
    namesFrom earlier items = .ok names ↔ Sexp.symbolNames? items = some names ∧
      names.Nodup ∧ ∀ n ∈ names, Keyword.isReserved n = false ∧ n ∉ earlier := by
  induction items generalizing earlier names with
  | nil =>
    constructor
    · intro h
      obtain rfl := Except.ok.inj h
      exact ⟨rfl, List.nodup_nil, List.forall_mem_nil _⟩
    · rintro ⟨h, -, -⟩
      exact congrArg Except.ok (Option.some.inj h)
  | cons item items ih =>
    rw [namesFrom]
    constructor
    · intro h
      cases hname : name earlier item with
      | error fault => rw [hname] at h; cases h
      | ok first =>
        rw [hname] at h
        cases hothers : namesFrom (first :: earlier) items with
        | error fault =>
          simp only [hothers, bind, Except.bind] at h
          cases h
        | ok others =>
          simp only [hothers, bind, Except.bind] at h
          obtain rfl := Except.ok.inj h
          obtain ⟨rfl, hfree, hnew⟩ := name_eq_ok_iff.1 hname
          obtain ⟨hsymbols, hnodup, hall⟩ := ih.1 hothers
          have hfirst : first ∉ others :=
            fun hmem => (hall first hmem).2 List.mem_cons_self
          refine ⟨?_, List.nodup_cons.2 ⟨hfirst, hnodup⟩, ?_⟩
          · rw [Sexp.symbolNames?, hsymbols]
            rfl
          · refine List.forall_mem_cons.2 ⟨⟨hfree, hnew⟩, fun n hn => ?_⟩
            exact ⟨(hall n hn).1, fun hmem => (hall n hn).2 (List.mem_cons_of_mem _ hmem)⟩
    · rintro ⟨hsymbols, hnodup, hall⟩
      rw [Sexp.symbolNames?.eq_def] at hsymbols
      split at hsymbols
      · next heq => cases heq
      · next first rest heq =>
        obtain ⟨others, hothers, rfl⟩ := Option.map_eq_some_iff.1 hsymbols
        obtain ⟨rfl, rfl⟩ := List.cons.inj heq
        obtain ⟨hfirst, hnodup⟩ := List.nodup_cons.1 hnodup
        obtain ⟨⟨hfree, hnew⟩, hall⟩ := List.forall_mem_cons.1 hall
        have hname : name earlier (.symbol first) = .ok first :=
          name_eq_ok_iff.2 ⟨rfl, hfree, hnew⟩
        have hrest : namesFrom (first :: earlier) items = .ok others := by
          refine ih.2 ⟨hothers, hnodup, fun n hn => ⟨(hall n hn).1, ?_⟩⟩
          intro hmem
          rcases List.mem_cons.1 hmem with rfl | hmem
          · exact hfirst hn
          · exact (hall n hn).2 hmem
        rw [hname]
        simp only [bind, Except.bind, hrest]
      · cases hsymbols

/-- Items can be bound together if they are symbols and their names can be bound together. -/
theorem names_eq_ok_iff {items : List Sexp} {found : List String} :
    names items = .ok found ↔ Sexp.symbolNames? items = some found ∧ Bindable found := by
  rw [names, namesFrom_eq_ok_iff]
  constructor
  · rintro ⟨hsymbols, hnodup, hall⟩
    exact ⟨hsymbols, hnodup, fun n hn => (hall n hn).1⟩
  · rintro ⟨hsymbols, hnodup, hfree⟩
    exact ⟨hsymbols, hnodup, fun n hn => ⟨hfree n hn, List.not_mem_nil⟩⟩

/-- A list of parameters can be bound if its items are symbols that can be bound together. -/
theorem ofList_eq_ok_iff {params : Sexp} {found : List String} :
    ofList params = .ok found ↔ params.params? = some found ∧ Bindable found := by
  constructor
  · intro h
    refine ⟨Term.params?_of_ofList h, ?_⟩
    rw [ofList] at h
    cases hnames : names (params.items.1.map Prod.snd) with
    | error fault =>
      simp only [hnames, bind, Except.bind] at h
      cases h
    | ok bound =>
      simp only [hnames, bind, Except.bind] at h
      split at h
      · obtain rfl := Except.ok.inj h
        exact (names_eq_ok_iff.1 hnames).2
      · cases h
  · rintro ⟨hparams, hbindable⟩
    obtain ⟨list, hlist, hsymbols⟩ := Option.bind_eq_some_iff.1 hparams
    obtain ⟨items, hitems, rfl⟩ := Option.map_eq_some_iff.1 hlist
    have hnames : names (items.map Prod.snd) = .ok found :=
      names_eq_ok_iff.2 ⟨hsymbols, hbindable⟩
    rw [Sexp.items?] at hitems
    rw [ofList]
    split at hitems
    · next heq =>
      obtain rfl := Option.some.inj hitems
      rw [heq]
      simp only [hnames, bind, Except.bind]
    · cases hitems

end Binder

namespace Term

/-- Items that are arms stand for the names in them. -/
theorem armNames_eq_ok (map : SourceMap) {items : List (Nat × Sexp)} {arms : List (String × Sexp)}
    (h : Sexp.armsOf? (items.map Prod.snd) = some arms) :
    ∃ bound, armNames map items = .ok bound ∧
      Sexp.symbolNames? bound = some (arms.map Prod.fst) := by
  induction items generalizing arms with
  | nil =>
    obtain rfl := Option.some.inj h
    exact ⟨[], rfl, rfl⟩
  | cons item rest ih =>
    obtain ⟨cell, arm⟩ := item
    rw [List.map_cons, Sexp.armsOf?] at h
    split at h
    · next name init harm =>
      obtain ⟨others, hothers, rfl⟩ := Option.map_eq_some_iff.1 h
      obtain ⟨bound, hbound, hsymbols⟩ := ih hothers
      obtain ⟨items, hitems, hpair⟩ := Option.map_eq_some_iff.1 harm
      obtain ⟨⟨a, x⟩, ⟨b, y⟩, rfl⟩ := List.length_eq_two.1 (by
        rw [← List.length_map (f := Prod.snd), hpair]
        rfl : items.length = 2)
      obtain ⟨rfl, rfl⟩ : x = .symbol name ∧ y = init := by simpa using hpair
      refine ⟨.symbol name :: bound, ?_, ?_⟩
      · rw [armNames, hitems]
        dsimp only
        rw [hbound]
        rfl
      · rw [Sexp.symbolNames?, hsymbols]
        rfl
    · cases h

/-- A list of bindings can be bound if its items are arms whose names can be bound together. -/
theorem boundNames_eq_ok_iff {map : SourceMap} {bindings : Sexp} {span : Option Span}
    {names : List String} : boundNames map bindings span = .ok names ↔
      ∃ arms, bindings.arms? = some arms ∧ arms.map Prod.fst = names ∧ Bindable names := by
  constructor
  · intro h
    obtain ⟨arms, harms, hfst⟩ := exists_arms_of_boundNames h
    refine ⟨arms, harms, hfst, ?_⟩
    rw [boundNames] at h
    split at h
    · cases h
    · next items hitems =>
      cases hbound : armNames map items with
      | error errors => rw [hbound] at h; cases h
      | ok bound =>
        rw [hbound] at h
        dsimp only [bind, Except.bind] at h
        split at h
        · next hnames =>
          obtain rfl := Except.ok.inj h
          exact (Binder.names_eq_ok_iff.1 hnames).2
        · cases h
  · rintro ⟨arms, harms, rfl, hbindable⟩
    obtain ⟨list, hlist, harms⟩ := Option.bind_eq_some_iff.1 harms
    obtain ⟨items, hitems, rfl⟩ := Option.map_eq_some_iff.1 hlist
    obtain ⟨bound, hbound, hsymbols⟩ := armNames_eq_ok map harms
    have hnames : Binder.names bound = .ok (arms.map Prod.fst) :=
      Binder.names_eq_ok_iff.2 ⟨hsymbols, hbindable⟩
    rw [boundNames, hitems]
    dsimp only
    rw [hbound]
    simp only [bind, Except.bind, hnames]

/-- A list that stands for no names has an error. -/
theorem armNames_ne_error_nil (map : SourceMap) (items : List (Nat × Sexp)) :
    armNames map items ≠ .error [] := by
  intro h
  induction items with
  | nil => cases h
  | cons item rest ih =>
    rw [armNames] at h
    split at h
    · cases hrest : armNames map rest with
      | ok others => rw [hrest] at h; cases h
      | error errors =>
        rw [hrest] at h
        obtain rfl := Except.error.inj h
        exact ih hrest
    · cases h

/-- Binders that cannot be bound have an error. -/
theorem boundNames_ne_error_nil (map : SourceMap) (bindings : Sexp) (span : Option Span) :
    boundNames map bindings span ≠ .error [] := by
  intro h
  rw [boundNames] at h
  split at h
  · cases h
  · next items _ =>
    have hne := armNames_ne_error_nil map items
    cases hbound : armNames map items with
    | error errors =>
      rw [hbound] at h
      obtain rfl := Except.error.inj h
      exact hne hbound
    | ok bound =>
      simp only [hbound, bind, Except.bind] at h
      split at h <;> cases h

end Term

end Secd
