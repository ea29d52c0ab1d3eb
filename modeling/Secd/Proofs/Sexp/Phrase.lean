import Secd.Keyword
import Secd.Proofs.Sexp.Items
import Secd.Proofs.Store.Tree

/-!
# Phrases

How an expression is to be read: as a constant, a variable, a form with its operands, or a call.
Nothing is said yet about the names in it, or about what the operands of a form have to be.
-/

namespace Secd

/-- The ways of reading an expression. -/
inductive Phrase where
  | constant (a : Atom)
  | variable (name : String)
  | form (keyword : Keyword) (operands : List Sexp)
  | call (function : Sexp) (args : List Sexp)
  /-- A list that does not end in the empty list. -/
  | improper

namespace Sexp

/-- How the expression is to be read. -/
def phrase : Sexp → Phrase
  | .symbol name => .variable name
  | .atom a => .constant a
  | .pair _ head tail =>
    match Keyword.ofSexp? head, tail.list? with
    | some keyword, some operands => .form keyword operands
    | none, some args => .call head args
    | _, none => .improper

/-! ### Lists of names and of bindings -/

/-- The names of a list of symbols. -/
def symbolNames? : List Sexp → Option (List String)
  | [] => some []
  | .symbol name :: rest => (symbolNames? rest).map (name :: ·)
  | _ => none

/-- The names that a list of parameters binds. -/
def params? (e : Sexp) : Option (List String) := e.list?.bind symbolNames?

/-- The names and the expressions of arms, each a list of two items. -/
def armsOf? : List Sexp → Option (List (String × Sexp))
  | [] => some []
  | arm :: rest =>
    match arm.list? with
    | some [.symbol name, init] => (armsOf? rest).map ((name, init) :: ·)
    | _ => none

/-- The names that a list of bindings binds, and the expressions for their values. -/
def arms? (e : Sexp) : Option (List (String × Sexp)) := e.list?.bind armsOf?

/-! ### The parts of a phrase -/

/-- The operands of a form are the items after its head. -/
theorem list?_of_phrase_form {e : Sexp} {keyword : Keyword} {operands : List Sexp}
    (h : e.phrase = .form keyword operands) :
    ∃ cell head tail, e = .pair cell head tail ∧ tail.list? = some operands := by
  cases e with
  | atom a => cases a <;> cases h
  | pair cell head tail =>
    refine ⟨cell, head, tail, rfl, ?_⟩
    rw [phrase] at h
    split at h
    · next hlist => rw [hlist, (Phrase.form.inj h).2]
    · cases h
    · cases h

/-- The function of a call is its head, and the arguments are the items after it. -/
theorem list?_of_phrase_call {e function : Sexp} {args : List Sexp}
    (h : e.phrase = .call function args) :
    ∃ cell tail, e = .pair cell function tail ∧ tail.list? = some args := by
  cases e with
  | atom a => cases a <;> cases h
  | pair cell head tail =>
    rw [phrase] at h
    split at h
    · cases h
    · next hlist =>
      obtain ⟨rfl, rfl⟩ := Phrase.call.inj h
      exact ⟨cell, tail, rfl, hlist⟩
    · cases h

/-- The operands of a form are less high than the form. -/
theorem height_lt_of_phrase_form {e : Sexp} {keyword : Keyword} {operands : List Sexp}
    (h : e.phrase = .form keyword operands) {x : Sexp} (hx : x ∈ operands) :
    x.height < e.height := by
  obtain ⟨cell, head, tail, rfl, hlist⟩ := list?_of_phrase_form h
  have hlt : x.height < tail.height := height_lt_of_mem_list? hlist hx
  rw [height]
  omega

/-- The function of a call is less high than the call. -/
theorem height_lt_of_phrase_call {e function : Sexp} {args : List Sexp}
    (h : e.phrase = .call function args) :
    function.height < e.height ∧ ∀ arg ∈ args, arg.height < e.height := by
  obtain ⟨cell, tail, rfl, hlist⟩ := list?_of_phrase_call h
  rw [height]
  constructor
  · omega
  · intro arg harg
    have hlt : arg.height < tail.height := height_lt_of_mem_list? hlist harg
    omega

/-- Every symbol of a list of symbols has one name. -/
theorem length_symbolNames? {list : List Sexp} {names : List String}
    (hnames : symbolNames? list = some names) : names.length = list.length := by
  induction list generalizing names with
  | nil =>
    obtain rfl := Option.some.inj hnames
    rfl
  | cons item rest ih =>
    rw [symbolNames?.eq_def] at hnames
    split at hnames
    · next heq => cases heq
    · next heq =>
      obtain ⟨others, hothers, rfl⟩ := Option.map_eq_some_iff.1 hnames
      obtain ⟨-, rfl⟩ := List.cons.inj heq
      rw [List.length_cons, List.length_cons, ih hothers]
    · cases hnames

/-- A list binds no more names than it is high. -/
theorem length_le_height_of_params? {e : Sexp} {names : List String}
    (h : e.params? = some names) : names.length ≤ e.height := by
  obtain ⟨list, hlist, hnames⟩ := Option.bind_eq_some_iff.1 h
  rw [length_symbolNames? hnames]
  exact length_le_height hlist

/-- Every list of a list of arms is one arm. -/
theorem length_armsOf? {list : List Sexp} {arms : List (String × Sexp)}
    (harms : armsOf? list = some arms) : arms.length = list.length := by
  induction list generalizing arms with
  | nil =>
    obtain rfl := Option.some.inj harms
    rfl
  | cons arm rest ih =>
    rw [armsOf?] at harms
    split at harms
    · obtain ⟨others, hothers, rfl⟩ := Option.map_eq_some_iff.1 harms
      rw [List.length_cons, List.length_cons, ih hothers]
    · cases harms

/-- A list of bindings has no more arms than it is high. -/
theorem length_le_height_of_arms? {e : Sexp} {arms : List (String × Sexp)}
    (h : e.arms? = some arms) : arms.length ≤ e.height := by
  obtain ⟨list, hlist, harms⟩ := Option.bind_eq_some_iff.1 h
  rw [length_armsOf? harms]
  exact length_le_height hlist

/-- An arm is a list of its name and its expression. -/
theorem exists_arm_of_mem {list : List Sexp} {arms : List (String × Sexp)}
    (harms : armsOf? list = some arms) {name : String} {init : Sexp} (hmem : (name, init) ∈ arms) :
    ∃ arm ∈ list, arm.list? = some [.symbol name, init] := by
  induction list generalizing arms with
  | nil =>
    obtain rfl := Option.some.inj harms
    cases hmem
  | cons arm rest ih =>
    rw [armsOf?] at harms
    split at harms
    · next hitems =>
      obtain ⟨others, hothers, rfl⟩ := Option.map_eq_some_iff.1 harms
      rcases List.mem_cons.1 hmem with hmem | hmem
      · obtain ⟨rfl, rfl⟩ := Prod.mk.inj hmem
        exact ⟨arm, List.mem_cons_self, hitems⟩
      · obtain ⟨arm', harm', hitem⟩ := ih hothers hmem
        exact ⟨arm', List.mem_cons_of_mem _ harm', hitem⟩
    · cases harms

/-- The expressions of bindings are less high than the list of bindings. -/
theorem height_lt_of_mem_arms {e : Sexp} {arms : List (String × Sexp)} (h : e.arms? = some arms)
    {init : Sexp} (hinit : init ∈ arms.map Prod.snd) : init.height < e.height := by
  obtain ⟨list, hlist, harms⟩ := Option.bind_eq_some_iff.1 h
  obtain ⟨⟨name, _⟩, hmem, rfl⟩ := List.mem_map.1 hinit
  obtain ⟨arm, harm, hitems⟩ := exists_arm_of_mem harms hmem
  have hinit := height_lt_of_mem_list? hitems (List.mem_cons_of_mem _ List.mem_cons_self)
  exact Nat.lt_trans hinit (height_lt_of_mem_list? hlist harm)

end Sexp

namespace Store

variable {s : Store}

/-- The operands of a held form are held. -/
theorem Holds.of_phrase_form {e : Sexp} (he : s.Holds e) {keyword : Keyword}
    {operands : List Sexp} (h : e.phrase = .form keyword operands) {x : Sexp}
    (hx : x ∈ operands) : s.Holds x := by
  obtain ⟨cell, head, tail, rfl, hlist⟩ := Sexp.list?_of_phrase_form h
  exact he.2.2.2.of_mem_list? hlist hx

/-- The function and the arguments of a held call are held. -/
theorem Holds.of_phrase_call {e : Sexp} (he : s.Holds e) {function : Sexp} {args : List Sexp}
    (h : e.phrase = .call function args) : s.Holds function ∧ ∀ arg ∈ args, s.Holds arg := by
  obtain ⟨cell, tail, rfl, hlist⟩ := Sexp.list?_of_phrase_call h
  exact ⟨he.2.2.1, fun arg => he.2.2.2.of_mem_list? hlist⟩

/-- The expressions of held bindings are held. -/
theorem Holds.of_mem_arms {e : Sexp} (he : s.Holds e) {arms : List (String × Sexp)}
    (h : e.arms? = some arms) {init : Sexp} (hinit : init ∈ arms.map Prod.snd) :
    s.Holds init := by
  obtain ⟨list, hlist, harms⟩ := Option.bind_eq_some_iff.1 h
  obtain ⟨⟨name, _⟩, hmem, rfl⟩ := List.mem_map.1 hinit
  obtain ⟨arm, harm, hitems⟩ := Sexp.exists_arm_of_mem harms hmem
  exact (he.of_mem_list? hlist harm).of_mem_list? hitems
    (List.mem_cons_of_mem _ List.mem_cons_self)

end Store

end Secd
