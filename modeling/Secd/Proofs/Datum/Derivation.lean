import Secd.Proofs.Datum.Grammar

/-!
# What the parser has read is derived

Flattening a datum gives its tokens back, in the order of the text. The state of the parser is
flattened in the same way: what is complete comes first, and then the open constructs from the
outermost one to the innermost, each with the tokens that opened it. The invariant has two parts,
that this is what has been read so far, and that the tokens of every datum in the state are derived
from the grammar. So the parser can only end with a program.
-/

namespace Secd

open Grammar

namespace Datum

mutual

/-- The tokens of which the datum was read. -/
def tokens : Datum → List Token
  | .int n _ => [.int n]
  | .symbol name _ => [.symbol name]
  | .quoted d _ => .quote :: d.tokens
  | .list items _ => .lparen :: (tokensOf items ++ [.rparen])
  | .dotted items tail _ => .lparen :: (tokensOf items ++ .dot :: (tail.tokens ++ [.rparen]))

/-- The tokens of several data, one after the other. -/
def tokensOf : List Datum → List Token
  | [] => []
  | d :: ds => d.tokens ++ tokensOf ds

end

/-- The tokens of several data are put together from those of each. -/
theorem tokensOf_eq_flatten (ds : List Datum) : tokensOf ds = (ds.map tokens).flatten := by
  induction ds with
  | nil => rfl
  | cons d ds ih => rw [tokensOf, ih, List.map_cons, List.flatten_cons]

/-- The tokens of data in two parts. -/
@[simp] theorem tokensOf_append (ds ds' : List Datum) :
    tokensOf (ds ++ ds') = tokensOf ds ++ tokensOf ds' := by
  simp [tokensOf_eq_flatten]

/-- The tokens of one datum. -/
@[simp] theorem tokensOf_singleton (d : Datum) : tokensOf [d] = d.tokens := by
  rw [tokensOf, tokensOf, List.append_nil]

/-- The tokens of the datum are derived from the grammar. -/
def Derived (d : Datum) : Prop := DerivesDatum d.tokens

/-- Derived data form a program. -/
theorem derivesProgram_tokensOf {ds : List Datum} (h : ∀ d ∈ ds, d.Derived) :
    DerivesProgram (tokensOf ds) :=
  ⟨ds.map tokens, tokensOf_eq_flatten ds, List.forall_mem_map.2 h⟩

/-- A list of derived data is derived, and so is the empty list. -/
theorem derived_list {items : List Datum} (hitems : ∀ d ∈ items, d.Derived) (span : Span) :
    (Datum.list items span).Derived := by
  rw [Derived, tokens]
  cases items with
  | nil => exact .empty
  | cons d ds =>
    rw [tokensOf_eq_flatten]
    exact .list (List.cons_ne_nil _ _) (List.forall_mem_map.2 hitems)

/-- A list of some derived data with a derived tail is derived. -/
theorem derived_dotted {items : List Datum} {tail : Datum} (hne : items ≠ [])
    (hitems : ∀ d ∈ items, d.Derived) (htail : tail.Derived) (span : Span) :
    (Datum.dotted items tail span).Derived := by
  rw [Derived, tokens, tokensOf_eq_flatten]
  refine .dotted ?_ (List.forall_mem_map.2 hitems) htail
  exact fun h => hne (List.map_eq_nil_iff.1 h)

end Datum

namespace Construct

/-- The tokens that have been read since the construct began, apart from the constructs inside. -/
def tokens : Construct → List Token
  | .quoted _ => [.quote]
  | .list _ items => .lparen :: Datum.tokensOf items.reverse
  | .dotted _ items => .lparen :: (Datum.tokensOf items.reverse ++ [.dot])

/-- The items of the construct are derived, and a dot stands after some of them. -/
def Derived : Construct → Prop
  | .quoted _ => True
  | .list _ items => ∀ d ∈ items, d.Derived
  | .dotted _ items => items ≠ [] ∧ ∀ d ∈ items, d.Derived

end Construct

namespace ParserState

/-- The tokens that have been read. -/
def tokens : ParserState → List Token
  | .ready complete pending =>
    Datum.tokensOf complete.reverse ++ (pending.reverse.map Construct.tokens).flatten
  | .closing complete start items tail outer =>
    Datum.tokensOf complete.reverse ++ (outer.reverse.map Construct.tokens).flatten ++
      ((Construct.dotted start items).tokens ++ tail.tokens)

/-- All data in the state are derived. -/
def Derived : ParserState → Prop
  | .ready complete pending =>
    (∀ d ∈ complete, d.Derived) ∧ ∀ c ∈ pending, c.Derived
  | .closing complete start items tail outer =>
    (∀ d ∈ complete, d.Derived) ∧ (Construct.dotted start items).Derived ∧ tail.Derived ∧
      ∀ c ∈ outer, c.Derived

/-- The tokens of a state with one more construct. -/
theorem tokens_ready_cons (complete : List Datum) (c : Construct) (outer : List Construct) :
    (ready complete (c :: outer)).tokens = (ready complete outer).tokens ++ c.tokens := by
  simp [tokens]

/-- A datum adds its tokens to those that have been read. -/
theorem tokens_supply (complete : List Datum) (d : Datum) (pending : List Construct) :
    (supply complete d pending).tokens = (ready complete pending).tokens ++ d.tokens := by
  induction pending generalizing d with
  | nil => simp [supply, tokens]
  | cons c outer ih =>
    rw [tokens_ready_cons]
    cases c with
    | quoted start =>
      rw [supply, ih, List.append_assoc]
      rfl
    | list start items => simp [supply, tokens, Construct.tokens]
    | dotted start items => simp [supply, tokens, Construct.tokens]

/-- A derived datum keeps all data in the state derived. -/
theorem derived_supply {complete : List Datum} {d : Datum} {pending : List Construct}
    (hcomplete : ∀ d ∈ complete, d.Derived) (hd : d.Derived)
    (hpending : ∀ c ∈ pending, c.Derived) : (supply complete d pending).Derived := by
  induction pending generalizing d with
  | nil => exact ⟨List.forall_mem_cons.2 ⟨hd, hcomplete⟩, hpending⟩
  | cons c outer ih =>
    obtain ⟨hc, houter⟩ := List.forall_mem_cons.1 hpending
    cases c with
    | quoted start => exact ih (d := .quoted d _) (.quoted hd) houter
    | list start items =>
      have hitems : Construct.Derived (.list start (d :: items)) :=
        List.forall_mem_cons.2 ⟨hd, hc⟩
      exact ⟨hcomplete, List.forall_mem_cons.2 ⟨hitems, houter⟩⟩
    | dotted start items => exact ⟨hcomplete, hc, hd, houter⟩

/-- The state is what the parser knows after the tokens: it has read them, and all data in it are
derived. -/
structure Knows (state : ParserState) (ts : List Token) : Prop where
  read : state.tokens = ts
  derived : state.Derived

/-- Nothing is known before the first token. -/
theorem knows_start : start.Knows [] := by
  refine ⟨rfl, ?_, ?_⟩
  · exact List.forall_mem_nil _
  · exact List.forall_mem_nil _

/-- What is known with one more datum. -/
theorem knows_supply {complete : List Datum} {d : Datum} {pending : List Construct}
    {ts : List Token} (hcomplete : ∀ d ∈ complete, d.Derived) (hd : d.Derived)
    (hpending : ∀ c ∈ pending, c.Derived)
    (hts : (ready complete pending).tokens ++ d.tokens = ts) :
    (supply complete d pending).Knows ts :=
  ⟨(tokens_supply complete d pending).trans hts, derived_supply hcomplete hd hpending⟩

/-- What is known with one more token. -/
theorem Knows.of_step? {state next : ParserState} {l : Lexeme} {ts : List Token}
    (h : state.Knows ts) (hstep : state.step? l = some next) : next.Knows (ts ++ [l.token]) := by
  obtain ⟨rfl, hderived⟩ := h
  obtain ⟨token, span⟩ := l
  cases state with
  | ready complete pending =>
    obtain ⟨hcomplete, hpending⟩ := hderived
    cases token with
    | int n =>
      cases hstep
      exact knows_supply hcomplete (d := .int n span) (.int n) hpending rfl
    | symbol name =>
      cases hstep
      exact knows_supply hcomplete (d := .symbol name span) (.symbol name) hpending rfl
    | quote =>
      cases hstep
      refine ⟨tokens_ready_cons complete _ pending, hcomplete, ?_⟩
      exact List.forall_mem_cons.2 ⟨trivial, hpending⟩
    | lparen =>
      cases hstep
      refine ⟨tokens_ready_cons complete _ pending, hcomplete, ?_⟩
      exact List.forall_mem_cons.2 ⟨List.forall_mem_nil _, hpending⟩
    | rparen =>
      -- only an open list may be closed
      rcases pending with _ | ⟨_ | ⟨start, items⟩ | _, outer⟩ <;> try cases hstep
      obtain ⟨hitems, houter⟩ := List.forall_mem_cons.1 hpending
      have hreverse : ∀ d ∈ items.reverse, d.Derived := fun d hd => hitems d (List.mem_reverse.1 hd)
      refine knows_supply hcomplete (Datum.derived_list hreverse _) houter ?_
      rw [tokens_ready_cons, List.append_assoc]
      rfl
    | dot =>
      -- a dot stands after an item of an open list
      rcases pending with _ | ⟨_ | ⟨start, _ | ⟨item, items⟩⟩ | _, outer⟩ <;> try cases hstep
      obtain ⟨hitems, houter⟩ := List.forall_mem_cons.1 hpending
      refine ⟨?_, hcomplete, List.forall_mem_cons.2 ⟨⟨List.cons_ne_nil _ _, hitems⟩, houter⟩⟩
      rw [tokens_ready_cons, tokens_ready_cons, List.append_assoc]
      rfl
    | _ => cases hstep
  | closing complete start items tail outer =>
    obtain ⟨hcomplete, ⟨hne, hitems⟩, htail, houter⟩ := hderived
    cases token with
    | rparen =>
      cases hstep
      have hreverse : ∀ d ∈ items.reverse, d.Derived := fun d hd => hitems d (List.mem_reverse.1 hd)
      have hsome : items.reverse ≠ [] := fun h => hne (List.reverse_eq_nil_iff.1 h)
      refine knows_supply hcomplete (Datum.derived_dotted hsome hreverse htail _) houter ?_
      simp [tokens, Datum.tokens, Construct.tokens]
    | _ => cases hstep

end ParserState

end Secd
