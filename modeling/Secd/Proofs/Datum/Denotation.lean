import Secd.Proofs.Datum.Held
import Secd.Proofs.Datum.Layout
import Secd.Proofs.Token.Printed

/-!
# The trees that data denote

What a datum denotes does not depend on the store into which it is read: up to cells it is the same
tree in every store. The tokens of a printed tree are those of a datum that denotes the tree. And
everything that the reader can produce consists of atoms that it can read, because the names of its
symbols come from tokens.
-/

namespace Secd

namespace Datum

mutual

/-- The tree that the datum denotes, all in one cell. -/
def tree : Datum → Sexp
  | .int n _ => .int n
  | .symbol name _ => .atom (Atom.ofName name)
  | .quoted d _ => .pair 0 (.symbol "QUOTE") (.pair 0 d.tree .nil)
  | .list items _ => treeOf items .nil
  | .dotted items tail _ => treeOf items tail.tree

/-- The list of the trees of data in front of a tail. -/
def treeOf : List Datum → (tail : Sexp) → Sexp
  | [], tail => tail
  | d :: ds, tail => .pair 0 d.tree (treeOf ds tail)

end

/-- A list of data in two parts. -/
theorem treeOf_append (ds ds' : List Datum) (tail : Sexp) :
    treeOf (ds ++ ds') tail = treeOf ds (treeOf ds' tail) := by
  induction ds with
  | nil => rfl
  | cons d ds ih => rw [List.cons_append, treeOf, treeOf, ih]

/-- Tails that are the same give lists that are the same. -/
theorem same_treeOf (ds : List Datum) {tail tail' : Sexp} (h : tail.same tail' = true) :
    (treeOf ds tail).same (treeOf ds tail') = true := by
  induction ds with
  | nil => exact h
  | cons d ds ih => rw [treeOf, treeOf, Sexp.same, d.tree.same_refl, ih, Bool.true_and]

mutual

/-- Building a datum in a store builds the tree that it denotes. -/
theorem same_build (s : Store) (map : SourceMap) :
    (d : Datum) → (d.build s map).1.same d.tree = true
  | .int _ _ => Atom.same_refl _
  | .symbol _ _ => Atom.same_refl _
  | .quoted d _ => by
    have hinner : (d.build s map).1.same d.tree = true := same_build s map d
    simp only [build, cons, Store.consTree_fst, tree, Sexp.same, hinner, Atom.same_refl,
      Bool.true_and]
  | .list items _ => by
    rw [build, tree]
    exact same_buildList s map (Sexp.same_refl .nil) items
  | .dotted items tail _ => by
    rw [build, tree]
    exact same_buildList _ _ (same_build s map tail) items

/-- Building data in front of a tail builds the list of their trees. -/
theorem same_buildList (s : Store) (map : SourceMap) {tail tail' : Sexp}
    (htail : tail.same tail' = true) :
    (ds : List Datum) → (buildList s map tail ds).1.same (treeOf ds tail') = true
  | [] => htail
  | d :: ds => by
    have hfirst : (d.build s map).1.same d.tree = true := same_build s map d
    have hothers := same_buildList (d.build s map).2.1 (d.build s map).2.2 htail ds
    rw [buildList, treeOf]
    exact Bool.and_eq_true_iff.2 ⟨hfirst, hothers⟩

end

/-- Reading a datum into a store gives the tree that it denotes. -/
theorem same_read (d : Datum) (s : Store) : (d.read s).1.expression.same d.tree = true :=
  same_build s .empty d

/-! ### The data of printed forms -/

open ParserState

/-- The tokens are those of a datum that denotes the tree, wherever a datum may stand. -/
def Written (ls : List Lexeme) (e : Sexp) : Prop :=
  ∃ d : Datum, d.tree.same e = true ∧ ∀ complete pending rest,
    parseFrom (.ready complete pending) (ls ++ rest) = parseFrom (supply complete d pending) rest

/-- The tokens complete every list that has been begun, and the datum denotes its items in front of
the tree. -/
def Completes (ls : List Lexeme) (e : Sexp) : Prop :=
  ∃ close : Nat → List Datum → Datum,
    (∀ start items, (close start items).tree.same (treeOf items e) = true) ∧
    ∀ complete start item items outer rest,
      parseFrom (.ready complete (.list start (item :: items) :: outer)) (ls ++ rest) =
        parseFrom (supply complete (close start (item :: items).reverse) outer) rest

/-- The token of an atom that can be read is a datum that denotes the atom. -/
theorem written_atom {a : Atom} (ha : a.Readable) {l : Lexeme} (hl : l.token = a.token) :
    Written [l] (.atom a) := by
  obtain ⟨token, span⟩ := l
  obtain rfl : token = a.token := hl
  cases a with
  | nil => exact ⟨.symbol "NIL" span, rfl, fun complete pending rest => parseFrom_cons _ _ _⟩
  | symbol name =>
    refine ⟨.symbol name span, ?_, fun complete pending rest => parseFrom_cons _ _ _⟩
    rw [tree, Atom.ofName, if_neg ha.2]
    exact Sexp.same_refl _
  | int n =>
    refine ⟨.int n span, Sexp.same_refl _, fun complete pending rest => parseFrom_cons _ _ _⟩
  | callable c => exact ha.elim

/-- A parenthesis completes a list that ends here. -/
theorem completes_nil {l : Lexeme} (hl : l.token = .rparen) : Completes [l] .nil := by
  obtain ⟨token, span⟩ := l
  obtain rfl : token = .rparen := hl
  refine ⟨fun start items => .list items ⟨start, span.stop⟩, fun _ _ => Sexp.same_refl _, ?_⟩
  intro complete start item items outer rest
  exact parseFrom_cons _ _ _

/-- A dot, a datum and a parenthesis complete a list with the datum as its tail. -/
theorem completes_dotted {dot rparen : Lexeme} {ls : List Lexeme} {e : Sexp}
    (hdot : dot.token = .dot) (hrparen : rparen.token = .rparen) (he : Written ls e) :
    Completes (dot :: (ls ++ [rparen])) e := by
  obtain ⟨d, hd, hparse⟩ := he
  obtain ⟨token, span⟩ := dot
  obtain rfl : token = .dot := hdot
  obtain ⟨token, span'⟩ := rparen
  obtain rfl : token = .rparen := hrparen
  refine ⟨fun start items => .dotted items d ⟨start, span'.stop⟩, fun _ items => ?_, ?_⟩
  · exact same_treeOf items hd
  · intro complete start item items outer rest
    calc parseFrom (.ready complete (.list start (item :: items) :: outer))
          (⟨.dot, span⟩ :: (ls ++ [⟨.rparen, span'⟩]) ++ rest)
        = parseFrom (.ready complete (.dotted start (item :: items) :: outer))
            (ls ++ (⟨.rparen, span'⟩ :: rest)) := by
          rw [List.cons_append, parseFrom_cons, List.append_assoc]
          rfl
      _ = parseFrom (.closing complete start (item :: items) d outer)
            (⟨.rparen, span'⟩ :: rest) := hparse _ _ _
      _ = _ := parseFrom_cons _ _ _

/-- One more item and what completes the list after it complete the list. -/
theorem Written.completes {ls ls' : List Lexeme} {c : Nat} {head tail : Sexp}
    (hhead : Written ls head) (htail : Completes ls' tail) :
    Completes (ls ++ ls') (.pair c head tail) := by
  obtain ⟨d, hd, hparse⟩ := hhead
  obtain ⟨close, hclose, hparse'⟩ := htail
  refine ⟨fun start items => close start (items ++ [d]), fun start items => ?_, ?_⟩
  · have hitem : (treeOf [d] tail).same (.pair c head tail) = true :=
      Bool.and_eq_true_iff.2 ⟨hd, tail.same_refl⟩
    have hitems := hclose start (items ++ [d])
    rw [treeOf_append] at hitems
    exact Sexp.same_trans hitems (same_treeOf items hitem)
  · intro complete start item items outer rest
    have hmore := hparse' complete start d (item :: items) outer rest
    rw [List.reverse_cons] at hmore
    rw [List.append_assoc, hparse]
    exact hmore

/-- A parenthesis, an item and what completes the list after it are a datum. -/
theorem Written.list {lparen : Lexeme} {ls ls' : List Lexeme} {c : Nat} {head tail : Sexp}
    (hlparen : lparen.token = .lparen) (hhead : Written ls head) (htail : Completes ls' tail) :
    Written (lparen :: (ls ++ ls')) (.pair c head tail) := by
  obtain ⟨d, hd, hparse⟩ := hhead
  obtain ⟨close, hclose, hparse'⟩ := htail
  obtain ⟨token, span⟩ := lparen
  obtain rfl : token = .lparen := hlparen
  refine ⟨close span.start [d], ?_, fun complete pending rest => ?_⟩
  · have hitem : (treeOf [d] tail).same (.pair c head tail) = true :=
      Bool.and_eq_true_iff.2 ⟨hd, tail.same_refl⟩
    exact Sexp.same_trans (hclose span.start [d]) hitem
  · calc parseFrom (.ready complete pending) (⟨.lparen, span⟩ :: (ls ++ ls') ++ rest)
        = parseFrom (.ready complete (.list span.start [] :: pending)) (ls ++ (ls' ++ rest)) := by
          rw [List.cons_append, parseFrom_cons, List.append_assoc]
          rfl
      _ = parseFrom (.ready complete (.list span.start [d] :: pending)) (ls' ++ rest) :=
          hparse _ _ _
      _ = _ := hparse' _ _ _ _ _ _

/-- The tokens that are written for a tree are those of a datum that denotes it, and those that are
written after the head of a list complete the list. -/
theorem written_of_tokens {e : Sexp} (he : e.AllAtoms Atom.Readable) (ls : List Lexeme) :
    (ls.map Lexeme.token = e.tokens → Written ls e) ∧
      (ls.map Lexeme.token = e.tailTokens → Completes ls e) := by
  induction e generalizing ls with
  | atom a =>
    constructor
    · intro hls
      obtain ⟨l, rfl, hl⟩ := List.map_eq_singleton_iff.1 hls
      exact written_atom he hl
    · intro hls
      have hdotted (hls : ls.map Lexeme.token = [.dot, a.token, .rparen]) :
          Completes ls (.atom a) := by
        obtain ⟨dot, ls, rfl, hdot, hls⟩ := List.map_eq_cons_iff.1 hls
        obtain ⟨l, ls, rfl, hl, hls⟩ := List.map_eq_cons_iff.1 hls
        obtain ⟨rparen, rfl, hrparen⟩ := List.map_eq_singleton_iff.1 hls
        exact completes_dotted hdot hrparen (written_atom he hl)
      cases a with
      | nil =>
        obtain ⟨l, rfl, hl⟩ := List.map_eq_singleton_iff.1 hls
        exact completes_nil hl
      | _ => exact hdotted hls
  | pair c head tail ihHead ihTail =>
    constructor
    · intro hls
      obtain ⟨lparen, ls, rfl, hlparen, hls⟩ := List.map_eq_cons_iff.1 hls
      obtain ⟨first, rest, rfl, hfirst, hrest⟩ := List.map_eq_append_iff.1 hls
      exact .list hlparen ((ihHead he.1 first).1 hfirst) ((ihTail he.2 rest).2 hrest)
    · intro hls
      obtain ⟨first, rest, rfl, hfirst, hrest⟩ := List.map_eq_append_iff.1 hls
      exact ((ihHead he.1 first).1 hfirst).completes ((ihTail he.2 rest).2 hrest)

/-! ### What can be read -/

/-- Every symbol among the tokens has a name of a symbol. -/
def Named (ls : List Lexeme) : Prop :=
  ∀ l ∈ ls, ∀ name, l.token = .symbol name → Token.isName name.toList = true

/-- The datum denotes a tree of atoms that can be read. -/
def Readable (d : Datum) : Prop := d.tree.AllAtoms Atom.Readable

/-- A list of data and a tail can be read if all of them can. -/
theorem readable_treeOf {ds : List Datum} {tail : Sexp} (hds : ∀ d ∈ ds, d.Readable)
    (htail : tail.AllAtoms Atom.Readable) : (treeOf ds tail).AllAtoms Atom.Readable := by
  induction ds with
  | nil => exact htail
  | cons d ds ih =>
    obtain ⟨hd, hds⟩ := List.forall_mem_cons.1 hds
    exact ⟨hd, ih hds⟩

/-- The same if the last one has been read first. -/
theorem readable_treeOf_reverse {ds : List Datum} {tail : Sexp} (hds : ∀ d ∈ ds, d.Readable)
    (htail : tail.AllAtoms Atom.Readable) : (treeOf ds.reverse tail).AllAtoms Atom.Readable :=
  readable_treeOf (fun d hd => hds d (List.mem_reverse.1 hd)) htail

/-- The name of a symbol, or that of the empty list, stands for an atom that can be read. -/
theorem readable_ofName {name : String} (h : Token.isName name.toList = true) :
    (Atom.ofName name).Readable := by
  rw [Atom.ofName]
  split
  · exact trivial
  · next hne => exact ⟨h, hne⟩

end Datum

/-- The items that the construct has received. -/
def Construct.items : Construct → List Datum
  | .quoted _ => []
  | .list _ items | .dotted _ items => items

namespace ParserState

/-- Everything that the parser has read denotes trees that can be read. -/
def Readable : ParserState → Prop
  | .ready complete pending =>
    (∀ d ∈ complete, d.Readable) ∧ ∀ c ∈ pending, ∀ d ∈ c.items, d.Readable
  | .closing complete _ items tail outer =>
    (∀ d ∈ complete, d.Readable) ∧ (∀ d ∈ items, d.Readable) ∧ tail.Readable ∧
      ∀ c ∈ outer, ∀ d ∈ c.items, d.Readable

/-- One more datum that can be read keeps the state so. -/
theorem readable_supply {complete : List Datum} {d : Datum} {pending : List Construct}
    (hcomplete : ∀ d ∈ complete, d.Readable) (hd : d.Readable)
    (hpending : ∀ c ∈ pending, ∀ d ∈ c.items, d.Readable) :
    (supply complete d pending).Readable := by
  induction pending generalizing d with
  | nil => exact ⟨List.forall_mem_cons.2 ⟨hd, hcomplete⟩, hpending⟩
  | cons c outer ih =>
    obtain ⟨hitems, houter⟩ := List.forall_mem_cons.1 hpending
    cases c with
    | quoted start => exact ih ⟨⟨by decide, by decide⟩, hd, trivial⟩ houter
    | list start items =>
      refine ⟨hcomplete, List.forall_mem_cons.2 ⟨?_, houter⟩⟩
      exact List.forall_mem_cons.2 ⟨hd, hitems⟩
    | dotted start items => exact ⟨hcomplete, hitems, hd, houter⟩

/-- One more token keeps everything that has been read such that it can be read. -/
theorem readable_of_step? {state next : ParserState} {l : Lexeme} (hstate : state.Readable)
    (hl : ∀ name, l.token = .symbol name → Token.isName name.toList = true)
    (hstep : state.step? l = some next) : next.Readable := by
  obtain ⟨token, span⟩ := l
  cases state with
  | ready complete pending =>
    obtain ⟨hcomplete, hpending⟩ := hstate
    cases token with
    | int n =>
      cases hstep
      exact readable_supply hcomplete (d := .int n span) trivial hpending
    | symbol name =>
      cases hstep
      have hname := Datum.readable_ofName (hl name rfl)
      exact readable_supply hcomplete (d := .symbol name span) hname hpending
    | quote =>
      cases hstep
      exact ⟨hcomplete, List.forall_mem_cons.2 ⟨by simp [Construct.items], hpending⟩⟩
    | lparen =>
      cases hstep
      exact ⟨hcomplete, List.forall_mem_cons.2 ⟨by simp [Construct.items], hpending⟩⟩
    | rparen =>
      -- only an open list may be closed
      rcases pending with _ | ⟨_ | ⟨start, items⟩ | _, outer⟩ <;> try cases hstep
      obtain ⟨hitems, houter⟩ := List.forall_mem_cons.1 hpending
      exact readable_supply hcomplete (d := .list _ ⟨start, span.stop⟩)
        (Datum.readable_treeOf_reverse hitems trivial) houter
    | dot =>
      -- a dot stands after an item of an open list
      rcases pending with _ | ⟨_ | ⟨start, _ | ⟨item, items⟩⟩ | _, outer⟩ <;> try cases hstep
      obtain ⟨hlist, houter⟩ := List.forall_mem_cons.1 hpending
      exact ⟨hcomplete, List.forall_mem_cons.2 ⟨hlist, houter⟩⟩
    | _ => cases hstep
  | closing complete start items tail outer =>
    obtain ⟨hcomplete, hitems, htail, houter⟩ := hstate
    cases token with
    | rparen =>
      cases hstep
      exact readable_supply hcomplete (d := .dotted _ tail ⟨start, span.stop⟩)
        (Datum.readable_treeOf_reverse hitems htail) houter
    | _ => cases hstep

end ParserState

namespace Datum

/-- The data that tokens consist of denote trees that can be read. -/
theorem readable_of_parseFrom {state : ParserState} {ls : List Lexeme} {data : List Datum}
    (hstate : state.Readable) (hls : Named ls) (hparse : parseFrom state ls = .ok data) :
    ∀ d ∈ data, d.Readable := by
  induction ls generalizing state with
  | nil =>
    obtain rfl := eq_ready_of_parseFrom_nil hparse
    exact fun d hd => hstate.1 d (List.mem_reverse.2 hd)
  | cons l rest ih =>
    obtain ⟨hl, hrest⟩ := List.forall_mem_cons.1 hls
    rw [parseFrom_cons] at hparse
    split at hparse
    · next hstep => exact ih (ParserState.readable_of_step? hstate hl hstep) hrest hparse
    · cases hparse

end Datum

end Secd
