import Secd.Proofs.Datum.Charted
import Secd.Proofs.Datum.Spelling

/-!
# Where the cells of a reading come from

Every cell of what is read has a part of the text for its head. Mostly this is a datum that denotes
the head. Only the cell of the symbol of a quoted datum has the quote mark instead. Such a cell
begins a list, the one that the quoted datum denotes; and it is the tail of another cell only if the
quoted datum is written after a dot.
-/

namespace Secd

namespace Datum

mutual

/-- The datum and all data in it. -/
def parts : Datum → List Datum
  | .int n span => [.int n span]
  | .symbol name span => [.symbol name span]
  | .quoted d span => .quoted d span :: d.parts
  | .list items span => .list items span :: partsOfAll items
  | .dotted items tail span => .dotted items tail span :: (partsOfAll items ++ tail.parts)

/-- The data and all data in them. -/
def partsOfAll : List Datum → List Datum
  | [] => []
  | d :: ds => d.parts ++ partsOfAll ds

end

/-- A datum is a part of itself. -/
theorem mem_parts_self (d : Datum) : d ∈ d.parts := by
  cases d <;> exact List.mem_cons_self

mutual

/-- The tokens of every part of a datum are among those of the datum. -/
theorem exists_infix_of_mem_parts {ls : List Lexeme} {part : Datum} : (d : Datum) → d.Spells ls →
    part ∈ d.parts → ∃ own, own <:+: ls ∧ part.Spells own
  | .int n span, hd, hpart => by
    obtain rfl := List.mem_singleton.1 hpart
    exact ⟨ls, List.infix_refl ls, hd⟩
  | .symbol name span, hd, hpart => by
    obtain rfl := List.mem_singleton.1 hpart
    exact ⟨ls, List.infix_refl ls, hd⟩
  | .quoted d span, hd, hpart => by
    rcases List.mem_cons.1 hpart with rfl | hpart
    · exact ⟨ls, List.infix_refl ls, hd⟩
    · obtain ⟨mark, inner, rfl, -, hinner⟩ := hd
      obtain ⟨own, hown, hspells⟩ := exists_infix_of_mem_parts d hinner hpart
      exact ⟨own, hown.trans (List.suffix_cons _ inner).isInfix, hspells⟩
  | .list items span, hd, hpart => by
    rcases List.mem_cons.1 hpart with rfl | hpart
    · exact ⟨ls, List.infix_refl ls, hd⟩
    · obtain ⟨left, inner, right, rfl, -, hinner⟩ := hd
      obtain ⟨own, hown, hspells⟩ := exists_infix_of_mem_partsOfAll items hinner hpart
      exact ⟨own, hown.trans (List.infix_append [_] inner _), hspells⟩
  | .dotted items tail span, hd, hpart => by
    rcases List.mem_cons.1 hpart with rfl | hpart
    · exact ⟨ls, List.infix_refl ls, hd⟩
    · obtain ⟨left, inner, dot, last, right, rfl, -, -, hinner, htail⟩ := hd
      rcases List.mem_append.1 hpart with hpart | hpart
      · obtain ⟨own, hown, hspells⟩ := exists_infix_of_mem_partsOfAll items hinner hpart
        exact ⟨own, hown.trans (List.infix_append [_] inner _), hspells⟩
      · obtain ⟨own, hown, hspells⟩ := exists_infix_of_mem_parts tail htail hpart
        have hlast : last <:+: ⟨.dot, dot⟩ :: (last ++ [⟨.rparen, right⟩]) :=
          List.infix_append [_] last _
        exact ⟨own, (hown.trans hlast).trans (List.suffix_append (_ :: inner) _).isInfix, hspells⟩

/-- The tokens of every part of several data are among those of the data. -/
theorem exists_infix_of_mem_partsOfAll {ls : List Lexeme} {part : Datum} : (ds : List Datum) →
    SpellsAll ds ls → part ∈ partsOfAll ds → ∃ own, own <:+: ls ∧ part.Spells own
  | [], _, hpart => nomatch hpart
  | d :: ds, hds, hpart => by
    obtain ⟨first, rest, rfl, hfirst, hrest⟩ := hds
    rcases List.mem_append.1 hpart with hpart | hpart
    · obtain ⟨own, hown, hspells⟩ := exists_infix_of_mem_parts d hfirst hpart
      exact ⟨own, hown.trans (List.prefix_append first rest).isInfix, hspells⟩
    · obtain ⟨own, hown, hspells⟩ := exists_infix_of_mem_partsOfAll ds hrest hpart
      exact ⟨own, hown.trans (List.suffix_append first rest).isInfix, hspells⟩

end

/-- The expression was written at the span, where there is one of the given data or the quote mark
of one. If the expression is in the head of a cell that is a tail, and was written as a quote mark,
then the quoted datum stands after a dot. -/
inductive Site (parts : List Datum) : (isTail : Bool) → Sexp → Span → Prop where
  | datum {isTail : Bool} {e : Sexp} {d : Datum} (hd : d ∈ parts) (hsame : e.same d.tree = true) :
      Site parts isTail e d.span
  | mark {isTail : Bool} {d : Datum} {span : Span} (hd : .quoted d span ∈ parts)
      (hdot : isTail = true → ∃ items whole, .dotted items (.quoted d span) whole ∈ parts) :
      Site parts isTail (.symbol "QUOTE") ⟨span.start, span.start + 1⟩

/-- What may stand in a tail may stand anywhere. -/
theorem Site.of_tail {parts : List Datum} {e : Sexp} {span : Span} (h : Site parts true e span)
    (isTail : Bool) : Site parts isTail e span := by
  cases h with
  | datum hd hsame => exact .datum hd hsame
  | mark hd hdot => exact .mark hd fun _ => hdot rfl

end Datum

/-- For every cell of the tree the map has a span at which the head stands. It is known of each cell
whether it is the tail of another one, and of the first cell it is given. -/
def Located (map : SourceMap) (site : Bool → Sexp → Span → Prop) : (isTail : Bool) → Sexp → Prop
  | _, .atom _ => True
  | isTail, .pair c head tail => (∃ span, map.headSpan? c = some span ∧ site isTail head span) ∧
      Located map site false head ∧ Located map site true tail

namespace Located

variable {map map' : SourceMap} {site : Bool → Sexp → Span → Prop} {isTail : Bool} {e : Sexp}

/-- A map that keeps the spans of the cells of a tree locates the tree, too. -/
theorem of_keeps {s : Store} (h : Located map site isTail e) (he : s.Holds e)
    (hkeeps : map.Keeps map' s.size) : Located map' site isTail e := by
  induction e generalizing isTail with
  | atom a => exact trivial
  | pair c head tail ihHead ihTail =>
    obtain ⟨⟨span, hnoted, hsite⟩, hhead, htail⟩ := h
    obtain ⟨hlt, -, heldHead, heldTail⟩ := he
    exact ⟨⟨span, (hkeeps c hlt).trans hnoted, hsite⟩, ihHead hhead heldHead, ihTail htail heldTail⟩

/-- What is located as a tail is located anywhere, if what may stand in a tail may stand
anywhere. -/
theorem of_tail (h : Located map site true e)
    (hsite : ∀ {e span}, site true e span → site isTail e span) : Located map site isTail e := by
  cases e with
  | atom a => exact trivial
  | pair c head tail =>
    obtain ⟨⟨span, hnoted, hhere⟩, hhead, htail⟩ := h
    exact ⟨⟨span, hnoted, hsite hhere⟩, hhead, htail⟩

/-- The items of a list stand at the spans of their cells. -/
theorem of_mem_items {items : List (Nat × Sexp)} (h : Located map site isTail e)
    (hitems : e.items? = some items) {cell : Nat} {item : Sexp} (hitem : (cell, item) ∈ items) :
    ∃ span isTail', map.headSpan? cell = some span ∧ site isTail' item span := by
  induction e generalizing items isTail with
  | atom a =>
    obtain ⟨-, rfl⟩ := Sexp.items?_atom hitems
    cases hitem
  | pair c head tail _ ih =>
    obtain ⟨rest, hrest, rfl⟩ := Sexp.items?_pair_eq_some hitems
    obtain ⟨⟨span, hnoted, hsite⟩, -, htail⟩ := h
    rcases List.mem_cons.1 hitem with heq | hitem
    · obtain ⟨rfl, rfl⟩ := Prod.mk.inj heq
      exact ⟨span, isTail, hnoted, hsite⟩
    · exact ih htail hrest hitem

end Located

/-! ### Building -/

/-- The tree has been built on the way from one store to another, and on the way from one map to
another it has been located, and nothing else has changed in the map. -/
structure Locates (s s' : Store) (map map' : SourceMap) (site : Bool → Sexp → Span → Prop)
    (isTail : Bool) (e : Sexp) : Prop where
  builds : Builds s s' e
  keeps : map.Keeps map' s.size
  located : Located map' site isTail e

namespace Locates

variable {s s₁ s₂ : Store} {map map₁ map₂ : SourceMap} {site : Bool → Sexp → Span → Prop}
  {isTail : Bool}

/-- Nothing has to be noted for a tree that is held and located already. -/
theorem of_located {e : Sexp} (he : s.Holds e) (h : Located map site isTail e) :
    Locates s s map map site isTail e :=
  ⟨.of_holds he, .refl map _, h⟩

/-- An atom has no cells. -/
theorem atom (a : Atom) : Locates s s map map site isTail (.atom a) :=
  of_located (Store.holds_atom a) trivial

/-- After another tree has been built, too, the one that has been built last is located. -/
theorem trans {isTail' : Bool} {e e' : Sexp} (h : Locates s s₁ map map₁ site isTail e)
    (h' : Locates s₁ s₂ map₁ map₂ site isTail' e') : Locates s s₂ map map₂ site isTail' e' where
  builds := h.builds.trans h'.builds
  keeps := h.keeps.trans h'.keeps h.builds.extends_store.size_le
  located := h'.located

/-- A new pair is located if the span at which its head stands is noted for its cell. -/
theorem cons {head tail : Sexp} {span : Span} (hhead : Locates s s₁ map map₁ site false head)
    (htail : Locates s₁ s₂ map₁ map₂ site true tail) (hsite : site isTail head span) :
    Locates s (s₂.consTree head tail).2 map (map₂.insert s₂.size span) site isTail
      (s₂.consTree head tail).1 := by
  -- the new cell comes after all cells of the head and of the tail
  have hfirst := hhead.builds.extends_store.size_le
  have hsecond := htail.builds.extends_store.size_le
  have hinsert : map₂.Keeps (map₂.insert s₂.size span) s₂.size :=
    map₂.keeps_insert span (Nat.le_refl _)
  refine ⟨hhead.builds.cons htail.builds, ?_, ⟨span, ?_, hsite⟩, ?_, ?_⟩
  · exact (hhead.keeps.trans htail.keeps hfirst).trans hinsert (Nat.le_trans hfirst hsecond)
  · exact map₂.headSpan?_insert_self _ _
  · exact hhead.located.of_keeps hhead.builds.held (htail.keeps.trans hinsert hsecond)
  · exact htail.located.of_keeps htail.builds.held hinsert

end Locates

namespace Datum

variable {all : List Datum}

mutual

/-- Building a datum among others locates its expression. If the expression becomes the tail of a
cell, the datum has to stand after a dot. -/
theorem locates_build (s : Store) (map : SourceMap) (isTail : Bool) : (d : Datum) →
    d.parts ⊆ all → (isTail = true → ∃ items whole, .dotted items d whole ∈ all) →
    Locates s (d.build s map).2.1 map (d.build s map).2.2 (Site all) isTail (d.build s map).1
  | .int _ _, _, _ => .atom _
  | .symbol _ _, _, _ => .atom _
  | .quoted d span, hparts, hdot => by
    obtain ⟨hquoted, hinner⟩ := List.cons_subset.1 hparts
    have hd := locates_build s map false d hinner Bool.noConfusion
    have hsite : Site all true (d.build s map).1 d.span :=
      .datum (hinner d.mem_parts_self) (d.same_build s map)
    have hmark : Site all isTail (.symbol "QUOTE") ⟨span.start, span.start + 1⟩ :=
      .mark hquoted hdot
    rw [build]
    exact (Locates.atom (.symbol "QUOTE")).cons (hd.cons (.atom .nil) hsite) hmark
  | .list items span, hparts, _ => by
    rw [build]
    exact locates_buildList s map isTail (Store.holds_atom .nil) trivial items
      (List.cons_subset.1 hparts).2
  | .dotted items tail span, hparts, _ => by
    obtain ⟨hdotted, hinner⟩ := List.cons_subset.1 hparts
    obtain ⟨hitems, htail⟩ := List.append_subset.1 hinner
    have hlast := locates_build s map true tail htail fun _ => ⟨items, span, hdotted⟩
    rw [build]
    exact hlast.trans (locates_buildList _ _ isTail hlast.builds.held hlast.located items hitems)

/-- Building data among others locates their list in front of a tail that is located. -/
theorem locates_buildList (s : Store) (map : SourceMap) (isTail : Bool) {tail : Sexp}
    (htail : s.Holds tail) (hlocated : Located map (Site all) true tail) : (ds : List Datum) →
    partsOfAll ds ⊆ all →
    Locates s (buildList s map tail ds).2.1 map (buildList s map tail ds).2.2 (Site all) isTail
      (buildList s map tail ds).1
  | [], _ => .of_located htail (hlocated.of_tail fun h => h.of_tail isTail)
  | d :: ds, hparts => by
    obtain ⟨hfirst, hrest⟩ := List.append_subset.1 hparts
    have hd := locates_build s map false d hfirst Bool.noConfusion
    have hheld := htail.extends hd.builds.extends_store
    have hothers := locates_buildList _ _ true hheld
      (hlocated.of_keeps htail hd.keeps) ds hrest
    rw [buildList]
    exact hd.cons hothers (.datum (hfirst d.mem_parts_self) (d.same_build s map))

end

/-- Every cell of what is read from a datum has the span at which its head stands, where one of the
parts of the datum has been written. -/
theorem located_read (d : Datum) (s : Store) :
    Located (d.read s).1.map (Site d.parts) false (d.read s).1.expression := by
  have hbuilt := d.locates_build s .empty false (List.Subset.refl d.parts) Bool.noConfusion
  have hmap : (d.build s .empty).2.2.Keeps (d.read s).1.map (d.build s .empty).2.1.size :=
    fun _ _ => rfl
  exact hbuilt.located.of_keeps hbuilt.builds.held hmap

end Datum

end Secd
