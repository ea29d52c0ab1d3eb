import Secd.Proofs.Datum.Denotation
import Secd.Proofs.Datum.SourceMap
import Secd.Proofs.Store.Unfolding

/-!
# The order of the spans in a source map

The items of a list are written one after the other, between the parentheses. A quote mark comes
before the datum that it quotes, and the tail of a list comes after its items. So along every list
the spans that the source map has for the cells are in the order of the text, and all of them are
within the span of the datum that has the list; and each of them is the span of a datum that denotes
what stands in the head of its cell, or of a quote mark.
-/

namespace Secd

/-! ### The map of a tree -/

/-- Along the list that begins with the tree, the map has spans between `start` and `stop` for the
cells, one after the other. Each of them is good for something that is the same as the head of the
cell; and the list that begins with the head has its spans within it. -/
def Charted (map : SourceMap) (good : Span → Sexp → Prop) : (start stop : Nat) → Sexp → Prop
  | _, _, .atom _ => True
  | start, stop, .pair c head tail => ∃ span e, map.headSpan? c = some span ∧
      start ≤ span.start ∧ span.start ≤ span.stop ∧ span.stop ≤ stop ∧
      head.same e = true ∧ good span e ∧
      Charted map good span.start span.stop head ∧ Charted map good span.stop stop tail

/-- The map `map'` has what `map` has for the cells before `size`. -/
def SourceMap.Keeps (map map' : SourceMap) (size : Nat) : Prop :=
  ∀ c < size, map'.headSpan? c = map.headSpan? c

namespace SourceMap

variable {map map' map'' : SourceMap} {size size' : Nat}

/-- Every map has what it has. -/
theorem Keeps.refl (map : SourceMap) (size : Nat) : map.Keeps map size := fun _ _ => rfl

/-- What has been kept twice has been kept. -/
theorem Keeps.trans (h : map.Keeps map' size) (h' : map'.Keeps map'' size') (hle : size ≤ size') :
    map.Keeps map'' size :=
  fun c hc => (h' c (Nat.lt_of_lt_of_le hc hle)).trans (h c hc)

/-- The span of the new cell is noted. -/
@[simp] theorem headSpan?_insert_self (map : SourceMap) (c : Nat) (span : Span) :
    (map.insert c span).headSpan? c = some span := by
  simp [headSpan?, insert]

/-- A span for a new cell keeps those of the cells before it. -/
theorem keeps_insert (map : SourceMap) {c : Nat} (span : Span) (hle : size ≤ c) :
    map.Keeps (map.insert c span) size := by
  intro c' hc'
  have hne : c ≠ c' := by omega
  simp [headSpan?, insert, Std.TreeMap.getElem?_insert, hne]

end SourceMap

namespace Charted

variable {map map' : SourceMap} {good : Span → Sexp → Prop} {start stop : Nat} {e : Sexp}

/-- The spans that are between two places are between places further outside. -/
theorem of_le {start' stop' : Nat} (h : Charted map good start stop e) (hstart : start' ≤ start)
    (hstop : stop ≤ stop') : Charted map good start' stop' e := by
  induction e generalizing start start' with
  | atom a => exact trivial
  | pair c head tail _ ih =>
    obtain ⟨span, x, hnoted, hle, hspan, hle', hsame, hgood, hhead, htail⟩ := h
    exact ⟨span, x, hnoted, Nat.le_trans hstart hle, hspan, Nat.le_trans hle' hstop, hsame, hgood,
      hhead, ih htail (Nat.le_refl _)⟩

/-- A map that keeps the spans of the cells of a tree has the tree charted, too. -/
theorem of_keeps {s : Store} (h : Charted map good start stop e) (he : s.Holds e)
    (hkeeps : map.Keeps map' s.size) : Charted map' good start stop e := by
  induction e generalizing start stop with
  | atom a => exact trivial
  | pair c head tail ihHead ihTail =>
    obtain ⟨span, x, hnoted, hstart, hspan, hstop, hsame, hgood, hhead, htail⟩ := h
    obtain ⟨hlt, -, heldHead, heldTail⟩ := he
    exact ⟨span, x, (hkeeps c hlt).trans hnoted, hstart, hspan, hstop, hsame, hgood,
      ihHead hhead heldHead, ihTail htail heldTail⟩

/-- Every pair that a path in the list leads to is charted. -/
theorem exists_of_follow {s : Store} {path : List Selector} {c : Nat}
    (h : Charted map good start stop e) (he : s.Holds e)
    (hpath : s.follow path e.value = some (.pair c)) :
    ∃ start' stop' head tail, s.Holds (.pair c head tail) ∧
      Charted map good start' stop' (.pair c head tail) := by
  induction path generalizing e start stop with
  | nil =>
    cases e with
    | atom a => cases hpath
    | pair c' head tail =>
      obtain rfl := Value.pair.inj (Option.some.inj hpath)
      exact ⟨start, stop, head, tail, he, h⟩
  | cons part path ih =>
    cases e with
    | atom a => cases part <;> cases hpath
    | pair c' head tail =>
      obtain ⟨span, x, -, -, -, -, -, -, hhead, htail⟩ := h
      obtain ⟨-, hcell, heldHead, heldTail⟩ := he
      cases part with
      | head =>
        have hnext : s.follow path (s.cell c').head = some (.pair c) := hpath
        rw [hcell] at hnext
        exact ih hhead heldHead hnext
      | tail =>
        have hnext : s.follow path (s.cell c').tail = some (.pair c) := hpath
        rw [hcell] at hnext
        exact ih htail heldTail hnext

end Charted

/-- Along the list with the value `v`, the map has spans for the cells that are within `span`, and
every one ends no later than the next one begins. -/
structure SourceMap.Orders (map : SourceMap) (s : Store) (v : Value) (span : Span) : Prop where
  within : ∀ i c, s.follow (List.replicate i .tail) v = some (.pair c) →
    ∃ a, map.headSpan? c = some a ∧ span.start ≤ a.start ∧ a.stop ≤ span.stop
  increasing : ∀ i j c c' a b, i < j → s.follow (List.replicate i .tail) v = some (.pair c) →
    s.follow (List.replicate j .tail) v = some (.pair c') →
    map.headSpan? c = some a → map.headSpan? c' = some b → a.stop ≤ b.start

namespace Charted

variable {map : SourceMap} {good : Span → Sexp → Prop} {start stop : Nat} {e : Sexp} {s : Store}

/-- The next cells of a list are those of its tail. -/
theorem follow_tail_succ {c : Nat} {head tail : Sexp} (he : s.Holds (.pair c head tail)) (i : Nat) :
    s.follow (List.replicate (i + 1) .tail) (Sexp.pair c head tail).value =
      s.follow (List.replicate i .tail) tail.value := by
  have hnext : s.follow (List.replicate (i + 1) .tail) (.pair c) =
      s.follow (List.replicate i .tail) (s.cell c).tail := rfl
  rw [Sexp.value, hnext, he.2.1]

/-- The spans along a charted list are between the places where they should be. -/
theorem exists_span_of_follow {i c : Nat} (h : Charted map good start stop e) (he : s.Holds e)
    (hpath : s.follow (List.replicate i .tail) e.value = some (.pair c)) :
    ∃ a, map.headSpan? c = some a ∧ start ≤ a.start ∧ a.stop ≤ stop := by
  induction i generalizing e start with
  | zero =>
    cases e with
    | atom a => cases hpath
    | pair c' head tail =>
      obtain rfl := Value.pair.inj (Option.some.inj hpath)
      obtain ⟨span, x, hnoted, hstart, -, hstop, -⟩ := h
      exact ⟨span, hnoted, hstart, hstop⟩
  | succ i ih =>
    cases e with
    | atom a => cases hpath
    | pair c' head tail =>
      obtain ⟨span, x, -, hstart, hspan, -, -, -, -, htail⟩ := h
      rw [follow_tail_succ he] at hpath
      obtain ⟨a, hnoted, hle, hstop⟩ := ih htail he.2.2.2 hpath
      exact ⟨a, hnoted, Nat.le_trans hstart (Nat.le_trans hspan hle), hstop⟩

/-- The spans along a charted list are in order. -/
theorem orders (h : Charted map good start stop e) (he : s.Holds e) :
    map.Orders s e.value ⟨start, stop⟩ where
  within _ _ hpath := h.exists_span_of_follow he hpath
  increasing i j c c' a b hlt hfirst hsecond ha hb := by
    induction i generalizing e start j with
    | zero =>
      cases e with
      | atom a => cases hfirst
      | pair c₀ head tail =>
        obtain rfl := Value.pair.inj (Option.some.inj hfirst)
        obtain ⟨span, x, hnoted, -, -, -, -, -, -, htail⟩ := h
        obtain ⟨j, rfl⟩ := Nat.exists_eq_add_one_of_ne_zero (Nat.ne_of_gt hlt)
        rw [follow_tail_succ he] at hsecond
        obtain ⟨b', hb', hle, -⟩ := htail.exists_span_of_follow he.2.2.2 hsecond
        obtain rfl := Option.some.inj (ha.symm.trans hnoted)
        obtain rfl := Option.some.inj (hb.symm.trans hb')
        exact hle
    | succ i ih =>
      cases e with
      | atom a => cases hfirst
      | pair c₀ head tail =>
        obtain ⟨span, x, -, -, -, -, -, -, -, htail⟩ := h
        obtain ⟨j, rfl⟩ := Nat.exists_eq_add_one_of_ne_zero (Nat.ne_of_gt (Nat.zero_lt_of_lt hlt))
        rw [follow_tail_succ he] at hfirst hsecond
        exact ih htail he.2.2.2 j (Nat.lt_of_succ_lt_succ hlt) hfirst hsecond

end Charted

/-! ### The map of a datum -/

namespace Datum

mutual

/-- The parts of the datum are arranged in the order of the text, within its span, and the span of
each of them is good for what it denotes. -/
def Arranged (good : Span → Sexp → Prop) : Datum → Prop
  | .int _ _ | .symbol _ _ => True
  | .quoted d span => good ⟨span.start, span.start + 1⟩ (.symbol "QUOTE") ∧
      span.start + 1 ≤ d.span.start ∧ d.span.start ≤ d.span.stop ∧ d.span.stop ≤ span.stop ∧
      good d.span d.tree ∧ d.Arranged good
  | .list items span => AllArranged good span.start span.stop items
  | .dotted items tail span => AllArranged good span.start tail.span.start items ∧
      tail.span.start ≤ tail.span.stop ∧ tail.span.stop ≤ span.stop ∧ tail.Arranged good

/-- The data are arranged one after the other between `start` and `stop`. -/
def AllArranged (good : Span → Sexp → Prop) : (start stop : Nat) → List Datum → Prop
  | start, stop, [] => start ≤ stop
  | start, stop, d :: ds => start ≤ d.span.start ∧ d.span.start ≤ d.span.stop ∧
      good d.span d.tree ∧ d.Arranged good ∧ AllArranged good d.span.stop stop ds

end

end Datum

/-! ### Building -/

/-- The tree has been built on the way from one store to another, and on the way from one map to
another spans have been noted for its cells and for no cells of before. -/
structure Charts (s s' : Store) (map map' : SourceMap) (good : Span → Sexp → Prop)
    (start stop : Nat) (e : Sexp) : Prop where
  builds : Builds s s' e
  keeps : map.Keeps map' s.size
  charted : Charted map' good start stop e

namespace Charts

variable {s s₁ s₂ : Store} {map map₁ map₂ : SourceMap} {good : Span → Sexp → Prop}
  {start stop : Nat}

/-- Nothing has to be noted for a tree that is held and charted already. -/
theorem of_charted {e : Sexp} (he : s.Holds e) (h : Charted map good start stop e) :
    Charts s s map map good start stop e :=
  ⟨.of_holds he, .refl map _, h⟩

/-- An atom has no cells. -/
theorem atom (a : Atom) : Charts s s map map good start stop (.atom a) :=
  of_charted (Store.holds_atom a) trivial

/-- After another tree has been built, too, the one that has been built last is charted. -/
theorem trans {start' stop' : Nat} {e e' : Sexp} (h : Charts s s₁ map map₁ good start stop e)
    (h' : Charts s₁ s₂ map₁ map₂ good start' stop' e') :
    Charts s s₂ map map₂ good start' stop' e' where
  builds := h.builds.trans h'.builds
  keeps := h.keeps.trans h'.keeps h.builds.extends_store.size_le
  charted := h'.charted

/-- A new pair of a head and a tail is charted if the span of the head is noted for its cell. -/
theorem cons {head tail e : Sexp} {span : Span}
    (hhead : Charts s s₁ map map₁ good span.start span.stop head)
    (htail : Charts s₁ s₂ map₁ map₂ good span.stop stop tail) (hstart : start ≤ span.start)
    (hspan : span.start ≤ span.stop) (hstop : span.stop ≤ stop) (hsame : head.same e = true)
    (hgood : good span e) :
    Charts s (s₂.consTree head tail).2 map (map₂.insert s₂.size span) good start stop
      (s₂.consTree head tail).1 := by
  -- the new cell comes after all cells of the head and of the tail
  have hfirst := hhead.builds.extends_store.size_le
  have hsecond := htail.builds.extends_store.size_le
  have hinsert : map₂.Keeps (map₂.insert s₂.size span) s₂.size :=
    map₂.keeps_insert span (Nat.le_refl _)
  have hheld : s₁.Holds head := hhead.builds.held
  refine ⟨hhead.builds.cons htail.builds, ?_, span, e, ?_, hstart, hspan, hstop, hsame, hgood, ?_,
    ?_⟩
  · exact (hhead.keeps.trans htail.keeps hfirst).trans hinsert (Nat.le_trans hfirst hsecond)
  · exact map₂.headSpan?_insert_self _ _
  · exact hhead.charted.of_keeps hheld (htail.keeps.trans hinsert hsecond)
  · exact htail.charted.of_keeps htail.builds.held hinsert

end Charts

namespace Datum

variable {good : Span → Sexp → Prop}

/-- Data stand between places of which the first one is not behind the second one. -/
theorem AllArranged.start_le_stop {start stop : Nat} {ds : List Datum}
    (h : AllArranged good start stop ds) : start ≤ stop := by
  induction ds generalizing start with
  | nil => exact h
  | cons d ds ih =>
    obtain ⟨hstart, hspan, -, -, hrest⟩ := h
    exact Nat.le_trans hstart (Nat.le_trans hspan (ih hrest))

mutual

/-- Building a datum that is arranged charts its expression. -/
theorem charts_build (s : Store) (map : SourceMap) : (d : Datum) → d.Arranged good →
    Charts s (d.build s map).2.1 map (d.build s map).2.2 good d.span.start d.span.stop
      (d.build s map).1
  | .int _ _, _ => .atom _
  | .symbol _ _, _ => .atom _
  | .quoted d span, hd => by
    obtain ⟨hmark, hbefore, hspan, hstop, hgood, hinner⟩ := hd
    have hquoted := charts_build s map d hinner
    have hnil : Charts (d.build s map).2.1 (d.build s map).2.1 (d.build s map).2.2
        (d.build s map).2.2 good d.span.stop span.stop .nil := .atom _
    have hquote : Charts s s map map good span.start (span.start + 1) (.symbol "QUOTE") := .atom _
    have hrest := hquoted.cons hnil hbefore hspan hstop (d.same_build s map) hgood
    have hle : span.start + 1 ≤ span.stop :=
      Nat.le_trans hbefore (Nat.le_trans hspan hstop)
    rw [build]
    exact hquote.cons hrest (Nat.le_refl _) (Nat.le_succ _) hle (Sexp.same_refl _) hmark
  | .list items span, hd => by
    have hnil : Charted map good span.stop span.stop .nil := trivial
    rw [build]
    exact charts_buildList s map (Store.holds_atom .nil) hnil (Nat.le_refl _) (Nat.le_refl _)
      items hd
  | .dotted items tail span, hd => by
    obtain ⟨hitems, hspan, hstop, htail⟩ := hd
    have hfirst := charts_build s map tail htail
    rw [build]
    exact hfirst.trans
      (charts_buildList _ _ hfirst.builds.held hfirst.charted hspan hstop items hitems)

/-- Building data that are arranged charts their list in front of a charted tail. -/
theorem charts_buildList (s : Store) (map : SourceMap) {tail : Sexp} {start middle last stop : Nat}
    (htail : s.Holds tail) (hcharted : Charted map good middle last tail) (hlast : middle ≤ last)
    (hle : last ≤ stop) :
    (ds : List Datum) → AllArranged good start middle ds →
    Charts s (buildList s map tail ds).2.1 map (buildList s map tail ds).2.2 good start stop
      (buildList s map tail ds).1
  | [], hds => .of_charted htail (hcharted.of_le hds hle)
  | d :: ds, hds => by
    obtain ⟨hstart, hspan, hgood, hd, hds⟩ := hds
    have hfirst := charts_build s map d hd
    have hheld := htail.extends hfirst.builds.extends_store
    have hothers := charts_buildList _ _ hheld (hcharted.of_keeps htail hfirst.keeps) hlast hle ds
      hds
    have hstop : d.span.stop ≤ stop :=
      Nat.le_trans hds.start_le_stop (Nat.le_trans hlast hle)
    rw [buildList]
    exact hfirst.cons hothers hstart hspan hstop (d.same_build s map) hgood

end

end Datum

end Secd
