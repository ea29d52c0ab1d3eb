import Secd.Proofs.Store.Tree
import Secd.Reader

/-!
# What is read is held

Reading builds trees of new cells on top of those that the store has. So the store holds every
expression that is read, goes on holding those that were read before, and stays closed.
-/

namespace Secd

/-- The store `s'` has been got from `s` by building the tree: it only has more cells, holds the
tree, and is closed if `s` is. -/
structure Builds (s s' : Store) (e : Sexp) : Prop where
  extends_store : s.Extends s'
  held : s'.Holds e
  closed : s.Closed → s'.Closed

/-- Nothing has to be built for a tree that is held already. -/
theorem Builds.of_holds {s : Store} {e : Sexp} (he : s.Holds e) : Builds s s e :=
  ⟨.refl s, he, id⟩

/-- A tree may be built after another one. -/
theorem Builds.trans {s s' s'' : Store} {e e' : Sexp} (h : Builds s s' e) (h' : Builds s' s'' e') :
    Builds s s'' e' where
  extends_store := h.extends_store.trans h'.extends_store
  held := h'.held
  closed hs := h'.closed (h.closed hs)

/-- A pair is built after its head and its tail. -/
theorem Builds.cons {s s' s'' : Store} {head tail : Sexp} (hhead : Builds s s' head)
    (htail : Builds s' s'' tail) :
    Builds s (s''.consTree head tail).2 (s''.consTree head tail).1 := by
  have hheld : s''.Holds head := hhead.held.extends htail.extends_store
  have hextends := hhead.extends_store.trans htail.extends_store
  refine ⟨hextends.trans (Store.extends_cons _ _ _), Store.holds_consTree hheld htail.held, ?_⟩
  exact fun hs => (htail.closed (hhead.closed hs)).cons hheld.contains htail.held.contains

namespace Datum

mutual

/-- Building a datum builds the expression that it denotes. -/
theorem builds_build (s : Store) (map : SourceMap) :
    (d : Datum) → Builds s (d.build s map).2.1 (d.build s map).1
  | .int _ _ => .of_holds (Store.holds_atom _)
  | .symbol _ _ => .of_holds (Store.holds_atom _)
  | .quoted d span => by
    have hrest := (builds_build s map d).cons (.of_holds (Store.holds_atom .nil))
    have hquote : Builds s s (.symbol "QUOTE") := .of_holds (Store.holds_atom _)
    rw [build]
    exact hquote.cons hrest
  | .list items _ => by
    rw [build]
    exact builds_buildList s map (Store.holds_atom .nil) items
  | .dotted items tail _ => by
    have htail := builds_build s map tail
    have hlist := builds_buildList _ (tail.build s map).2.2 htail.held items
    rw [build]
    exact htail.trans hlist

/-- Building data builds their list in front of a held tail. -/
theorem builds_buildList (s : Store) (map : SourceMap) {tail : Sexp} (htail : s.Holds tail) :
    (ds : List Datum) → Builds s (buildList s map tail ds).2.1 (buildList s map tail ds).1
  | [] => .of_holds htail
  | d :: ds => by
    have hfirst := builds_build s map d
    have hothers := builds_buildList _ (d.build s map).2.2 (htail.extends hfirst.extends_store) ds
    rw [buildList]
    exact hfirst.cons hothers

end

/-- Reading a datum builds its expression. -/
theorem builds_read (d : Datum) (s : Store) : Builds s (d.read s).2 (d.read s).1.expression :=
  builds_build s .empty d

end Datum

namespace Reader

variable {source : String} {s s' : Store}

/-- Reading the only datum of a text builds its expression. -/
theorem builds_of_readOne {r : Reading} (h : readOne source s = (.ok r, s')) :
    Builds s s' r.expression := by
  rw [readOne] at h
  split at h
  · next d _ =>
    obtain ⟨hr, rfl⟩ := Prod.mk.inj h
    obtain rfl := Except.ok.inj hr
    exact d.builds_read s
  · cases (Prod.mk.inj h).1

/-- After data have been read one after the other, the store holds all of their expressions. -/
theorem holds_of_readData (ds : List Datum) (s : Store) :
    s.Extends (readData ds s).2 ∧ (s.Closed → (readData ds s).2.Closed) ∧
      ∀ r ∈ (readData ds s).1, (readData ds s).2.Holds r.expression := by
  induction ds generalizing s with
  | nil => exact ⟨.refl s, id, by simp [readData]⟩
  | cons d ds ih =>
    obtain ⟨hextends, hclosed, hothers⟩ := ih (d.read s).2
    have hfirst := d.builds_read s
    rw [readData]
    refine ⟨hfirst.extends_store.trans hextends, fun hs => hclosed (hfirst.closed hs), ?_⟩
    exact List.forall_mem_cons.2 ⟨hfirst.held.extends hextends, hothers⟩

/-- After the data of a text have been read, the store holds all of their expressions. -/
theorem holds_of_readAll {rs : List Reading} (h : readAll source s = (.ok rs, s')) :
    (s.Closed → s'.Closed) ∧ ∀ r ∈ rs, s'.Holds r.expression := by
  rw [readAll] at h
  split at h
  · next ds _ =>
    obtain ⟨hrs, rfl⟩ := Prod.mk.inj h
    obtain rfl := Except.ok.inj hrs
    exact (holds_of_readData ds s).2
  · cases (Prod.mk.inj h).1

end Reader

end Secd
