import Secd.Proofs.Machine.Invariant
import Secd.Proofs.Sexp.Items
import Secd.Proofs.Store.Evolution

/-!
# What a step writes to

A step changes no cell that is there before it, except that a `RAP` writes to the head of the
pending frame that it patches. A tree of callables and of atoms that can be read has no such frame
among its cells, so a store that holds the tree holds it for good, whatever the machine executes.
-/

namespace Secd

/-- The store has all cells of `base`, and only heads at addresses with the property `P` may have
been written to. Nothing is said about the registers. -/
def Invariant.growing (base : Store) (P : Nat → Prop) : Invariant where
  Sound := base.Evolves P
  Good _ _ := True
  atom _ _ := trivial
  mono _ _ := trivial
  parts _ _ := ⟨trivial, trivial⟩
  cons {s head tail} hs _ _ :=
    ⟨hs.trans (Store.extends_cons s head tail).evolves fun _ _ hc => hc, trivial⟩

namespace Machine

variable {m : Machine}

/-- The store of a machine grows out of itself. -/
theorem satisfies_growing (m : Machine) (P : Nat → Prop) :
    m.Satisfies (.growing m.store P) where
  store := .refl m.store
  stack _ _ := trivial
  env := trivial
  control := trivial
  dump _ _ _ _ := trivial

/-- What a step does to a machine: its store evolves, with writes to the patched cell only, and its
limits stay. -/
theorem advances_growing (m : Machine) :
    Advances (.growing m.store fun c => ∃ args, m.Patches c args) m m.next := by
  refine advances_next (m.satisfies_growing _) fun c args hpatch _ _ => ?_
  have hwritten := Store.evolves_setHead m.store c args
  refine Store.Evolves.trans (.refl m.store) hwritten ?_
  rintro d - rfl
  exact ⟨args, hpatch⟩

/-- A step leaves a cell as it is, or it patches this cell: the head becomes the list of arguments,
and the tail stays. -/
theorem cell_next_eq_or_patches (m : Machine) {c : Nat} (hc : c < m.store.size) :
    c < m.next.store.size ∧ (m.next.store.cell c = m.store.cell c ∨
      ∃ args, m.Patches c args ∧ m.next.store.cell c = ⟨args, (m.store.cell c).tail⟩) := by
  have hevolves : m.store.Evolves (fun c => ∃ args, m.Patches c args) m.next.store :=
    m.advances_growing.satisfies.store
  refine ⟨Nat.lt_of_lt_of_le hc hevolves.size_le, ?_⟩
  by_cases hpatch : ∃ args, m.Patches c args
  · obtain ⟨args, hpatch⟩ := hpatch
    refine .inr ⟨args, hpatch, ?_⟩
    rw [hpatch.store, Store.cell_setHead_self m.store args hc]
  · exact .inl (hevolves.cell_eq hc hpatch)

/-- A cell whose head is not the placeholder is never written to. -/
theorem cell_after_eq (m : Machine) (n : Nat) {c : Nat} (hc : c < m.store.size)
    (hsettled : (m.store.cell c).head ≠ .pending) :
    c < (m.after n).store.size ∧ (m.after n).store.cell c = m.store.cell c := by
  induction n with
  | zero => exact ⟨hc, rfl⟩
  | succ n ih =>
    obtain ⟨hlt, hcell⟩ := ih
    obtain ⟨hlt', hsame | ⟨args, hpatch, -⟩⟩ := (m.after n).cell_next_eq_or_patches hlt
    · exact ⟨hlt', hsame.trans hcell⟩
    · exact absurd hpatch.pending (hcell ▸ hsettled)

/-- Steps do not change the limits of a machine. -/
theorem limits_after (m : Machine) (n : Nat) : (m.after n).limits = m.limits := by
  induction n with
  | zero => rfl
  | succ n ih => exact (m.after n).advances_growing.limits_eq.trans ih

end Machine

/-! ### Trees that are never written to -/

/-- The atom is a callable or one that can be read. So it is not the placeholder. -/
def Atom.Proper : Atom → Prop
  | .callable _ => True
  | a => a.Readable

instance Atom.decidableProper : DecidablePred Atom.Proper
  | .callable _ => .isTrue trivial
  | .nil => .isTrue trivial
  | .int _ => .isTrue trivial
  | .symbol name => inferInstanceAs (Decidable (Atom.symbol name).Readable)

/-- An atom that can be read is proper. -/
theorem Atom.Readable.proper {a : Atom} (h : a.Readable) : a.Proper := by
  cases a with
  | callable c => exact trivial
  | _ => exact h

/-- A proper atom that is no callable can be read. -/
theorem Atom.Proper.readable {a : Atom} (h : a.Proper) (hplain : a.Plain) : a.Readable := by
  cases a with
  | callable c => exact absurd hplain id
  | _ => exact h

/-- A proper atom is not the placeholder. -/
theorem Atom.Proper.ne_pending {a : Atom} (h : a.Proper) : .atom a ≠ Value.pending := by
  rintro heq
  obtain rfl := Value.atom.inj heq
  exact absurd h.1 (by decide)

/-- A tree whose atoms are all proper is not the placeholder. -/
theorem Sexp.value_ne_pending {e : Sexp} (he : e.AllAtoms Atom.Proper) : e.value ≠ .pending := by
  cases e with
  | pair c head tail => exact fun h => by cases h
  | atom a => exact he.ne_pending

namespace Store

/-- The store holds the tree, and none of its cells is a pending frame. -/
structure HoldsFast (s : Store) (e : Sexp) : Prop where
  held : s.Holds e
  proper : e.AllAtoms Atom.Proper

variable {s s' : Store} {e : Sexp}

/-- A tree stays held in stores that extend the one that holds it. -/
theorem HoldsFast.extends (he : s.HoldsFast e) (hs : s.Extends s') : s'.HoldsFast e :=
  ⟨he.held.extends hs, he.proper⟩

/-- Every store holds the empty list fast. -/
theorem holdsFast_nil (s : Store) : s.HoldsFast .nil := ⟨trivial, trivial⟩

/-- The parts of a pair are held like the pair. -/
theorem HoldsFast.parts {c : Nat} {head tail : Sexp} (he : s.HoldsFast (.pair c head tail)) :
    s.HoldsFast head ∧ s.HoldsFast tail :=
  ⟨⟨he.held.2.2.1, he.proper.1⟩, ⟨he.held.2.2.2, he.proper.2⟩⟩

/-- A new pair of trees is held like the trees. -/
theorem holdsFast_consTree {head tail : Sexp} (hhead : s.HoldsFast head)
    (htail : s.HoldsFast tail) : (s.consTree head tail).2.HoldsFast (s.consTree head tail).1 :=
  ⟨holds_consTree hhead.held htail.held, hhead.proper, htail.proper⟩

/-- A new list of trees is held like the trees. -/
theorem exists_holdsFast_list {items : List Sexp} (hitems : ∀ e ∈ items, s.HoldsFast e) :
    ∃ list : Sexp, (s.list (items.map Sexp.value)).1 = list.value ∧
      (s.list (items.map Sexp.value)).2.HoldsFast list ∧ list.list? = some items := by
  induction items with
  | nil => exact ⟨.nil, rfl, holdsFast_nil s, rfl⟩
  | cons item items ih =>
    obtain ⟨hitem, hitems⟩ := List.forall_mem_cons.1 hitems
    obtain ⟨rest, hvalue, hrest, hlist⟩ := ih hitems
    have hextends := extends_dotted s (items.map Sexp.value) .nil
    have hcons : s.list ((item :: items).map Sexp.value) =
        (s.list (items.map Sexp.value)).2.cons item.value rest.value := by
      rw [List.map_cons, list, dotted, ← hvalue]
      rfl
    rw [hcons]
    refine ⟨_, rfl, holdsFast_consTree (hitem.extends hextends) hrest, ?_⟩
    rw [consTree_fst, Sexp.list?_pair, hlist]
    rfl

end Store

/-- A machine goes on holding a tree, and does not change any of its cells. -/
theorem Store.HoldsFast.after {m : Machine} {e : Sexp} (he : m.store.HoldsFast e) (n : Nat) :
    (m.after n).store.HoldsFast e ∧
      e.AllCells fun c => (m.after n).store.cell c = m.store.cell c := by
  induction e with
  | atom a => exact ⟨⟨trivial, he.proper⟩, trivial⟩
  | pair c head tail ihHead ihTail =>
    obtain ⟨hlt, hcell, -, -⟩ := he.held
    obtain ⟨hhead, htail⟩ := he.parts
    have hsettled : (m.store.cell c).head ≠ .pending := by
      rw [hcell]
      exact Sexp.value_ne_pending hhead.proper
    obtain ⟨hlt', hcell'⟩ := m.cell_after_eq n hlt hsettled
    obtain ⟨hheadAfter, hheadCells⟩ := ihHead hhead
    obtain ⟨htailAfter, htailCells⟩ := ihTail htail
    refine ⟨⟨⟨hlt', hcell'.trans hcell, hheadAfter.held, htailAfter.held⟩, he.proper⟩, ?_⟩
    exact ⟨hcell', hheadCells, htailCells⟩

end Secd
