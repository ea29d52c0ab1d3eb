import Secd.Proofs.Machine.Closed
import Secd.Proofs.Sexp.Atoms
import Secd.Proofs.Store.Correspondence
import Secd.Proofs.Store.Ordered
import Secd.Proofs.Store.Printer

/-!
# Stores that grow side by side

Two runs begin with a store each, and allocate cells in step. What they make corresponds cell by
cell: the new cells of both come in the same order. Trees of the stores at the beginning may be
different ones, as long as they have the same shape and the same atoms, and none of these is the
placeholder of a letrec frame; so a tree may stand for several others that share their cells in
other ways. Nothing that the machine asks about values tells such stores apart.

The two stores at the beginning may be the same one. Then new cells have the same addresses in
both runs.
-/

namespace Secd

/-- The atom is not the placeholder of a letrec frame. -/
def Atom.Settled : Atom → Prop
  | .symbol name => name ≠ Value.pendingName
  | _ => True

instance Atom.decidableSettled : DecidablePred Atom.Settled
  | .nil => .isTrue trivial
  | .symbol name => inferInstanceAs (Decidable (name ≠ Value.pendingName))
  | .int _ => .isTrue trivial
  | .callable _ => .isTrue trivial

/-- The trees have the same shape and the very same atoms. -/
def Sexp.Matches : Sexp → Sexp → Prop
  | .atom a, .atom b => a = b
  | .pair _ head tail, .pair _ head' tail' => head.Matches head' ∧ tail.Matches tail'
  | _, _ => False

/-- Every tree matches itself. -/
theorem Sexp.matches_refl (e : Sexp) : e.Matches e := by
  induction e with
  | atom a => exact rfl
  | pair c head tail ihHead ihTail => exact ⟨ihHead, ihTail⟩

/-- Matching trees have the same printed form. -/
theorem Sexp.Matches.write_eq {e e' : Sexp} (h : e.Matches e') (out : String) :
    e.write out = e'.write out ∧ e.writeTail out = e'.writeTail out := by
  induction e generalizing e' out with
  | atom a =>
    cases e' with
    | atom b =>
      obtain rfl : a = b := h
      exact ⟨rfl, rfl⟩
    | pair _ _ _ => cases h
  | pair c head tail ihHead ihTail =>
    cases e' with
    | atom _ => cases h
    | pair c' head' tail' =>
      simp only [write, writeTail, (ihHead h.1 _).1, (ihTail h.2 _).2, and_self]

/-- Equal atoms of the two trees are the very same: callables are known by their identity. -/
def Sexp.Identified (e e' : Sexp) : Prop :=
  e.AllAtoms fun a => e'.AllAtoms fun b => a.same b = true → a = b

/-- The callables of a tree without callables are known by their identity. -/
theorem Sexp.identified_of_plain {e : Sexp} (he : e.AllAtoms Atom.Plain) (e' : Sexp) :
    e.Identified e' := by
  refine he.imp fun a ha => ?_
  induction e' with
  | atom b => exact ha.eq_of_same
  | pair _ _ _ ihHead ihTail => exact ⟨ihHead, ihTail⟩

/-- Trees that are the same match if equal atoms of theirs are the very same. -/
theorem Sexp.Identified.matches_of_same {e e' : Sexp} (he : e.Identified e')
    (h : e.same e' = true) : e.Matches e' := by
  induction e generalizing e' with
  | atom a =>
    obtain ⟨b, rfl, hab⟩ := exists_atom_of_same h
    exact he hab
  | pair c head tail ihHead ihTail =>
    obtain ⟨c', head', tail', rfl, hhead, htail⟩ := exists_pair_of_same h
    exact ⟨ihHead (he.1.imp fun _ ha => ha.1) hhead, ihTail (he.2.imp fun _ ha => ha.2) htail⟩

/-- The two results are both errors, and the same one, or both values, and related. -/
inductive SameResult {ε α β : Type} (R : α → β → Prop) : Except ε α → Except ε β → Prop where
  | ok {a : α} {b : β} (h : R a b) : SameResult R (.ok a) (.ok b)
  | error (e : ε) : SameResult R (.error e) (.error e)

/-- The stores with which two runs begin. -/
structure Bases where
  first : Store
  second : Store

/-- Both stores are closed. -/
structure Bases.Closed (base : Bases) : Prop where
  first : base.first.Closed
  second : base.second.Closed

/-- The cells are new, and as many new cells are before the one as before the other. -/
structure Bases.Aligned (base : Bases) (c c' : Nat) : Prop where
  new : base.first.size ≤ c
  place : c' + base.first.size = c + base.second.size

/-- A cell at the same place as a new one is new, too. -/
theorem Bases.Aligned.new_second {base : Bases} {c c' : Nat} (h : base.Aligned c c') :
    base.second.size ≤ c' := by
  have hnew := h.new
  have hplace := h.place
  omega

/-- For each of two new cells there is one at the same place, and only one. -/
theorem Bases.Aligned.eq_iff {base : Bases} {c c' d d' : Nat} (h : base.Aligned c c')
    (hd : base.Aligned d d') : c = d ↔ c' = d' := by
  have hplace := h.place
  have hplace' := hd.place
  omega

namespace Store

/-- The values mean the same in two stores that have grown out of the bases, the first one up to the
given size. -/
inductive Linked (base : Bases) (size : Nat) : Value → Value → Prop where
  | atom (a : Atom) : Linked base size (.atom a) (.atom a)
  /-- Cells that are new. -/
  | cell {c c' : Nat} (hnew : base.Aligned c c') (hlt : c < size) :
      Linked base size (.pair c) (.pair c')
  /-- Trees of the bases. -/
  | tree {c c' : Nat} {head tail head' tail' : Sexp} (h : base.first.Holds (.pair c head tail))
      (h' : base.second.Holds (.pair c' head' tail'))
      (hmatch : (Sexp.pair c head tail).Matches (.pair c' head' tail'))
      (hsettled : (Sexp.pair c head tail).AllAtoms Atom.Settled) :
      Linked base size (.pair c) (.pair c')

/-- The two stores have grown out of the bases side by side: new cells at the same place hold values
that are linked. -/
structure Parallel (base : Bases) (s s' : Store) : Prop where
  first : base.first.Extends s
  second : base.second.Extends s'
  size_eq : s'.size + base.first.size = s.size + base.second.size
  head : ∀ c c', base.Aligned c c' → c < s.size →
    Linked base s.size (s.cell c).head (s'.cell c').head
  tail : ∀ c c', base.Aligned c c' → c < s.size →
    Linked base s.size (s.cell c).tail (s'.cell c').tail
  order : Ordered base.first (fun _ => True) s

variable {base : Bases} {s s' : Store} {size size' : Nat} {v v' w w' : Value}

/-! ### Linked values -/

/-- Matching trees are linked. -/
theorem linked_tree {e e' : Sexp} (he : base.first.Holds e) (he' : base.second.Holds e')
    (h : e.Matches e')
    (hsettled : e.AllAtoms Atom.Settled) : Linked base size e.value e'.value := by
  cases e with
  | atom a =>
    cases e' with
    | atom b =>
      obtain rfl : a = b := h
      exact .atom a
    | pair _ _ _ => cases h
  | pair c head tail =>
    cases e' with
    | atom _ => cases h
    | pair c' head' tail' => exact .tree he he' h hsettled

/-- Linked values stay linked while the stores grow. -/
theorem Linked.mono (h : Linked base size v v') (hsize : size ≤ size') :
    Linked base size' v v' := by
  cases h with
  | atom a => exact .atom a
  | cell hnew hlt => exact .cell hnew (Nat.lt_of_lt_of_le hlt hsize)
  | tree he he' hmatch hsettled => exact .tree he he' hmatch hsettled

/-- Linked values stay linked item by item while the stores grow. -/
theorem Linked.mono_list {vs vs' : List Value} (h : List.Forall₂ (Linked base size) vs vs')
    (hsize : size ≤ size') : List.Forall₂ (Linked base size') vs vs' :=
  h.imp fun _ _ hv => hv.mono hsize

/-- Linked values are the same atom, or both pairs. -/
theorem Linked.atom_or_pair (h : Linked base size v v') :
    (∃ a, v = .atom a ∧ v' = .atom a) ∨ ∃ c c', v = .pair c ∧ v' = .pair c' := by
  cases h with
  | atom a => exact .inl ⟨a, rfl, rfl⟩
  | cell _ _ => exact .inr ⟨_, _, rfl, rfl⟩
  | tree _ _ _ _ => exact .inr ⟨_, _, rfl, rfl⟩

/-- What does not look into pairs does not tell linked values apart. -/
theorem Linked.eq_of_blind {α : Type} (h : Linked base size v v') (f : Value → α)
    (hf : ∀ c c', f (.pair c) = f (.pair c')) : f v = f v' := by
  rcases h.atom_or_pair with ⟨a, rfl, rfl⟩ | ⟨c, c', rfl, rfl⟩
  · rfl
  · exact hf c c'

/-- The first of two linked values is known. -/
theorem Linked.known (h : Linked base size v v') : Known base.first size v := by
  cases h with
  | atom a => exact trivial
  | cell hnew hlt => exact .inr ⟨hnew.new, hlt⟩
  | tree he _ _ _ => exact .inl ⟨_, _, he⟩

/-- Cells at the same place are allocated in both stores, or in neither. -/
theorem Parallel.lt_size_iff {c c' : Nat} (h : Parallel base s s') (hc : base.Aligned c c') :
    c' < s'.size ↔ c < s.size := by
  have hplace := hc.place
  have hsize := h.size_eq
  omega

/-- Linked values belong to both stores. -/
theorem Parallel.contains (h : Parallel base s s') (hv : Linked base s.size v v') :
    s.Contains v ∧ s'.Contains v' := by
  cases hv with
  | atom a => exact ⟨trivial, trivial⟩
  | cell hnew hlt => exact ⟨hlt, (h.lt_size_iff hnew).2 hlt⟩
  | tree he he' _ _ =>
    exact ⟨Nat.lt_of_lt_of_le he.1 h.first.size_le, Nat.lt_of_lt_of_le he'.1 h.second.size_le⟩

/-- The parts of linked pairs are linked. -/
theorem Parallel.parts {c c' : Nat} (h : Parallel base s s')
    (hv : Linked base s.size (.pair c) (.pair c')) :
    Linked base s.size (s.cell c).head (s'.cell c').head ∧
      Linked base s.size (s.cell c).tail (s'.cell c').tail := by
  cases hv with
  | cell hnew hlt => exact ⟨h.head c c' hnew hlt, h.tail c c' hnew hlt⟩
  | tree he he' hmatch hsettled =>
    obtain ⟨hlt, hcell, hhead, htail⟩ := he
    obtain ⟨hlt', hcell', hhead', htail'⟩ := he'
    rw [h.first.cell_eq c hlt, h.second.cell_eq c' hlt', hcell, hcell']
    exact ⟨linked_tree hhead hhead' hmatch.1 hsettled.1,
      linked_tree htail htail' hmatch.2 hsettled.2⟩

/-- A pending cell is new, and at the same place on both sides. -/
theorem Parallel.aligned_of_isPending {c c' : Nat} (h : Parallel base s s')
    (hv : Linked base s.size (.pair c) (.pair c')) (hpending : (s.cell c).head.isPending = true) :
    base.Aligned c c' ∧ c < s.size := by
  cases hv with
  | cell hnew hlt => exact ⟨hnew, hlt⟩
  | @tree c c' head tail head' tail' he he' hmatch hsettled =>
    obtain ⟨hlt, hcell, -⟩ := he
    rw [h.first.cell_eq c hlt, hcell] at hpending
    cases head with
    | atom a =>
      cases a with
      | symbol name =>
        have hname : name ≠ Value.pendingName := hsettled.1
        exact absurd (beq_iff_eq.1 hpending) hname
      | _ => cases hpending
    | pair _ _ _ => cases hpending

/-! ### Growing -/

/-- At the beginning there are no new cells. -/
theorem parallel_refl (base : Bases) : Parallel base base.first base.second where
  first := .refl base.first
  second := .refl base.second
  size_eq := Nat.add_comm _ _
  head _ _ hnew hlt := absurd hlt (Nat.not_lt.2 hnew.new)
  tail _ _ hnew hlt := absurd hlt (Nat.not_lt.2 hnew.new)
  order := ordered_refl base.first _

/-- Stores that have grown side by side are closed if the bases are. -/
theorem Parallel.closed (h : Parallel base s s') (hbase : base.Closed) : s.Closed ∧ s'.Closed := by
  have hsize := h.size_eq
  have hfirst := h.first.size_le
  have hsecond := h.second.size_le
  constructor
  · intro c hc
    by_cases hold : c < base.first.size
    · obtain ⟨hhead, htail⟩ := hbase.first c hold
      rw [h.first.cell_eq c hold]
      exact ⟨hhead.of_size_le hfirst, htail.of_size_le hfirst⟩
    · have hnew : base.Aligned c (c + base.second.size - base.first.size) := ⟨by omega, by omega⟩
      exact ⟨(h.contains (h.head c _ hnew hc)).1, (h.contains (h.tail c _ hnew hc)).1⟩
  · intro c' hc'
    by_cases hold : c' < base.second.size
    · obtain ⟨hhead, htail⟩ := hbase.second c' hold
      rw [h.second.cell_eq c' hold]
      exact ⟨hhead.of_size_le hsecond, htail.of_size_le hsecond⟩
    · have hnew : base.Aligned (c' + base.first.size - base.second.size) c' :=
        ⟨by omega, by omega⟩
      have hc := (h.lt_size_iff hnew).1 hc'
      exact ⟨(h.contains (h.head _ c' hnew hc)).2, (h.contains (h.tail _ c' hnew hc)).2⟩

/-- New pairs of linked values are linked. -/
theorem Parallel.cons (h : Parallel base s s') (hv : Linked base s.size v v')
    (hw : Linked base s.size w w') :
    Parallel base (s.cons v w).2 (s'.cons v' w').2 ∧
      Linked base (s.cons v w).2.size (s.cons v w).1 (s'.cons v' w').1 := by
  have hle : s.size ≤ (s.cons v w).2.size := (extends_cons s v w).size_le
  have hsize : (s.cons v w).2.size = s.size + 1 := size_cons s v w
  have hplaces := h.size_eq
  have hcells (c c' : Nat) (hnew : base.Aligned c c') (hlt : c < (s.cons v w).2.size) :
      Linked base (s.cons v w).2.size ((s.cons v w).2.cell c).head
          ((s'.cons v' w').2.cell c').head ∧
        Linked base (s.cons v w).2.size ((s.cons v w).2.cell c).tail
          ((s'.cons v' w').2.cell c').tail := by
    by_cases hold : c < s.size
    · rw [cell_cons_of_lt s v w hold, cell_cons_of_lt s' v' w' ((h.lt_size_iff hnew).2 hold)]
      exact ⟨(h.head c c' hnew hold).mono hle, (h.tail c c' hnew hold).mono hle⟩
    · obtain rfl : c = s.size := by omega
      obtain rfl : c' = s'.size := by
        have hplace := hnew.place
        omega
      rw [cell_cons_size, cell_cons_size]
      exact ⟨hv.mono hle, hw.mono hle⟩
  have hlast : base.Aligned s.size s'.size := ⟨h.first.size_le, hplaces⟩
  refine ⟨⟨h.first.trans (extends_cons s v w), h.second.trans (extends_cons s' v' w'), ?_, ?_, ?_,
    h.order.cons hv.known hw.known⟩, ?_⟩
  · rw [size_cons, size_cons]
    omega
  · exact fun c c' hnew hlt => (hcells c c' hnew hlt).1
  · exact fun c c' hnew hlt => (hcells c c' hnew hlt).2
  · rw [cons_fst, cons_fst]
    exact .cell hlast (by omega)

/-- Lists of linked values are linked. -/
theorem Parallel.dotted {vs vs' : List Value} (h : Parallel base s s')
    (hvs : List.Forall₂ (Linked base s.size) vs vs') (hw : Linked base s.size w w') :
    Parallel base (s.dotted vs w).2 (s'.dotted vs' w').2 ∧
      Linked base (s.dotted vs w).2.size (s.dotted vs w).1 (s'.dotted vs' w').1 := by
  induction hvs with
  | nil => exact ⟨h, hw⟩
  | @cons v v' vs vs' hv _ ih =>
    rw [Store.dotted, Store.dotted]
    exact ih.1.cons (hv.mono (extends_dotted s vs w).size_le) ih.2

/-- Linked values may be written into the heads of new cells at the same place. -/
theorem Parallel.setHead (h : Parallel base s s') {c c' : Nat} (hnew : base.Aligned c c')
    (hlt : c < s.size) (hv : Linked base s.size v v') :
    Parallel base (s.setHead c v) (s'.setHead c' v') := by
  have hfirst := hnew.new
  have hsecond := hnew.new_second
  refine ⟨⟨?_, fun d hd => ?_⟩, ⟨?_, fun d hd => ?_⟩, ?_, fun d d' hd hdlt => ?_,
    fun d d' hd hdlt => ?_, h.order.setHead trivial hv.known⟩
  · rw [size_setHead]
    exact h.first.size_le
  · rw [cell_setHead_of_ne s v (show d ≠ c by omega), h.first.cell_eq d hd]
  · rw [size_setHead]
    exact h.second.size_le
  · rw [cell_setHead_of_ne s' v' (show d ≠ c' by omega), h.second.cell_eq d hd]
  · rw [size_setHead, size_setHead]
    exact h.size_eq
  · rw [size_setHead] at hdlt ⊢
    by_cases hwritten : d = c
    · obtain rfl := (hd.eq_iff hnew).1 hwritten
      subst hwritten
      rw [cell_setHead_self s v hlt, cell_setHead_self s' v' ((h.lt_size_iff hnew).2 hlt)]
      exact hv
    · rw [cell_setHead_of_ne s v hwritten,
        cell_setHead_of_ne s' v' fun h' => hwritten ((hd.eq_iff hnew).2 h')]
      exact h.head d d' hd hdlt
  · rw [size_setHead] at hdlt ⊢
    rw [tail_cell_setHead, tail_cell_setHead]
    exact h.tail d d' hd hdlt

/-! ### Asking about linked values -/

/-- No path tells linked values apart. -/
theorem Parallel.corresponds (h : Parallel base s s') (hv : Linked base s.size v v') :
    s.Corresponds s' v v' := by
  intro path
  induction path generalizing v v' with
  | nil =>
    rcases hv.atom_or_pair with ⟨a, rfl, rfl⟩ | ⟨c, c', rfl, rfl⟩
    · exact a.same_refl
    · exact trivial
  | cons part path ih =>
    rcases hv.atom_or_pair with ⟨a, rfl, rfl⟩ | ⟨c, c', rfl, rfl⟩
    · cases part <;> exact trivial
    · cases part with
      | head => exact ih (h.parts hv).1
      | tail => exact ih (h.parts hv).2

/-- Comparing linked values gives the same answer. -/
theorem Parallel.equal_eq (h : Parallel base s s') (hbase : base.Closed)
    (hv : Linked base s.size v v') (hw : Linked base s.size w w') :
    s.equal v w = s'.equal v' w' := by
  obtain ⟨hs, hs'⟩ := h.closed hbase
  obtain ⟨hsv, hsv'⟩ := h.contains hv
  obtain ⟨hsw, hsw'⟩ := h.contains hw
  have hends := h.corresponds hv
  have hends' := h.corresponds hw
  rw [Bool.eq_iff_iff, hs.equal_eq_true_iff hsv hsw, hs'.equal_eq_true_iff hsv' hsw']
  constructor
  · intro heq path
    exact ((hends path).symm.trans (heq path)).trans (hends' path)
  · intro heq path
    exact ((hends path).trans (heq path)).trans (hends' path).symm

/-- Linked values have linked heads, if they have heads. -/
theorem Parallel.sameHead (h : Parallel base s s') (hv : Linked base s.size v v') :
    SameResult (Linked base s.size) (s.head v) (s'.head v') := by
  rcases hv.atom_or_pair with ⟨a, rfl, rfl⟩ | ⟨c, c', rfl, rfl⟩
  · exact .error _
  · exact .ok (h.parts hv).1

/-- Linked values have linked tails, if they have tails. -/
theorem Parallel.sameTail (h : Parallel base s s') (hv : Linked base s.size v v') :
    SameResult (Linked base s.size) (s.tail v) (s'.tail v') := by
  rcases hv.atom_or_pair with ⟨a, rfl, rfl⟩ | ⟨c, c', rfl, rfl⟩
  · exact .error _
  · exact .ok (h.parts hv).2

/-- Linked values denote the same address, if they denote one. -/
theorem Parallel.ofValue_eq (h : Parallel base s s') (hv : Linked base s.size v v') :
    Address.ofValue s v = Address.ofValue s' v' := by
  have hhead := h.sameHead hv
  have htail := h.sameTail hv
  unfold Address.ofValue
  generalize s.head v = x at hhead
  generalize s'.head v' = x' at hhead
  generalize s.tail v = y at htail
  generalize s'.tail v' = y' at htail
  cases hhead with
  | error e => rfl
  | ok hframe =>
    cases htail with
    | error e =>
      dsimp only [bind, Except.bind]
      rw [hframe.eq_of_blind Value.asInt fun _ _ => rfl]
    | ok hslot =>
      dsimp only [bind, Except.bind]
      rw [hframe.eq_of_blind Value.asInt fun _ _ => rfl,
        hslot.eq_of_blind Value.asInt fun _ _ => rfl]

/-- The items of linked lists are linked. -/
theorem Parallel.nth (h : Parallel base s s') (hv : Linked base s.size v v') (index : Nat) :
    SameResult (Linked base s.size) (s.nth v index) (s'.nth v' index) := by
  suffices hfrom : ∀ steps, SameResult (Linked base s.size) (s.nthFrom index steps v)
      (s'.nthFrom index steps v') from hfrom index
  intro steps
  induction steps generalizing v v' with
  | zero =>
    rcases hv.atom_or_pair with ⟨a, rfl, rfl⟩ | ⟨c, c', rfl, rfl⟩
    · cases a <;> exact .error _
    · exact .ok (h.parts hv).1
  | succ steps ih =>
    rcases hv.atom_or_pair with ⟨a, rfl, rfl⟩ | ⟨c, c', rfl, rfl⟩
    · cases a <;> exact .error _
    · exact ih (h.parts hv).2

/-- Along with a chain of cells there is one from a linked value. Its cells are linked, and it ends
in the same atom. -/
theorem Parallel.exists_chain (h : Parallel base s s') (hv : Linked base s.size v v')
    {cells : List Nat} {ending : Atom} (hchain : s.Chain v cells ending) :
    ∃ cells', s'.Chain v' cells' ending ∧
      List.Forall₂ (fun c c' => Linked base s.size (.pair c) (.pair c')) cells cells' := by
  induction cells generalizing v v' with
  | nil =>
    obtain rfl := hchain
    cases hv with
    | atom a => exact ⟨[], rfl, .nil⟩
  | cons c cells ih =>
    obtain ⟨rfl, -, htail⟩ := hchain
    obtain ⟨a, ha, -⟩ | ⟨d, c', hd, rfl⟩ := hv.atom_or_pair
    · cases ha
    · obtain ⟨cells', hchain', hcells⟩ := ih (h.parts hv).2 htail
      exact ⟨c' :: cells', ⟨rfl, (h.contains hv).2, hchain'⟩, .cons hv hcells⟩

/-- Linked lists have linked items. -/
theorem Parallel.toList (h : Parallel base s s') (hv : Linked base s.size v v') :
    SameResult (List.Forall₂ (Linked base s.size)) (s.toList v) (s'.toList v') := by
  obtain ⟨cells, ending, hchain⟩ := h.order.exists_chain hv.known
  obtain ⟨cells', hchain', hcells⟩ := h.exists_chain hv hchain
  by_cases hending : ending = .nil
  · subst hending
    rw [hchain.toList_eq, hchain'.toList_eq]
    refine .ok ?_
    rw [List.forall₂_map_left_iff, List.forall₂_map_right_iff]
    exact hcells.imp fun c c' hc => (h.parts hc).1
  · rw [hchain.toList_eq_error hending, hchain'.toList_eq_error hending]
    exact .error _

/-- Linked lists have the same length. -/
theorem Parallel.length_eq (h : Parallel base s s') (hv : Linked base s.size v v') :
    s.length v = s'.length v' := by
  have hlist := h.toList hv
  unfold length
  generalize s.toList v = x at hlist
  generalize s'.toList v' = x' at hlist
  cases hlist with
  | ok hitems => exact congrArg Except.ok hitems.length_eq
  | error e => rfl

/-! ### Printing linked values -/

/-- The cells that are being printed are new, in a store of the given size. Those in `path` are the
cells in `seen`, and those in `path'` are at the same places. -/
structure Printing (base : Bases) (size : Nat) (seen : List Nat) (path path' : Std.TreeSet Nat) :
    Prop where
  first : ∀ c, c ∈ path ↔ c ∈ seen
  second : ∀ c', c' ∈ path' ↔ ∃ c ∈ seen, base.Aligned c c'
  nodup : seen.Nodup
  new : ∀ c ∈ seen, base.first.size ≤ c ∧ c < size

variable {seen : List Nat} {path path' : Std.TreeSet Nat}

/-- No more cells are being printed than are new. -/
theorem Printing.length_le (h : Printing base size seen path path')
    (hsize : base.first.size ≤ size) : seen.length + base.first.size ≤ size := by
  have hsub : seen ⊆ List.range' base.first.size (size - base.first.size) := by
    intro c hc
    obtain ⟨hnew, hlt⟩ := h.new c hc
    exact List.mem_range'_1.2 ⟨hnew, by omega⟩
  have hle := (h.nodup.subperm hsub).length_le
  rw [List.length_range'] at hle
  omega

/-- Cells at the same place are being printed on both sides, or on neither. -/
theorem Printing.mem_iff (h : Printing base size seen path path') {c c' : Nat}
    (hc : base.Aligned c c') : c' ∈ path' ↔ c ∈ path := by
  rw [h.first, h.second]
  constructor
  · rintro ⟨d, hd, hplace⟩
    obtain rfl := (hplace.eq_iff hc).2 rfl
    exact hd
  · intro hmem
    exact ⟨c, hmem, hc⟩

/-- The printing goes on inside of new cells at the same place. -/
theorem Printing.insert (h : Printing base size seen path path') {c c' : Nat}
    (hc : base.Aligned c c') (hlt : c < size) (hnew : c ∉ path) :
    Printing base size (c :: seen) (path.insert c) (path'.insert c') where
  first d := by
    rw [Std.TreeSet.mem_insert, Std.LawfulEqCmp.compare_eq_iff_eq, h.first, List.mem_cons, eq_comm]
  second d' := by
    rw [Std.TreeSet.mem_insert, Std.LawfulEqCmp.compare_eq_iff_eq, h.second]
    constructor
    · rintro (rfl | ⟨d, hd, hplace⟩)
      · exact ⟨c, List.mem_cons_self, hc⟩
      · exact ⟨d, List.mem_cons_of_mem c hd, hplace⟩
    · rintro ⟨d, hd, hplace⟩
      rcases List.mem_cons.1 hd with rfl | hd
      · exact .inl ((hc.eq_iff hplace).1 rfl)
      · exact .inr ⟨d, hd, hplace⟩
  nodup := List.nodup_cons.2 ⟨fun hmem => hnew ((h.first c).2 hmem), h.nodup⟩
  new := List.forall_mem_cons.2 ⟨⟨hc.new, hlt⟩, h.new⟩

/-- Linked values are printed in the same way, with whatever numbers of cells that are enough for
the two stores. -/
theorem Parallel.write_eq (h : Parallel base s s') {fuel fuel' : Nat}
    (hv : Linked base s.size v v') (hpath : Printing base s.size seen path path')
    (hfuel : s.size < fuel + seen.length) (hfuel' : s'.size < fuel' + seen.length)
    (out : String) : s.write fuel path v out = s'.write fuel' path' v' out ∧
      s.writeTail fuel path v out = s'.writeTail fuel' path' v' out := by
  have hplaces := h.size_eq
  have hlength := hpath.length_le h.first.size_le
  induction fuel generalizing fuel' v v' seen path path' out with
  | zero => omega
  | succ fuel ih =>
    obtain ⟨fuel', rfl⟩ : ∃ n, fuel' = n + 1 := ⟨fuel' - 1, by omega⟩
    cases hv with
    | atom a => cases a <;> exact ⟨rfl, rfl⟩
    | @cell c c' hnew hlt =>
      by_cases hmem : c ∈ path
      · have hmem' : c' ∈ path' := (hpath.mem_iff hnew).2 hmem
        rw [write, write, writeTail, writeTail, if_pos hmem, if_pos hmem', if_pos hmem,
          if_pos hmem']
        exact ⟨rfl, rfl⟩
      · have hmem' : c' ∉ path' := fun h' => hmem ((hpath.mem_iff hnew).1 h')
        have hinside := hpath.insert hnew hlt hmem
        have hfuel : s.size < fuel + (c :: seen).length := by rw [List.length_cons]; omega
        have hfuel' : s'.size < fuel' + (c :: seen).length := by rw [List.length_cons]; omega
        have hrest {w w' : Value} (hw : Linked base s.size w w') (out : String) :=
          ih hw hinside hfuel hfuel' out (hinside.length_le h.first.size_le)
        have hhead (out : String) := (hrest (h.head c c' hnew hlt) out).1
        have htail (out : String) := (hrest (h.tail c c' hnew hlt) out).2
        rw [write, write, writeTail, writeTail, if_neg hmem, if_neg hmem', if_neg hmem,
          if_neg hmem']
        dsimp only
        rw [hhead, hhead, htail, htail]
        exact ⟨rfl, rfl⟩
    | @tree c c' head tail head' tail' he he' hmatch hsettled =>
      have habove : base.first.Above path (Sexp.pair c head tail).height :=
        fun d hd => .inl (hpath.new d ((hpath.first d).1 hd)).1
      have habove' : base.second.Above path' (Sexp.pair c' head' tail').height := by
        intro d' hd'
        obtain ⟨d, -, hplace⟩ := (hpath.second d').1 hd'
        exact .inl hplace.new_second
      have hle : (Sexp.pair c head tail).height ≤ fuel + 1 := by
        have hheight := he.height_le_size
        omega
      have hle' : (Sexp.pair c' head' tail').height ≤ fuel' + 1 := by
        have hheight' := he'.height_le_size
        omega
      have hwrite := write_value h.first he hle habove out
      have hwrite' := write_value h.second he' hle' habove' out
      rw [Sexp.value] at hwrite hwrite'
      rw [hwrite.1, hwrite.2, hwrite'.1, hwrite'.2]
      exact hmatch.write_eq out

/-- Linked values have the same printed form. -/
theorem Parallel.render_eq (h : Parallel base s s') (hv : Linked base s.size v v') :
    s.render v = s'.render v' := by
  have hnone : Printing base s.size [] ∅ ∅ := {
    first c := ⟨fun hc => absurd hc Std.TreeSet.not_mem_emptyc, nofun⟩
    second c' := ⟨fun hc => absurd hc Std.TreeSet.not_mem_emptyc, nofun⟩
    nodup := List.nodup_nil
    new := List.forall_mem_nil _ }
  exact (h.write_eq hv hnone (Nat.lt_succ_self _) (Nat.lt_succ_self _) "").1

end Store

/-! ### Host callables -/

namespace Primitive

open Store

variable {base : Bases} {s s' : Store} {args args' : List Value}

/-- A sum of linked values is the same. -/
theorem sumFrom_eq (p : Primitive) (total : Int64)
    (hargs : List.Forall₂ (Linked base s.size) args args') :
    p.sumFrom total args = p.sumFrom total args' := by
  induction hargs generalizing total with
  | nil => rfl
  | cons hv _ ih =>
    have hint := hv.eq_of_blind p.intArg fun _ _ => rfl
    simp only [sumFrom, hint, ih]

/-- What a primitive computes of linked values is the same. -/
theorem compute_eq (p : Primitive) (h : Parallel base s s')
    (hargs : List.Forall₂ (Linked base s.size) args args') :
    p.compute s args = p.compute s' args' := by
  have hint (p : Primitive) {v v' : Value} (hv : Linked base s.size v v') :
      p.intArg v = p.intArg v' := hv.eq_of_blind p.intArg fun _ _ => rfl
  have hlength := hargs.length_eq
  rcases hargs with _ | ⟨hv, _ | ⟨hw, _ | ⟨hx, _ | ⟨hy, _ | ⟨hz, hrest⟩⟩⟩⟩⟩
  · cases p <;> rfl
  · cases p <;> simp only [compute, hint _ hv, h.length_eq hv,
      hv.eq_of_blind Value.isNil fun _ _ => rfl, List.length_singleton]
  · cases p <;> simp only [compute, hint _ hv, hint _ hw, List.length_cons, List.length_nil]
  · cases p <;> rfl
  · cases p with
    | sum => exact sumFrom_eq .sum 0 (.cons hv (.cons hw (.cons hx (.cons hy .nil))))
    | _ => rfl
  · have hmany (t : Store) (v w x y z : Value) (rest : List Value) :
        p.compute t (v :: w :: x :: y :: z :: rest) = .error
          (arityMessage p.name p.arity (v :: w :: x :: y :: z :: rest).length) := by
      cases p <;> rfl
    rw [hmany, hmany, hlength]

/-- A primitive gives linked results for linked values. -/
theorem sameResult_apply (p : Primitive) (h : Parallel base s s')
    (hargs : List.Forall₂ (Linked base s.size) args args') :
    s.size ≤ (p.apply s args).2.size ∧ Parallel base (p.apply s args).2 (p.apply s' args').2 ∧
      SameResult (Linked base (p.apply s args).2.size) (p.apply s args).1 (p.apply s' args').1 := by
  have hcompute : Parallel base s s' ∧
      SameResult (Linked base s.size) (p.compute s args) (p.compute s' args') := by
    rw [← p.compute_eq h hargs]
    cases hresult : p.compute s args with
    | ok v =>
      obtain ⟨a, -, rfl⟩ := exists_atom_of_compute hresult
      exact ⟨h, .ok (.atom a)⟩
    | error message => exact ⟨h, .error message⟩
  cases p with
  | list =>
    obtain ⟨hlist, hv⟩ := h.dotted hargs (.atom .nil)
    exact ⟨(extends_dotted s args .nil).size_le, hlist, .ok hv⟩
  | _ => exact ⟨Nat.le_refl _, hcompute⟩

end Primitive

/-- A host callable gives linked results for linked values. -/
theorem Callable.sameResult_call (c : Callable) {base : Bases}
    {s s' : Store} {args args' : List Value}
    (h : Store.Parallel base s s') (hargs : List.Forall₂ (Store.Linked base s.size) args args') :
    s.size ≤ (c.call s args).2.size ∧
      Store.Parallel base (c.call s args).2 (c.call s' args').2 ∧
      SameResult (Store.Linked base (c.call s args).2.size) (c.call s args).1
        (c.call s' args').1 := by
  rw [call, call, hargs.length_eq]
  split
  · exact c.primitive.sameResult_apply h hargs
  · exact ⟨Nat.le_refl _, h, .error _⟩

end Secd
