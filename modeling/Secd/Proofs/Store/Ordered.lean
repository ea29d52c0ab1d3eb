import Secd.Proofs.Store.Chain
import Secd.Proofs.Store.Evolution
import Secd.Proofs.Store.Unfolding

/-!
# Stores in order of allocation

A pair can only be made of values that are there already. So the tail of a cell points to an older
cell, and so does its head, unless something else has been written there since. The store of a
machine has grown in this way out of a base in which only some trees are known, those with which it
was loaded; what else the base holds does not matter.

Every value of such a store has a rank: the height of its tree if it is one of the base, and
otherwise the number of its cell. The rank decreases along tails, and along heads that have not been
written to. Hence all chains of tails end, and a cycle needs a head that has been written to.
-/

namespace Secd

namespace Store

/-- The value is an atom, a tree of the base, or a pair in one of the cells from the end of the base
up to `size`. -/
def Known (base : Store) (size : Nat) : Value → Prop
  | .atom _ => True
  | .pair c => (∃ head tail, base.Holds (.pair c head tail)) ∨ base.size ≤ c ∧ c < size

variable {base s : Store} {P Q : Nat → Prop} {size size' : Nat} {v w : Value}

/-- Known values stay known when there are more cells. -/
theorem Known.mono (h : Known base size v) (hsize : size ≤ size') : Known base size' v := by
  cases v with
  | atom a => exact trivial
  | pair c =>
    rcases h with htree | ⟨hnew, hlt⟩
    · exact .inl htree
    · exact .inr ⟨hnew, Nat.lt_of_lt_of_le hlt hsize⟩

/-- The trees of the base are known. -/
theorem Holds.known {e : Sexp} (he : base.Holds e) (size : Nat) : Known base size e.value := by
  cases e with
  | atom a => exact trivial
  | pair c head tail => exact .inl ⟨head, tail, he⟩

/-- The store has grown out of the base in order: the values of known pairs are known, and the parts
of a new cell are older than the cell, except for heads at addresses with the property `P`. -/
structure Ordered (base : Store) (P : Nat → Prop) (s : Store) : Prop where
  evolves : base.Evolves P s
  head : ∀ c, Known base s.size (.pair c) → Known base s.size (s.cell c).head
  tail_older : ∀ c, base.size ≤ c → c < s.size → Known base c (s.cell c).tail
  head_older : ∀ c, base.size ≤ c → c < s.size → ¬ P c → Known base c (s.cell c).head

/-- A store has grown out of itself in order. -/
theorem ordered_refl (base : Store) (P : Nat → Prop) : Ordered base P base where
  evolves := .refl base
  head c hc := by
    rcases hc with ⟨head, tail, -, hcell, hhead, -⟩ | ⟨hnew, hlt⟩
    · rw [hcell]
      exact hhead.known base.size
    · omega
  tail_older c hnew hlt := by omega
  head_older c hnew hlt := by omega

/-- More cells may be written to. -/
theorem Ordered.imp (h : Ordered base P s) (hPQ : ∀ c, P c → Q c) : Ordered base Q s where
  evolves := Evolves.trans (.refl base) h.evolves fun c _ => hPQ c
  head := h.head
  tail_older := h.tail_older
  head_older c hnew hlt hQ := h.head_older c hnew hlt fun hP => hQ (hPQ c hP)

/-- A known cell has been allocated. -/
theorem Ordered.lt_size (h : Ordered base P s) {c : Nat} (hc : Known base s.size (.pair c)) :
    c < s.size := by
  rcases hc with ⟨head, tail, hlt, -⟩ | ⟨-, hlt⟩
  · exact Nat.lt_of_lt_of_le hlt h.evolves.size_le
  · exact hlt

/-- The tail of a cell of a tree of the base is that of the tree. -/
theorem Ordered.tail_eq (h : Ordered base P s) {c : Nat} {head tail : Sexp}
    (hc : base.Holds (.pair c head tail)) : (s.cell c).tail = tail.value := by
  rw [h.evolves.tail_eq c hc.1, hc.2.1]

/-- The parts of a known pair are known. -/
theorem Ordered.parts (h : Ordered base P s) {c : Nat} (hc : Known base s.size (.pair c)) :
    Known base s.size (s.cell c).head ∧ Known base s.size (s.cell c).tail := by
  refine ⟨h.head c hc, ?_⟩
  rcases hc with ⟨head, tail, htree⟩ | ⟨hnew, hlt⟩
  · rw [h.tail_eq htree]
    exact htree.2.2.2.known s.size
  · exact (h.tail_older c hnew hlt).mono (Nat.le_of_lt hlt)

/-- A new pair of known values is in order. -/
theorem Ordered.cons (h : Ordered base P s) {head tail : Value} (hhead : Known base s.size head)
    (htail : Known base s.size tail) : Ordered base P (s.cons head tail).2 := by
  have hle : s.size ≤ (s.cons head tail).2.size := (extends_cons s head tail).size_le
  -- the cell of the new pair is the last one
  have hlast {c : Nat} (hc : c < (s.cons head tail).2.size) (hold : ¬ c < s.size) :
      c = s.size := by
    rw [size_cons] at hc
    omega
  constructor
  · exact h.evolves.trans (extends_cons s head tail).evolves fun _ _ hc => hc
  · intro c hc
    by_cases hold : c < s.size
    · have hknown : Known base s.size (.pair c) := by
        rcases hc with htree | ⟨hnew, -⟩
        · exact .inl htree
        · exact .inr ⟨hnew, hold⟩
      rw [cell_cons_of_lt s head tail hold]
      exact (h.head c hknown).mono hle
    · have hlt : c < (s.cons head tail).2.size := by
        rcases hc with ⟨_, _, hbase, -⟩ | ⟨-, hlt⟩
        · exact absurd (Nat.lt_of_lt_of_le hbase h.evolves.size_le) hold
        · exact hlt
      obtain rfl := hlast hlt hold
      rw [cell_cons_size]
      exact hhead.mono hle
  · intro c hnew hlt
    by_cases hold : c < s.size
    · rw [cell_cons_of_lt s head tail hold]
      exact h.tail_older c hnew hold
    · obtain rfl := hlast hlt hold
      rw [cell_cons_size]
      exact htail
  · intro c hnew hlt hP
    by_cases hold : c < s.size
    · rw [cell_cons_of_lt s head tail hold]
      exact h.head_older c hnew hold hP
    · obtain rfl := hlast hlt hold
      rw [cell_cons_size]
      exact hhead

/-- A known value may be written into the head of a cell with the property. -/
theorem Ordered.setHead (h : Ordered base P s) {c : Nat} (hP : P c) {head : Value}
    (hhead : Known base s.size head) : Ordered base P (s.setHead c head) := by
  have hevolves : base.Evolves P (s.setHead c head) := by
    refine h.evolves.trans (evolves_setHead s c head) ?_
    rintro d - rfl
    exact hP
  constructor
  · exact hevolves
  · intro d hd
    rw [size_setHead] at hd ⊢
    by_cases hwritten : d = c
    · subst hwritten
      rw [cell_setHead_self s head (h.lt_size hd)]
      exact hhead
    · rw [cell_setHead_of_ne s head hwritten]
      exact h.head d hd
  · intro d hnew hlt
    rw [size_setHead] at hlt
    rw [tail_cell_setHead]
    exact h.tail_older d hnew hlt
  · intro d hnew hlt hd
    have hother : d ≠ c := fun hsame => hd (hsame ▸ hP)
    rw [size_setHead] at hlt
    rw [cell_setHead_of_ne s head hother]
    exact h.head_older d hnew hlt hd

/-! ### Ranks -/

/-- The rank of a value: the height of a tree of the base, and the number of a new cell, counted
from one. -/
inductive Ranked (base : Store) : Value → Nat → Prop where
  | tree {e : Sexp} (he : base.Holds e) : Ranked base e.value e.height
  | cell {c : Nat} (hc : base.size ≤ c) : Ranked base (.pair c) (c + 1)

/-- A value has one rank only. -/
theorem Ranked.eq {rank rank' : Nat} (h : Ranked base v rank) (h' : Ranked base v rank') :
    rank = rank' := by
  have hapart {e : Sexp} {c : Nat} (he : base.Holds e) (hc : base.size ≤ c) :
      e.value ≠ .pair c := by
    intro hvalue
    have hlt : base.Contains (.pair c) := hvalue ▸ he.contains
    exact absurd hlt (Nat.not_lt.2 hc)
  cases h with
  | @tree e he =>
    generalize hv : e.value = v at h'
    cases h' with
    | @tree e' he' => rw [he.eq_of_value_eq he' hv]
    | cell hc => exact absurd hv (hapart he hc)
  | @cell c hc =>
    generalize hv : Value.pair c = v at h'
    cases h' with
    | tree he' => exact absurd hv.symm (hapart he' hc)
    | cell _ => rw [Value.pair.inj hv]

/-- What is older than a new cell has a rank that is no larger than the number of the cell. -/
theorem Known.exists_ranked {c : Nat} (h : Known base c v) (hc : base.size ≤ c) :
    ∃ rank ≤ c, Ranked base v rank := by
  cases v with
  | atom a => exact ⟨0, Nat.zero_le c, .tree (holds_atom a)⟩
  | pair d =>
    rcases h with ⟨head, tail, htree⟩ | ⟨hnew, hlt⟩
    · exact ⟨_, Nat.le_trans htree.height_le_size hc, .tree htree⟩
    · exact ⟨d + 1, hlt, .cell hnew⟩

/-- The tail of a known pair has a smaller rank, and so has the head unless it may have been written
to. -/
theorem Ordered.exists_lower (h : Ordered base P s) {c rank : Nat}
    (hc : Known base s.size (.pair c)) (hrank : Ranked base (.pair c) rank) :
    (∃ lower < rank, Ranked base (s.cell c).tail lower) ∧
      (¬ P c → ∃ lower < rank, Ranked base (s.cell c).head lower) := by
  rcases hc with ⟨head, tail, htree⟩ | ⟨hnew, hlt⟩
  · obtain rfl := hrank.eq (.tree htree)
    refine ⟨⟨tail.height, ?_, ?_⟩, fun hP => ⟨head.height, ?_, ?_⟩⟩
    · rw [Sexp.height]
      omega
    · rw [h.tail_eq htree]
      exact .tree htree.2.2.2
    · rw [Sexp.height]
      omega
    · rw [h.evolves.head_eq c htree.1 hP, htree.2.1]
      exact .tree htree.2.2.1
  · obtain rfl := hrank.eq (.cell hnew)
    obtain ⟨lower, hle, htail⟩ := (h.tail_older c hnew hlt).exists_ranked hnew
    refine ⟨⟨lower, Nat.lt_succ_of_le hle, htail⟩, fun hP => ?_⟩
    obtain ⟨lower, hle, hhead⟩ := (h.head_older c hnew hlt hP).exists_ranked hnew
    exact ⟨lower, Nat.lt_succ_of_le hle, hhead⟩

/-- Following the tails of a known value comes to an end. -/
theorem Ordered.exists_chain (h : Ordered base P s) (hv : Known base s.size v) :
    ∃ cells ending, s.Chain v cells ending := by
  obtain ⟨rank, -, hrank⟩ := hv.exists_ranked h.evolves.size_le
  induction rank using Nat.strongRecOn generalizing v with
  | ind rank ih =>
    cases v with
    | atom a => exact ⟨[], a, rfl⟩
    | pair c =>
      obtain ⟨⟨lower, hlt, htail⟩, -⟩ := h.exists_lower hv hrank
      obtain ⟨cells, ending, hchain⟩ := ih lower hlt (h.parts hv).2 htail
      exact ⟨c :: cells, ending, rfl, h.lt_size hv, hchain⟩

/-- What a path from a known value leads to is known. -/
theorem Ordered.known_of_follow (h : Ordered base P s) (hv : Known base s.size v)
    {path : List Selector} (hpath : s.follow path v = some w) : Known base s.size w := by
  induction path generalizing v with
  | nil =>
    obtain rfl := Option.some.inj hpath
    exact hv
  | cons part path ih =>
    obtain ⟨u, hu, hrest⟩ := Option.bind_eq_some_iff.1 hpath
    cases v with
    | atom a => cases part <;> cases hu
    | pair c =>
      obtain ⟨hhead, htail⟩ := h.parts hv
      cases part with
      | head => exact ih ((Option.some.inj hu) ▸ hhead) hrest
      | tail => exact ih ((Option.some.inj hu) ▸ htail) hrest

/-- A path takes the head of a cell that may have been written to, or each of its steps makes the
rank smaller. -/
theorem Ordered.written_or_lower (h : Ordered base P s) (hv : Known base s.size v) {rank : Nat}
    (hrank : Ranked base v rank) {path : List Selector} (hpath : s.follow path v = some w) :
    (∃ before after c, path = before ++ .head :: after ∧
      s.follow before v = some (.pair c) ∧ P c) ∨
    ∃ lower, lower + path.length ≤ rank ∧ Ranked base w lower := by
  induction path generalizing v rank with
  | nil =>
    obtain rfl := Option.some.inj hpath
    exact .inr ⟨rank, Nat.le_refl _, hrank⟩
  | cons part path ih =>
    obtain ⟨u, hu, hrest⟩ := Option.bind_eq_some_iff.1 hpath
    cases v with
    | atom a => cases part <;> cases hu
    | pair c =>
      have hone : s.follow [part] (.pair c) = some u := by
        rw [follow, hu]
        rfl
      have hu' : Known base s.size u := h.known_of_follow hv hone
      obtain ⟨htail, hhead⟩ := h.exists_lower hv hrank
      -- a step to a smaller rank leaves the rest of the path
      have hstep (hlower : ∃ lower < rank, Ranked base u lower) :
          (∃ before after d, part :: path = before ++ .head :: after ∧
            s.follow before (.pair c) = some (.pair d) ∧ P d) ∨
          ∃ lower, lower + (part :: path).length ≤ rank ∧ Ranked base w lower := by
        obtain ⟨middle, hlt, hmiddle⟩ := hlower
        rcases ih hu' hmiddle hrest with ⟨before, after, d, rfl, hbefore, hd⟩ | ⟨lower, hle, hw⟩
        · refine .inl ⟨part :: before, after, d, rfl, ?_, hd⟩
          rw [follow, hu]
          exact hbefore
        · refine .inr ⟨lower, ?_, hw⟩
          rw [List.length_cons]
          omega
      cases part with
      | tail => exact hstep (Option.some.inj hu ▸ htail)
      | head =>
        by_cases hP : P c
        · exact .inl ⟨[], path, c, rfl, rfl, hP⟩
        · exact hstep (Option.some.inj hu ▸ hhead hP)

/-- A cycle takes the head of a cell that may have been written to. -/
theorem Ordered.written_of_cycle (h : Ordered base P s) (hv : Known base s.size v)
    {path : List Selector} (hpath : s.follow path v = some v) (hne : path ≠ []) :
    ∃ before after c, path = before ++ .head :: after ∧
      s.follow before v = some (.pair c) ∧ P c := by
  obtain ⟨rank, -, hrank⟩ := hv.exists_ranked h.evolves.size_le
  rcases h.written_or_lower hv hrank hpath with hwritten | ⟨lower, hle, hlower⟩
  · exact hwritten
  · have hpos : 0 < path.length := List.length_pos_iff.2 hne
    obtain rfl := hlower.eq hrank
    omega

end Store

end Secd
