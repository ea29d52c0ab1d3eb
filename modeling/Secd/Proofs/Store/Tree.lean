import Mathlib.Data.List.Perm.Subperm
import Secd.Proofs.Sexp.Items
import Secd.Proofs.Store.Closed

/-!
# Trees in a store

An S-expression carries the addresses of its cells. A store *holds* the tree if these cells have
been allocated and hold what the tree says. Programs and their code are held by the store from the
moment they are built, and since no cell of theirs is ever written to, they are held by every later
store.

A held tree is determined by its value, and so no cell occurs twice on a path of it. Hence its
height is bounded by the size of the store, although its cells may be shared between paths.
-/

namespace Secd

namespace Sexp

/-- The number of pairs on a longest path of a tree. -/
def height : Sexp → Nat
  | .atom _ => 0
  | .pair _ head tail => max head.height tail.height + 1

/-- A list has no more items than it is high. -/
theorem length_le_height {e : Sexp} {list : List Sexp} (he : e.list? = some list) :
    list.length ≤ e.height := by
  induction e generalizing list with
  | atom a =>
    obtain ⟨-, rfl⟩ := list?_atom he
    exact Nat.zero_le _
  | pair cell head tail _ ih =>
    obtain ⟨rest, hrest, rfl⟩ := list?_pair_eq_some he
    have hle : rest.length ≤ tail.height := ih hrest
    rw [List.length_cons, height]
    omega

/-- The items of a list are less high than the list. -/
theorem height_lt_of_mem_list? {e : Sexp} {list : List Sexp} (he : e.list? = some list)
    {item : Sexp} (hitem : item ∈ list) : item.height < e.height := by
  induction e generalizing list with
  | atom a =>
    obtain ⟨-, rfl⟩ := list?_atom he
    cases hitem
  | pair cell head tail _ ih =>
    obtain ⟨rest, hrest, rfl⟩ := list?_pair_eq_some he
    rw [height]
    rcases List.mem_cons.1 hitem with rfl | hitem
    · omega
    · have hlt : item.height < tail.height := ih hrest hitem
      omega

end Sexp

namespace Store

/-- All cells of the tree have been allocated, and hold what the tree says. -/
def Holds (s : Store) : Sexp → Prop
  | .atom _ => True
  | .pair c head tail =>
    c < s.size ∧ s.cell c = ⟨head.value, tail.value⟩ ∧ s.Holds head ∧ s.Holds tail

variable {s s' : Store}

/-- Every store holds every atom. -/
@[simp] theorem holds_atom (a : Atom) : s.Holds (.atom a) := trivial

/-- The value of a held tree belongs to the store. -/
theorem Holds.contains {e : Sexp} (he : s.Holds e) : s.Contains e.value := by
  cases e with
  | atom a => exact trivial
  | pair c head tail => exact he.1

/-- A store holds a tree if it extends a store that does. -/
theorem Holds.extends {e : Sexp} (he : s.Holds e) (hs : s.Extends s') : s'.Holds e := by
  induction e with
  | atom a => exact trivial
  | pair c head tail ihHead ihTail =>
    obtain ⟨hlt, hcell, hhead, htail⟩ := he
    exact ⟨Nat.lt_of_lt_of_le hlt hs.size_le, (hs.cell_eq c hlt).trans hcell, ihHead hhead,
      ihTail htail⟩

/-- The items of a held list are held. -/
theorem Holds.of_mem_list? {e : Sexp} (he : s.Holds e) {list : List Sexp}
    (hlist : e.list? = some list) {item : Sexp} (hitem : item ∈ list) : s.Holds item := by
  induction e generalizing list with
  | atom a =>
    obtain ⟨-, rfl⟩ := Sexp.list?_atom hlist
    cases hitem
  | pair c head tail _ ih =>
    obtain ⟨-, -, hhead, htail⟩ := he
    obtain ⟨rest, hrest, rfl⟩ := Sexp.list?_pair_eq_some hlist
    rcases List.mem_cons.1 hitem with rfl | hitem
    · exact hhead
    · exact ih htail hrest hitem

/-! ### New trees -/

/-- A new pair of trees has the address that is handed out next. -/
theorem consTree_fst (s : Store) (head tail : Sexp) :
    (s.consTree head tail).1 = .pair s.size head tail := rfl

/-- A new pair of trees is a new pair of their values. -/
theorem consTree_snd (s : Store) (head tail : Sexp) :
    (s.consTree head tail).2 = (s.cons head.value tail.value).2 := rfl

/-- A new pair of held trees is held. -/
theorem holds_consTree {head tail : Sexp} (hhead : s.Holds head) (htail : s.Holds tail) :
    (s.consTree head tail).2.Holds (s.consTree head tail).1 := by
  rw [consTree_fst, consTree_snd]
  have hs : s.Extends (s.cons head.value tail.value).2 := extends_cons s _ _
  refine ⟨?_, cell_cons_size s _ _, hhead.extends hs, htail.extends hs⟩
  rw [size_cons]
  omega

/-! ### The height of held trees -/

/-- A held tree is determined by its value. -/
theorem Holds.eq_of_value_eq {e e' : Sexp} (he : s.Holds e) (he' : s.Holds e')
    (hvalue : e.value = e'.value) : e = e' := by
  induction e generalizing e' with
  | atom a =>
    cases e' with
    | atom b => rw [Value.atom.inj hvalue]
    | pair _ _ _ => cases hvalue
  | pair c head tail ihHead ihTail =>
    cases e' with
    | atom _ => cases hvalue
    | pair c' head' tail' =>
      obtain rfl : c = c' := Value.pair.inj hvalue
      obtain ⟨-, hcell, hhead, htail⟩ := he
      obtain ⟨-, hcell', hhead', htail'⟩ := he'
      obtain ⟨hheads, htails⟩ := Cell.mk.inj (hcell.symm.trans hcell')
      rw [ihHead hhead hhead' hheads, ihTail htail htail' htails]

/-- The cells along a longest path of a held tree are all different. -/
theorem Holds.exists_path {e : Sexp} (he : s.Holds e) :
    ∃ path : List Nat, path.Nodup ∧ path.length = e.height ∧
      ∀ c ∈ path, ∃ head tail, s.Holds (.pair c head tail) ∧
        (Sexp.pair c head tail).height ≤ e.height := by
  induction e with
  | atom a => exact ⟨[], List.nodup_nil, rfl, by simp⟩
  | pair c head tail ihHead ihTail =>
    have hpart : ∃ path : List Nat, path.Nodup ∧ path.length = max head.height tail.height ∧
        ∀ c ∈ path, ∃ head' tail', s.Holds (.pair c head' tail') ∧
          (Sexp.pair c head' tail').height ≤ max head.height tail.height := by
      rcases Nat.le_total head.height tail.height with hle | hle
      · rw [Nat.max_eq_right hle]
        exact ihTail he.2.2.2
      · rw [Nat.max_eq_left hle]
        exact ihHead he.2.2.1
    obtain ⟨path, hnodup, hlength, hpath⟩ := hpart
    have hnew : c ∉ path := by
      intro hc
      obtain ⟨head', tail', hheld, hheight⟩ := hpath c hc
      rw [hheld.eq_of_value_eq he rfl, Sexp.height] at hheight
      omega
    refine ⟨c :: path, List.nodup_cons.2 ⟨hnew, hnodup⟩, ?_, ?_⟩
    · rw [List.length_cons, hlength, Sexp.height]
    · intro d hd
      rcases List.mem_cons.1 hd with rfl | hd
      · exact ⟨head, tail, he, Nat.le_refl _⟩
      · obtain ⟨head', tail', hheld, hheight⟩ := hpath d hd
        exact ⟨head', tail', hheld, Nat.le_succ_of_le hheight⟩

/-- Different allocated cells are no more than the store is large. -/
theorem length_le_size_of_nodup {path : List Nat} (hnodup : path.Nodup)
    (hpath : ∀ c ∈ path, c < s.size) : path.length ≤ s.size := by
  have hsub : path ⊆ List.range s.size := by
    intro c hc
    exact List.mem_range.2 (hpath c hc)
  have hle : path.length ≤ (List.range s.size).length := (hnodup.subperm hsub).length_le
  rwa [List.length_range] at hle

/-- A held tree is no higher than the store is large. -/
theorem Holds.height_le_size {e : Sexp} (he : s.Holds e) : e.height ≤ s.size := by
  obtain ⟨path, hnodup, hlength, hpath⟩ := he.exists_path
  rw [← hlength]
  refine length_le_size_of_nodup hnodup ?_
  intro c hc
  obtain ⟨head, tail, hheld, -⟩ := hpath c hc
  exact hheld.1

end Store

end Secd
