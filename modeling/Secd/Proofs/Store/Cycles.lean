import Mathlib.Data.Finset.Card
import Secd.Proofs.Store.Printer
import Secd.Proofs.Store.Unfolding
import Secd.Proofs.Token.Characters

/-!
# Cycles in printed values

The printed form of a value is described once more, as a sequence of marks and without a bound on
the number of steps: a cell that is met while it is being printed gives the mark of a cycle, and any
other cell gives its list. Every value of every store has such a form, because each cell on the way
from the root is one more that the guard holds, and there is only one. It has the mark of a cycle
exactly if the value reaches a cell that lies on a cycle. Otherwise the value is a finite tree, and
its form is that of the tree.
-/

namespace Secd

namespace Store

variable {s : Store}

/-! ### Cycles -/

/-- A path leads from the value to the value `w`. -/
def Reaches (s : Store) (v w : Value) : Prop := ∃ path, s.follow path v = some w

/-- A path that is not empty leads from the cell back to it. -/
def OnCycle (s : Store) (c : Nat) : Prop :=
  ∃ path, path ≠ [] ∧ s.follow path (.pair c) = some (.pair c)

/-- Two paths one after the other. -/
theorem follow_append (path path' : List Selector) (v : Value) :
    s.follow (path ++ path') v = (s.follow path v).bind (s.follow path') := by
  induction path generalizing v with
  | nil => rfl
  | cons part path ih =>
    rw [List.cons_append, follow, follow, Option.bind_assoc]
    exact Option.bind_congr fun w _ => ih w

/-- What a part of a pair reaches is reached by the pair. -/
theorem Reaches.of_part {c : Nat} (part : Selector) {v w : Value}
    (hpart : s.select part (.pair c) = some v) (h : s.Reaches v w) : s.Reaches (.pair c) w := by
  obtain ⟨path, hpath⟩ := h
  exact ⟨part :: path, by rw [follow, hpart]; exact hpath⟩

/-- No cell that a held tree reaches lies on a cycle: along a path the trees get lower. -/
theorem Holds.exists_of_follow {e : Sexp} (he : s.Holds e) {path : List Selector} {w : Value}
    (hpath : s.follow path e.value = some w) :
    ∃ e', s.Holds e' ∧ e'.value = w ∧ e'.height + path.length ≤ e.height := by
  induction path generalizing e with
  | nil => exact ⟨e, he, Option.some.inj hpath, Nat.le_refl _⟩
  | cons part path ih =>
    obtain ⟨v, hv, hrest⟩ := Option.bind_eq_some_iff.1 hpath
    cases e with
    | atom a => cases part <;> cases hv
    | pair c head tail =>
      obtain ⟨-, hcell, hhead, htail⟩ := he
      rw [Sexp.height, List.length_cons]
      cases part with
      | head =>
        rw [Sexp.value, select, hcell] at hv
        obtain rfl := Option.some.inj hv
        obtain ⟨e', he', hvalue, hle⟩ := ih hhead hrest
        exact ⟨e', he', hvalue, by omega⟩
      | tail =>
        rw [Sexp.value, select, hcell] at hv
        obtain rfl := Option.some.inj hv
        obtain ⟨e', he', hvalue, hle⟩ := ih htail hrest
        exact ⟨e', he', hvalue, by omega⟩

/-- A held tree has no cycles. -/
theorem Holds.not_onCycle {e : Sexp} (he : s.Holds e) {c : Nat}
    (hc : s.Reaches e.value (.pair c)) : ¬ s.OnCycle c := by
  rintro ⟨path, hne, hpath⟩
  obtain ⟨way, hway⟩ := hc
  obtain ⟨e', he', hvalue, -⟩ := he.exists_of_follow hway
  rw [← hvalue] at hpath
  obtain ⟨e'', he'', hvalue', hle⟩ := he'.exists_of_follow hpath
  obtain rfl := he''.eq_of_value_eq he' hvalue'
  have hpos : 0 < path.length := List.length_pos_iff.2 hne
  omega

/-! ### Marks -/

/-- What a printed form is put together from. -/
inductive Mark where
  | opening
  | closing
  | blank
  | dot
  | atom (a : Atom)
  /-- What stands for a cell that is being printed already. -/
  | cycle

/-- The text of a mark. -/
def Mark.text : Mark → String
  | .opening => "("
  | .closing => ")"
  | .blank => " "
  | .dot => " . "
  | .atom a => a.text
  | .cycle => "#cycle"

/-- The text of marks that come one after the other. -/
def Mark.texts (marks : List Mark) : String := String.join (marks.map text)

/-- A mark that is not the first of a list or of an item is in one of the two parts. -/
theorem Mark.mem_parts {mark first : Mark} {marks marks' : List Mark}
    (h : mark ∈ first :: (marks ++ marks')) (hfirst : mark ≠ first) :
    mark ∈ marks ∨ mark ∈ marks' :=
  List.mem_append.1 ((List.mem_cons.1 h).resolve_left hfirst)

mutual

/-- While the cells of `path` are being printed, the form of the value consists of these marks. -/
inductive Prints (s : Store) : (path : List Nat) → Value → List Mark → Prop where
  | atom {path : List Nat} {a : Atom} : Prints s path (.atom a) [.atom a]
  | cycle {path : List Nat} {c : Nat} (hc : c ∈ path) : Prints s path (.pair c) [.cycle]
  | list {path : List Nat} {c : Nat} {marks marks' : List Mark} (hc : c ∉ path)
      (hhead : Prints s (c :: path) (s.cell c).head marks)
      (htail : PrintsTail s (c :: path) (s.cell c).tail marks') :
      Prints s path (.pair c) (.opening :: (marks ++ marks'))

/-- The same for what follows the head of a list. -/
inductive PrintsTail (s : Store) : (path : List Nat) → Value → List Mark → Prop where
  | nil {path : List Nat} : PrintsTail s path .nil [.closing]
  | atom {path : List Nat} {a : Atom} (ha : a ≠ .nil) :
      PrintsTail s path (.atom a) [.dot, .atom a, .closing]
  | cycle {path : List Nat} {c : Nat} (hc : c ∈ path) :
      PrintsTail s path (.pair c) [.dot, .cycle, .closing]
  | item {path : List Nat} {c : Nat} {marks marks' : List Mark} (hc : c ∉ path)
      (hhead : Prints s (c :: path) (s.cell c).head marks)
      (htail : PrintsTail s (c :: path) (s.cell c).tail marks') :
      PrintsTail s path (.pair c) (.blank :: (marks ++ marks'))

end

/-! ### Every value has a printed form -/

/-- The number of cells of the store that are not being printed. -/
def unprinted (s : Store) (path : List Nat) : Nat :=
  ((Finset.range s.size).filter (· ∉ path)).card

/-- Every cell of the store that begins to be printed is one less. -/
theorem unprinted_cons_lt {path : List Nat} {c : Nat} (hlt : c < s.size) (hc : c ∉ path) :
    s.unprinted (c :: path) < s.unprinted path := by
  refine Finset.card_lt_card (Finset.ssubset_iff_subset_ne.2 ⟨?_, ?_⟩)
  · intro d hd
    rw [Finset.mem_filter, List.mem_cons, not_or] at hd
    exact Finset.mem_filter.2 ⟨hd.1, hd.2.2⟩
  · intro heq
    have hmem : c ∈ (Finset.range s.size).filter (· ∉ path) :=
      Finset.mem_filter.2 ⟨Finset.mem_range.2 hlt, hc⟩
    rw [← heq, Finset.mem_filter] at hmem
    exact hmem.2 List.mem_cons_self

/-- Every value has a printed form, whatever is being printed, and so has every tail. -/
theorem exists_prints (s : Store) (path : List Nat) (v : Value) :
    (∃ marks, s.Prints path v marks) ∧ ∃ marks, s.PrintsTail path v marks := by
  induction hn : s.unprinted path using Nat.strongRecOn generalizing path v with
  | ind n ih =>
    cases v with
    | atom a =>
      refine ⟨⟨_, .atom⟩, ?_⟩
      by_cases ha : a = .nil
      · subst ha
        exact ⟨_, .nil⟩
      · exact ⟨_, .atom ha⟩
    | pair c =>
      by_cases hc : c ∈ path
      · exact ⟨⟨_, .cycle hc⟩, ⟨_, .cycle hc⟩⟩
      · have hparts : (∃ marks, s.Prints (c :: path) (s.cell c).head marks) ∧
            ∃ marks, s.PrintsTail (c :: path) (s.cell c).tail marks := by
          by_cases hlt : c < s.size
          · have hless := hn ▸ unprinted_cons_lt hlt hc
            exact ⟨(ih _ hless _ _ rfl).1, (ih _ hless _ _ rfl).2⟩
          · rw [cell_of_size_le (Nat.not_lt.1 hlt)]
            exact ⟨⟨_, .atom⟩, ⟨_, .nil⟩⟩
        obtain ⟨⟨marks, hhead⟩, ⟨marks', htail⟩⟩ := hparts
        exact ⟨⟨_, .list hc hhead htail⟩, ⟨_, .item hc hhead htail⟩⟩

mutual

/-- A value has only one printed form. -/
theorem Prints.unique {path : List Nat} {v : Value} {marks marks' : List Mark} :
    s.Prints path v marks → s.Prints path v marks' → marks = marks'
  | .atom, .atom => rfl
  | .cycle _, .cycle _ => rfl
  | .cycle hc, .list hc' _ _ => absurd hc hc'
  | .list hc _ _, .cycle hc' => absurd hc' hc
  | .list _ hhead htail, .list _ hhead' htail' => by
    rw [hhead.unique hhead', htail.unique htail']

/-- A tail has only one printed form. -/
theorem PrintsTail.unique {path : List Nat} {v : Value} {marks marks' : List Mark} :
    s.PrintsTail path v marks → s.PrintsTail path v marks' → marks = marks'
  | .nil, .nil => rfl
  | .nil, .atom ha => absurd rfl ha
  | .atom ha, .nil => absurd rfl ha
  | .atom _, .atom _ => rfl
  | .cycle _, .cycle _ => rfl
  | .cycle hc, .item hc' _ _ => absurd hc hc'
  | .item hc _ _, .cycle hc' => absurd hc' hc
  | .item _ hhead htail, .item _ hhead' htail' => by
    rw [hhead.unique hhead', htail.unique htail']

end

/-! ### The printer writes the printed form -/

/-- The text of marks in two parts. -/
theorem Mark.texts_append (marks marks' : List Mark) :
    texts (marks ++ marks') = texts marks ++ texts marks' := by
  rw [texts, List.map_append, String.join_append]
  rfl

/-- The text of marks begins with that of the first one. -/
theorem Mark.texts_cons (mark : Mark) (marks : List Mark) :
    texts (mark :: marks) = mark.text ++ texts marks := by
  rw [texts, List.map_cons, String.join_cons]
  rfl

/-- If there is room for the cells that are not being printed, then there is room for the parts of a
cell that begins to be printed. A cell that is not in the store has no pairs in it. -/
theorem unprinted_parts_lt {path : List Nat} {c fuel : Nat} (hc : c ∉ path)
    (hfuel : s.unprinted path < fuel + 1) {v : Value}
    (hv : v = (s.cell c).head ∨ v = (s.cell c).tail) (hpair : v.isPair = true) :
    s.unprinted (c :: path) < fuel := by
  by_cases hlt : c < s.size
  · have hless := unprinted_cons_lt hlt hc
    omega
  · rw [cell_of_size_le (Nat.not_lt.1 hlt)] at hv
    rcases hv with rfl | rfl <;> cases hpair

/-- The cell that begins to be printed is added to those that are being printed. -/
theorem mem_insert_iff_mem_cons {seen : Std.TreeSet Nat} {path : List Nat}
    (hseen : ∀ c, c ∈ seen ↔ c ∈ path) (c d : Nat) : d ∈ seen.insert c ↔ d ∈ c :: path := by
  rw [Std.TreeSet.mem_insert, Std.LawfulEqCmp.compare_eq_iff_eq, hseen, List.mem_cons, eq_comm]

mutual

/-- The printer writes the printed form, if it is given room for the cells that are not being
printed. -/
theorem Prints.write_eq {path : List Nat} {v : Value} {marks : List Mark} {fuel : Nat}
    {seen : Std.TreeSet Nat} (hseen : ∀ c, c ∈ seen ↔ c ∈ path)
    (hfuel : v.isPair = true → s.unprinted path < fuel) (out : String) :
    s.Prints path v marks → s.write fuel seen v out = out ++ Mark.texts marks
  | .atom => by
    cases fuel <;> rw [write, Mark.texts_cons] <;> simp [Mark.texts, Mark.text]
  | .cycle (c := c) hc => by
    obtain ⟨n, rfl⟩ : ∃ n, fuel = n + 1 := ⟨fuel - 1, by have := hfuel rfl; omega⟩
    rw [write, if_pos ((hseen c).2 hc)]
    simp [Mark.texts, Mark.text]
  | .list (c := c) hc hhead htail => by
    obtain ⟨n, rfl⟩ : ∃ n, fuel = n + 1 := ⟨fuel - 1, by have := hfuel rfl; omega⟩
    have hroom := fun v => unprinted_parts_lt hc (hfuel rfl) (v := v)
    have hinside := mem_insert_iff_mem_cons hseen c
    rw [write, if_neg fun hmem => hc ((hseen c).1 hmem)]
    dsimp only
    rw [hhead.write_eq hinside (hroom _ (.inl rfl)),
      htail.writeTail_eq hinside (hroom _ (.inr rfl)),
      Mark.texts_cons, Mark.texts_append, Mark.text]
    simp only [String.append_assoc]

/-- The same for what follows the head of a list. -/
theorem PrintsTail.writeTail_eq {path : List Nat} {v : Value} {marks : List Mark} {fuel : Nat}
    {seen : Std.TreeSet Nat} (hseen : ∀ c, c ∈ seen ↔ c ∈ path)
    (hfuel : v.isPair = true → s.unprinted path < fuel) (out : String) :
    s.PrintsTail path v marks → s.writeTail fuel seen v out = out ++ Mark.texts marks
  | .nil => by
    cases fuel <;> simp [writeTail, Mark.texts, Mark.text]
  | .atom (a := a) ha => by
    cases fuel <;> cases a <;> simp_all [writeTail, Mark.texts, Mark.text, String.append_assoc]
  | .cycle (c := c) hc => by
    obtain ⟨n, rfl⟩ : ∃ n, fuel = n + 1 := ⟨fuel - 1, by have := hfuel rfl; omega⟩
    rw [writeTail, if_pos ((hseen c).2 hc)]
    simp [Mark.texts, Mark.text]
  | .item (c := c) hc hhead htail => by
    obtain ⟨n, rfl⟩ : ∃ n, fuel = n + 1 := ⟨fuel - 1, by have := hfuel rfl; omega⟩
    have hroom := fun v => unprinted_parts_lt hc (hfuel rfl) (v := v)
    have hinside := mem_insert_iff_mem_cons hseen c
    rw [writeTail, if_neg fun hmem => hc ((hseen c).1 hmem)]
    dsimp only
    rw [hhead.write_eq hinside (hroom _ (.inl rfl)),
      htail.writeTail_eq hinside (hroom _ (.inr rfl)),
      Mark.texts_cons, Mark.texts_append, Mark.text]
    simp only [String.append_assoc]

end

/-- The printed form of a value is the text of its marks. -/
theorem Prints.render_eq {v : Value} {marks : List Mark} (h : s.Prints [] v marks) :
    s.render v = Mark.texts marks := by
  have hall : s.unprinted [] ≤ s.size :=
    (Finset.card_filter_le _ _).trans (Finset.card_range _).le
  have hnone (c : Nat) : c ∈ (∅ : Std.TreeSet Nat) ↔ c ∈ [] :=
    ⟨fun hc => absurd hc Std.TreeSet.not_mem_emptyc, nofun⟩
  rw [render, h.write_eq hnone (fun _ => Nat.lt_succ_of_le hall), String.empty_append]

/-! ### The marks of cycles -/

/-- The cells of `path` are on the way to the value. -/
def Leads (s : Store) (path : List Nat) (v : Value) : Prop :=
  ∀ c ∈ path, ∃ way, way ≠ [] ∧ s.follow way (.pair c) = some v

/-- At the root no cell is on the way. -/
theorem leads_nil (s : Store) (v : Value) : s.Leads [] v :=
  fun _ hc => absurd hc List.not_mem_nil

/-- The cell of a pair and those on the way to it are on the way to each of its parts. -/
theorem Leads.part {path : List Nat} {c : Nat} (h : s.Leads path (.pair c)) (part : Selector)
    {v : Value} (hpart : s.select part (.pair c) = some v) : s.Leads (c :: path) v := by
  intro d hd
  rcases List.mem_cons.1 hd with rfl | hd
  · exact ⟨[part], List.cons_ne_nil _ _, by rw [follow, hpart]; rfl⟩
  · obtain ⟨way, -, hway⟩ := h d hd
    refine ⟨way ++ [part], by simp, ?_⟩
    rw [follow_append, hway, Option.bind_some, follow, hpart]
    rfl

mutual

/-- Where a cycle is marked, the value reaches a cell that lies on one. -/
theorem Prints.exists_onCycle {path : List Nat} {v : Value} {marks : List Mark}
    (hpath : s.Leads path v) (hmark : Mark.cycle ∈ marks) :
    s.Prints path v marks → ∃ c, s.Reaches v (.pair c) ∧ s.OnCycle c
  | .atom => by cases List.mem_singleton.1 hmark
  | .cycle (c := c) hc => ⟨c, ⟨[], rfl⟩, hpath c hc⟩
  | .list (c := c) _ hhead htail => by
    rcases Mark.mem_parts hmark nofun with hmark | hmark
    · obtain ⟨d, hreach, hd⟩ := hhead.exists_onCycle (hpath.part .head rfl) hmark
      exact ⟨d, hreach.of_part .head rfl, hd⟩
    · obtain ⟨d, hreach, hd⟩ := htail.exists_onCycle (hpath.part .tail rfl) hmark
      exact ⟨d, hreach.of_part .tail rfl, hd⟩

/-- The same for what follows the head of a list. -/
theorem PrintsTail.exists_onCycle {path : List Nat} {v : Value} {marks : List Mark}
    (hpath : s.Leads path v) (hmark : Mark.cycle ∈ marks) :
    s.PrintsTail path v marks → ∃ c, s.Reaches v (.pair c) ∧ s.OnCycle c
  | .nil => by cases List.mem_singleton.1 hmark
  | .atom _ => by simp at hmark
  | .cycle (c := c) hc => ⟨c, ⟨[], rfl⟩, hpath c hc⟩
  | .item (c := c) _ hhead htail => by
    rcases Mark.mem_parts hmark nofun with hmark | hmark
    · obtain ⟨d, hreach, hd⟩ := hhead.exists_onCycle (hpath.part .head rfl) hmark
      exact ⟨d, hreach.of_part .head rfl, hd⟩
    · obtain ⟨d, hreach, hd⟩ := htail.exists_onCycle (hpath.part .tail rfl) hmark
      exact ⟨d, hreach.of_part .tail rfl, hd⟩

end

/-! ### Values without cycles -/

mutual

/-- A value that is printed without the mark of a cycle is a tree that the store holds. -/
theorem Prints.exists_holds (hs : s.Closed) {path : List Nat} {v : Value} {marks : List Mark}
    (hv : s.Contains v) (hmark : Mark.cycle ∉ marks) :
    s.Prints path v marks → ∃ e, s.Holds e ∧ e.value = v
  | .atom (a := a) => ⟨.atom a, trivial, rfl⟩
  | .cycle _ => absurd List.mem_cons_self hmark
  | .list (c := c) _ hhead htail => by
    have hparts := hs.contains_parts hv
    simp only [List.mem_cons, List.mem_append, reduceCtorEq, false_or, not_or] at hmark
    obtain ⟨head, hholds, hvalue⟩ := hhead.exists_holds hs hparts.1 hmark.1
    obtain ⟨tail, hholds', hvalue'⟩ := htail.exists_holds hs hparts.2 hmark.2
    exact ⟨.pair c head tail, ⟨hv, by rw [hvalue, hvalue'], hholds, hholds'⟩, rfl⟩

/-- The same for what follows the head of a list. -/
theorem PrintsTail.exists_holds (hs : s.Closed) {path : List Nat} {v : Value} {marks : List Mark}
    (hv : s.Contains v) (hmark : Mark.cycle ∉ marks) :
    s.PrintsTail path v marks → ∃ e, s.Holds e ∧ e.value = v
  | .nil => ⟨.nil, trivial, rfl⟩
  | .atom (a := a) _ => ⟨.atom a, trivial, rfl⟩
  | .cycle _ => by simp at hmark
  | .item (c := c) _ hhead htail => by
    have hparts := hs.contains_parts hv
    simp only [List.mem_cons, List.mem_append, reduceCtorEq, false_or, not_or] at hmark
    obtain ⟨head, hholds, hvalue⟩ := hhead.exists_holds hs hparts.1 hmark.1
    obtain ⟨tail, hholds', hvalue'⟩ := htail.exists_holds hs hparts.2 hmark.2
    exact ⟨.pair c head tail, ⟨hv, by rw [hvalue, hvalue'], hholds, hholds'⟩, rfl⟩

end

/-! ### Where the marker stands in the text -/

mutual

/-- The atoms that are printed are reached by the value. -/
theorem Prints.reaches_of_mem {path : List Nat} {v : Value} {marks : List Mark} {a : Atom}
    (ha : Mark.atom a ∈ marks) : s.Prints path v marks → s.Reaches v (.atom a)
  | .atom => by
    obtain rfl := Mark.atom.inj (List.mem_singleton.1 ha)
    exact ⟨[], rfl⟩
  | .cycle _ => by cases List.mem_singleton.1 ha
  | .list _ hhead htail => by
    rcases Mark.mem_parts ha nofun with ha | ha
    · exact (hhead.reaches_of_mem ha).of_part .head rfl
    · exact (htail.reaches_of_mem ha).of_part .tail rfl

/-- The same for what follows the head of a list. -/
theorem PrintsTail.reaches_of_mem {path : List Nat} {v : Value} {marks : List Mark} {a : Atom}
    (ha : Mark.atom a ∈ marks) : s.PrintsTail path v marks → s.Reaches v (.atom a)
  | .nil => by cases List.mem_singleton.1 ha
  | .atom _ => by
    obtain rfl : a = _ := by simpa using ha
    exact ⟨[], rfl⟩
  | .cycle _ => by simp at ha
  | .item _ hhead htail => by
    rcases Mark.mem_parts ha nofun with ha | ha
    · exact (hhead.reaches_of_mem ha).of_part .head rfl
    · exact (htail.reaches_of_mem ha).of_part .tail rfl

end

/-- In the text a number sign is found only where a callable begins. -/
def NoMarker (text : List Char) : Prop :=
  ∀ before after, text = before ++ '#' :: after → ∃ rest, after = '<' :: rest

/-- A text without number signs. -/
theorem noMarker_of_not_mem {text : List Char} (h : '#' ∉ text) : NoMarker text := by
  rintro before after rfl
  exact absurd (List.mem_append_right _ List.mem_cons_self) h

/-- Two such texts, one after the other. -/
theorem NoMarker.append {text text' : List Char} (h : NoMarker text) (h' : NoMarker text') :
    NoMarker (text ++ text') := by
  intro before after heq
  rcases List.append_eq_append_iff.1 heq with ⟨more, rfl, hmore⟩ | ⟨more, rfl, hmore⟩
  · exact h' more after hmore
  · cases more with
    | nil => exact h' [] after hmore.symm
    | cons c rest =>
      obtain ⟨rfl, rfl⟩ := List.cons.inj hmore
      obtain ⟨rest', rfl⟩ := h before rest rfl
      exact ⟨rest' ++ text', rfl⟩

/-- The marker of a cycle is found in no such text. -/
theorem NoMarker.unmarked {text : List Char} (h : NoMarker text) :
    ¬ "#cycle".toList <:+: text := by
  rintro ⟨before, after, rfl⟩
  obtain ⟨rest, hrest⟩ := h before ("cycle".toList ++ after) (by simp)
  cases hrest

/-- The atom has no name with a number sign in it. -/
def Unmarked (a : Atom) : Prop :=
  match a with
  | .symbol name => '#' ∉ name.toList
  | .callable f => '#' ∉ f.name.toList
  | _ => True

/-- The text of an atom that is no symbol with a number sign. -/
theorem noMarker_text {a : Atom} (ha : Unmarked a) : NoMarker a.text.toList := by
  cases a with
  | nil => exact noMarker_of_not_mem (by decide)
  | symbol name => exact noMarker_of_not_mem ha
  | int n =>
    refine noMarker_of_not_mem fun h => ?_
    rcases Integer.eq_or_isDigit_of_mem_text h with h | h
    · exact absurd h (by decide)
    · exact absurd h (by decide)
  | callable f =>
    have hrest : '#' ∉ "<".toList ++ f.name.toList ++ "/".toList ++ (toString f.arity).toList ++
        ">".toList := by
      simp only [List.mem_append, not_or]
      refine ⟨⟨⟨⟨by decide, ha⟩, by decide⟩, fun h => ?_⟩, by decide⟩
      exact absurd (isDigit_of_mem_toString h) (by decide)
    have htext : (Atom.callable f).text.toList = '#' :: ("<".toList ++ f.name.toList ++
        "/".toList ++ (toString f.arity).toList ++ ">".toList) := by
      simp [Atom.text, Callable.text, String.toList_append]
    rw [htext]
    intro before after heq
    cases before with
    | nil =>
      obtain ⟨-, rfl⟩ := List.cons.inj heq
      exact ⟨_, rfl⟩
    | cons c before =>
      obtain ⟨-, htail⟩ := List.cons.inj heq
      exact absurd (htail ▸ List.mem_append_right _ List.mem_cons_self) hrest

/-- The text of marks among which there is none of a cycle. -/
theorem Mark.noMarker_texts {marks : List Mark} (hnames : ∀ a, Mark.atom a ∈ marks → Unmarked a)
    (hmark : Mark.cycle ∉ marks) : NoMarker (texts marks).toList := by
  induction marks with
  | nil => exact noMarker_of_not_mem (by decide)
  | cons mark marks ih =>
    rw [texts_cons, String.toList_append]
    refine NoMarker.append ?_ (ih (fun a ha => hnames a (List.mem_cons_of_mem _ ha))
      fun h => hmark (List.mem_cons_of_mem _ h))
    cases mark with
    | atom a => exact noMarker_text (hnames a List.mem_cons_self)
    | cycle => exact absurd List.mem_cons_self hmark
    | _ => exact noMarker_of_not_mem (by decide)

/-- Names aside, the marker of a cycle is found in the text exactly if it is among the marks. -/
theorem Mark.infix_texts_iff {marks : List Mark}
    (hnames : ∀ a, Mark.atom a ∈ marks → Unmarked a) :
    "#cycle".toList <:+: (texts marks).toList ↔ Mark.cycle ∈ marks := by
  constructor
  · intro h
    by_contra hmark
    exact (noMarker_texts hnames hmark).unmarked h
  · intro h
    obtain ⟨before, after, rfl⟩ := List.append_of_mem h
    refine ⟨(texts before).toList, (texts after).toList, ?_⟩
    rw [texts_append, texts_cons, String.toList_append, String.toList_append, List.append_assoc]
    rfl

/-! ### The guard is exact -/

/-- In a finite graph of cells every value has a printed form, and only one, although nothing bounds
the number of steps in which it is written. What is printed is its text, and it has the mark of a
cycle exactly if the value reaches a cell on a cycle; if no name has a number sign in it, then this
is also when the marker is found in the text. A value from which no cycle is reached is a finite
tree, and its text is what the printer without a guard writes for the tree, in which each cell is
repeated wherever it is shared. -/
theorem prints_exactly (hs : s.Closed) {v : Value} (hv : s.Contains v) :
    ∃ marks, s.Prints [] v marks ∧ (∀ marks', s.Prints [] v marks' → marks' = marks) ∧
      s.render v = Mark.texts marks ∧
      (Mark.cycle ∈ marks ↔ ∃ c, s.Reaches v (.pair c) ∧ s.OnCycle c) ∧
      ((∀ a, s.Reaches v (.atom a) → Unmarked a) →
        ("#cycle".toList <:+: (s.render v).toList ↔
          ∃ c, s.Reaches v (.pair c) ∧ s.OnCycle c)) ∧
      ((∀ c, s.Reaches v (.pair c) → ¬ s.OnCycle c) →
        ∃ e, s.Holds e ∧ e.value = v ∧ s.render v = e.render) := by
  obtain ⟨marks, hmarks⟩ := (exists_prints s [] v).1
  have hcycle : Mark.cycle ∈ marks ↔ ∃ c, s.Reaches v (.pair c) ∧ s.OnCycle c := by
    refine ⟨fun h => hmarks.exists_onCycle (leads_nil s v) h, fun ⟨c, hreach, hc⟩ => ?_⟩
    by_contra hmark
    obtain ⟨e, he, rfl⟩ := hmarks.exists_holds hs hv hmark
    exact he.not_onCycle hreach hc
  refine ⟨marks, hmarks, fun marks' h => h.unique hmarks, hmarks.render_eq, hcycle, ?_, ?_⟩
  · intro hnames
    rw [hmarks.render_eq, ← hcycle]
    exact Mark.infix_texts_iff fun a ha => hnames a (hmarks.reaches_of_mem ha)
  · intro hnone
    obtain ⟨e, he, rfl⟩ := hmarks.exists_holds hs hv fun h => by
      obtain ⟨c, hreach, hc⟩ := hcycle.1 h
      exact hnone c hreach hc
    exact ⟨e, he, rfl, render_value he⟩

/-- A list whose items share their only cell, in cell `2`, and a list that is its own item, in cell
`3`; the list of cell `4` has both. -/
def tangle : Store :=
  ⟨#[⟨.int 1, .nil⟩, ⟨.pair 0, .nil⟩, ⟨.pair 0, .pair 1⟩, ⟨.pair 3, .nil⟩, ⟨.pair 2, .pair 3⟩], 0⟩

/-- The list with both is printed with the marker, and its first item without. -/
theorem prints_exactly_tangle :
    tangle.Closed ∧ tangle.Contains (.pair 4) ∧ tangle.Contains (.pair 2) ∧
      (∃ marks, tangle.Prints [] (.pair 4) marks ∧ Mark.cycle ∈ marks ∧
        tangle.render (.pair 4) = Mark.texts marks) ∧
      tangle.render (.pair 4) = "(((1) (1)) #cycle)" ∧
      (∃ e, tangle.Holds e ∧ e.value = .pair 2 ∧ tangle.render (.pair 2) = e.render) ∧
      tangle.render (.pair 2) = "((1) (1))" := by
  have hclosed : tangle.Closed := by decide
  have hknotted : tangle.Contains (.pair 4) := by decide
  have hshared : tangle.Contains (.pair 2) := by decide
  have hknot : ∃ c, tangle.Reaches (.pair 4) (.pair c) ∧ tangle.OnCycle c :=
    ⟨3, ⟨[.tail], rfl⟩, [.head], List.cons_ne_nil _ _, rfl⟩
  have hnone (c : Nat) (hreach : tangle.Reaches (.pair 2) (.pair c)) : ¬ tangle.OnCycle c := by
    have one : tangle.Holds (.pair 0 (.int 1) .nil) := ⟨by decide, rfl, trivial, trivial⟩
    have both : tangle.Holds
        (.pair 2 (.pair 0 (.int 1) .nil) (.pair 1 (.pair 0 (.int 1) .nil) .nil)) :=
      ⟨by decide, rfl, one, by decide, rfl, one, trivial⟩
    exact both.not_onCycle hreach
  obtain ⟨marks, hmarks, -, hrender, hcycle, -, -⟩ := prints_exactly hclosed hknotted
  obtain ⟨-, -, -, -, -, -, htree⟩ := prints_exactly hclosed hshared
  exact ⟨hclosed, hknotted, hshared, ⟨marks, hmarks, hcycle.2 hknot, hrender⟩, by decide,
    htree hnone, by decide⟩

end Store

end Secd
