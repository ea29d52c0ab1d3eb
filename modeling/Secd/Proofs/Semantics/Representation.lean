import Secd.Proofs.Machine.Code
import Secd.Proofs.Semantics.Evaluation
import Secd.Proofs.Store.Chain
import Secd.Proofs.Term.Resolution
import Secd.Proofs.Term.Written

/-!
# How the machine represents values

The machine represents a pair by a cell, a closure by a cell with its block of code and its
environment, and every frame of the memory by a cell of its own: that with the environment which
begins with the frame. The cells of the last kind are the only ones that are ever written to, when
the frame of a `LETREC` gets its values. What a value represents does not depend on the heads of
these cells, so it still represents the same after frames have been added and filled.
-/

namespace Secd

/-- The names in scope in an environment. -/
def LexicalEnv.scopes (env : LexicalEnv) : Scopes := env.map LexicalFrame.names

/-- A memory and a store that belong together. For each frame of the memory, `places` has the cell
with the environment that begins with the frame. -/
structure World where
  memory : Memory
  places : List Nat
  store : Store

/-- The value is the block of a function with this body. -/
def IsBlock (base : Store) (scopes : Scopes) (body : Sexp) (v : Value) : Prop :=
  ∃ block blockEnd t depth o, v = block.value ∧ base.Holds block ∧ Term.Resolves scopes body t ∧
    Term.Written (Address.Below Address.limit) depth t block blockEnd o ∧
      blockEnd.Begins [Opcode.rtn.sexp] .nil

namespace World

/-- The value is the environment of the machine for a lexical environment. -/
def Environment (w : World) : LexicalEnv → Value → Prop
  | [], v => v = .nil
  | frame :: outer, v =>
    ∃ c, v = .pair c ∧ w.places[frame.index]? = some c ∧ c < w.store.size ∧
      w.Environment outer (w.store.cell c).tail

/-- The value of the machine represents the value of an expression. -/
def Represents (base : Store) (w : World) : Value → Meaning → Prop
  | v, .atom a => v = .atom a
  | v, .pair head tail =>
    ∃ c, v = .pair c ∧ c < w.store.size ∧ c ∉ w.places ∧
      Represents base w (w.store.cell c).head head ∧ Represents base w (w.store.cell c).tail tail
  | v, .closure params body env =>
    ∃ c, v = .pair c ∧ c < w.store.size ∧ c ∉ w.places ∧
      IsBlock base (params :: env.scopes) body (w.store.cell c).head ∧
      w.Environment env (w.store.cell c).tail

/-- The value represents what the memory has for a frame. -/
def Frame (base : Store) (w : World) (v : Value) : Option (Option (List Meaning)) → Prop
  | some (some xs) => Represents base w v (.list xs)
  | some none => v.isPending = true
  | none => False

/-- The store holds the code, and its cells represent the frames of the memory. -/
structure Sound (base : Store) (w : World) : Prop where
  code : base.Extends w.store
  length_eq : w.places.length = w.memory.length
  nodup : w.places.Nodup
  frame : ∀ i c : Nat, w.places[i]? = some c → base.size ≤ c ∧ c < w.store.size ∧
    w.Frame base (w.store.cell c).head w.memory[i]?

/-! ### Change -/

/-- The world changes: there are more frames, and only their cells are written to. -/
structure Evolves (w w' : World) : Prop where
  places : w.places <+: w'.places
  fresh : ∀ c ∈ w'.places, c ∈ w.places ∨ w.store.size ≤ c
  store : w.store.Evolves (· ∈ w.places) w'.store

/-- The world changes, but no frame that it has gets other values. -/
structure Grows (w w' : World) : Prop extends Evolves w w' where
  memory : w.memory <+: w'.memory

variable {base : Store} {w w' w'' : World} {v : Value}

/-- A world may stay as it is. -/
theorem Evolves.refl (w : World) : w.Evolves w :=
  ⟨List.prefix_rfl, fun _ hc => .inl hc, .refl _⟩

/-- Changes come one after the other. -/
theorem Evolves.trans (h : w.Evolves w') (k : w'.Evolves w'') : w.Evolves w'' where
  places := h.places.trans k.places
  fresh c hc := by
    rcases k.fresh c hc with hc | hc
    · exact h.fresh c hc
    · exact .inr (Nat.le_trans h.store.size_le hc)
  store := by
    refine h.store.trans k.store ?_
    intro c hlt hc
    rcases h.fresh c hc with hc | hc
    · exact hc
    · omega

/-- A world may stay as it is. -/
theorem Grows.refl (w : World) : w.Grows w := ⟨.refl w, List.prefix_rfl⟩

/-- Changes come one after the other. -/
theorem Grows.trans (h : w.Grows w') (k : w'.Grows w'') : w.Grows w'' :=
  ⟨h.toEvolves.trans k.toEvolves, h.memory.trans k.memory⟩

/-- Cells other than those of frames do not become cells of frames. -/
theorem Evolves.not_mem (h : w.Evolves w') {c : Nat} (hlt : c < w.store.size)
    (hc : c ∉ w.places) : c ∉ w'.places := by
  intro hmem
  rcases h.fresh c hmem with hold | hle
  · exact hc hold
  · omega

/-- The cells of frames stay what they are. -/
theorem Evolves.getElem?_places (h : w.Evolves w') {i c : Nat} (hplace : w.places[i]? = some c) :
    w'.places[i]? = some c := by
  obtain ⟨rest, hrest⟩ := h.places
  rw [← hrest, List.getElem?_append_left (List.getElem?_eq_some_iff.1 hplace).1]
  exact hplace

/-- Frames keep their values. -/
theorem Grows.getElem?_memory (h : w.Grows w') {i : Nat} {values : Option (List Meaning)}
    (hvalues : w.memory[i]? = some values) : w'.memory[i]? = some values := by
  obtain ⟨rest, hrest⟩ := h.memory
  rw [← hrest, List.getElem?_append_left (List.getElem?_eq_some_iff.1 hvalues).1]
  exact hvalues

/-- Environments stay what they are. -/
theorem Environment.evolves {env : LexicalEnv} (h : w.Environment env v) (hw : w.Evolves w') :
    w'.Environment env v := by
  induction env generalizing v with
  | nil => exact h
  | cons frame outer ih =>
    obtain ⟨c, rfl, hplace, hc, houter⟩ := h
    have htail : (w'.store.cell c).tail = (w.store.cell c).tail := hw.store.tail_eq c hc
    refine ⟨c, rfl, hw.getElem?_places hplace, Nat.lt_of_lt_of_le hc hw.store.size_le, ?_⟩
    rw [htail]
    exact ih houter

/-- Values go on representing what they represent. -/
theorem Represents.evolves {x : Meaning} (h : Represents base w v x) (hw : w.Evolves w') :
    Represents base w' v x := by
  induction x generalizing v with
  | atom a => exact h
  | pair head tail ihhead ihtail =>
    obtain ⟨c, rfl, hlt, hc, hhead, htail⟩ := h
    refine ⟨c, rfl, Nat.lt_of_lt_of_le hlt hw.store.size_le, hw.not_mem hlt hc, ?_, ?_⟩
    · rw [hw.store.cell_eq hlt hc]
      exact ihhead hhead
    · rw [hw.store.cell_eq hlt hc]
      exact ihtail htail
  | closure params body env =>
    obtain ⟨c, rfl, hlt, hc, hblock, henv⟩ := h
    refine ⟨c, rfl, Nat.lt_of_lt_of_le hlt hw.store.size_le, hw.not_mem hlt hc, ?_, ?_⟩
    · rw [hw.store.cell_eq hlt hc]
      exact hblock
    · rw [hw.store.cell_eq hlt hc]
      exact henv.evolves hw

/-- Frames stay what they are. -/
theorem Frame.evolves {values : Option (Option (List Meaning))} (h : w.Frame base v values)
    (hw : w.Evolves w') : w'.Frame base v values := by
  match values, h with
  | some (some _), h => exact Represents.evolves h hw
  | some none, h => exact h

/-- Two cells of frames are the same only if the frames are. -/
theorem Sound.index_unique (h : w.Sound base) {i j c : Nat} (hi : w.places[i]? = some c)
    (hj : w.places[j]? = some c) : i = j := by
  have hlt : i < w.places.length := (List.getElem?_eq_some_iff.1 hi).1
  exact (List.getElem?_inj hlt h.nodup).1 (hi.trans hj.symm)

/-! ### More cells -/

/-- The world with more cells in its store. -/
def withStore (w : World) (s : Store) : World := { w with store := s }

/-- A world grows if its store is extended. -/
theorem grows_withStore {s : Store} (hs : w.store.Extends s) : w.Grows (w.withStore s) :=
  ⟨⟨List.prefix_rfl, fun _ hc => .inl hc, hs.evolves⟩, List.prefix_rfl⟩

/-- A sound world stays sound if its store is extended. -/
theorem Sound.withStore (h : w.Sound base) {s : Store} (hs : w.store.Extends s) :
    (w.withStore s).Sound base where
  code := h.code.trans hs
  length_eq := h.length_eq
  nodup := h.nodup
  frame i c hplace := by
    obtain ⟨hle, hlt, hframe⟩ := h.frame i c hplace
    have hcell : s.cell c = w.store.cell c := hs.cell_eq c hlt
    refine ⟨hle, Nat.lt_of_lt_of_le hlt hs.size_le, ?_⟩
    rw [show (w.withStore s).store = s from rfl, hcell]
    exact hframe.evolves (grows_withStore hs).toEvolves

/-- The cell of a new pair is not that of a frame. -/
theorem Sound.size_not_mem (h : w.Sound base) : w.store.size ∉ w.places := by
  intro hmem
  obtain ⟨i, hi⟩ := List.mem_iff_getElem?.1 hmem
  have hlt := (h.frame i _ hi).2.1
  omega

/-- A new pair of values represents the pair of what they represent. -/
theorem Sound.represents_cons (h : w.Sound base) {head tail : Value} {x y : Meaning}
    (hx : Represents base w head x) (hy : Represents base w tail y) :
    Represents base (w.withStore (w.store.cons head tail).2) (.pair w.store.size)
      (.pair x y) := by
  have hs := Store.extends_cons w.store head tail
  have hw := (grows_withStore hs).toEvolves
  have hcell : (w.withStore (w.store.cons head tail).2).store.cell w.store.size = ⟨head, tail⟩ :=
    Store.cell_cons_size _ _ _
  refine ⟨w.store.size, rfl, Store.contains_cons w.store head tail, h.size_not_mem, ?_, ?_⟩
  · rw [hcell]
    exact hx.evolves hw
  · rw [hcell]
    exact hy.evolves hw

/-- A new closure of a block and an environment represents the closure of the function. -/
theorem Sound.represents_closure (h : w.Sound base) {block env : Value} {params : List String}
    {body : Sexp} {lexical : LexicalEnv}
    (hblock : IsBlock base (params :: lexical.scopes) body block)
    (henv : w.Environment lexical env) :
    Represents base (w.withStore (w.store.cons block env).2) (.pair w.store.size)
      (.closure params body lexical) := by
  have hs := Store.extends_cons w.store block env
  have hw := (grows_withStore hs).toEvolves
  have hcell : (w.withStore (w.store.cons block env).2).store.cell w.store.size = ⟨block, env⟩ :=
    Store.cell_cons_size _ _ _
  refine ⟨w.store.size, rfl, Store.contains_cons w.store block env, h.size_not_mem, ?_, ?_⟩
  · rw [hcell]
    exact hblock
  · rw [hcell]
    exact henv.evolves hw

/-! ### New frames -/

/-- The world with a new frame, which the value `frame` represents, in front of the environment
`outer`. -/
def allocate (w : World) (values : Option (List Meaning)) (frame outer : Value) : World where
  memory := w.memory ++ [values]
  places := w.places ++ [w.store.size]
  store := (w.store.cons frame outer).2

/-- A world grows if it gets a new frame. -/
theorem grows_allocate (w : World) (values : Option (List Meaning)) (frame outer : Value) :
    w.Grows (w.allocate values frame outer) where
  places := List.prefix_append _ _
  fresh c hc := by
    rcases List.mem_append.1 hc with hc | hc
    · exact .inl hc
    · exact .inr (List.mem_singleton.1 hc ▸ Nat.le_refl _)
  store := (Store.extends_cons w.store frame outer).evolves
  memory := List.prefix_append _ _

/-- The new frame is at the end of the memory. -/
theorem getElem?_memory_allocate (w : World) (values : Option (List Meaning))
    (frame outer : Value) :
    (w.allocate values frame outer).memory[w.memory.length]? = some values := by
  rw [World.allocate, List.getElem?_append_right (Nat.le_refl _), Nat.sub_self]
  rfl

/-- A sound world stays sound if it gets a new frame. -/
theorem Sound.allocate (h : w.Sound base) {values : Option (List Meaning)} {frame : Value}
    (hframe : w.Frame base frame (some values)) (outer : Value) :
    (w.allocate values frame outer).Sound base where
  code := h.code.trans (Store.extends_cons w.store frame outer)
  length_eq := by simp [World.allocate, h.length_eq]
  nodup := by
    refine List.nodup_append.2 ⟨h.nodup, by simp, ?_⟩
    rintro c hc d hd rfl
    exact h.size_not_mem (List.mem_singleton.1 hd ▸ hc)
  frame i c hplace := by
    have hevolves := (grows_allocate w values frame outer).toEvolves
    have hsize : (w.allocate values frame outer).store.size = w.store.size + 1 :=
      Store.size_cons _ _ _
    rcases Nat.lt_or_ge i w.places.length with hi | hi
    · have hold : w.places[i]? = some c := by
        rw [← hplace, World.allocate, List.getElem?_append_left hi]
      obtain ⟨hle, hlt, hold⟩ := h.frame i c hold
      have hcell : (w.allocate values frame outer).store.cell c = w.store.cell c :=
        Store.cell_cons_of_lt w.store frame outer hlt
      have hmemory : (w.allocate values frame outer).memory[i]? = w.memory[i]? :=
        List.getElem?_append_left (h.length_eq ▸ hi)
      refine ⟨hle, by omega, ?_⟩
      rw [hcell, hmemory]
      exact hold.evolves hevolves
    · have hnew := (List.getElem?_append_right hi).symm.trans hplace
      obtain ⟨hzero, hc⟩ := List.getElem?_eq_some_iff.1 hnew
      have hi' : i = w.memory.length := by
        rw [List.length_singleton] at hzero
        have hlength := h.length_eq
        omega
      obtain rfl : c = w.store.size := by
        rw [← hc]
        exact List.mem_singleton.1 (List.getElem_mem _)
      have hcell : (w.allocate values frame outer).store.cell w.store.size = ⟨frame, outer⟩ :=
        Store.cell_cons_size _ _ _
      have hmemory : (w.allocate values frame outer).memory[i]? = some values := by
        rw [hi', getElem?_memory_allocate]
      refine ⟨h.code.size_le, by omega, ?_⟩
      rw [hcell, hmemory]
      exact hframe.evolves hevolves

/-- The cell of the new frame is the new one. -/
theorem Sound.places_allocate (h : w.Sound base) (values : Option (List Meaning))
    (frame outer : Value) :
    (w.allocate values frame outer).places[w.memory.length]? = some w.store.size := by
  rw [World.allocate, ← h.length_eq, List.getElem?_append_right (Nat.le_refl _), Nat.sub_self]
  rfl

/-- The environment outside the new frame stays what it is. -/
theorem Evolves.tail_allocate {values : Option (List Meaning)} {frame outer : Value}
    (h : (w.allocate values frame outer).Evolves w') :
    (w'.store.cell w.store.size).tail = outer := by
  have hcell : (w.allocate values frame outer).store.cell w.store.size = ⟨frame, outer⟩ :=
    Store.cell_cons_size _ _ _
  have htail := h.store.tail_eq w.store.size (Store.contains_cons w.store frame outer)
  rw [hcell] at htail
  exact htail

/-- The environment that begins with the new frame. -/
theorem Sound.environment_allocate (h : w.Sound base) {lexical : LexicalEnv} {outer : Value}
    (houter : w.Environment lexical outer) (values : Option (List Meaning)) (frame : Value)
    (names : List String) :
    (w.allocate values frame outer).Environment (⟨names, w.memory.length⟩ :: lexical)
      (.pair w.store.size) := by
  have hcell : (w.allocate values frame outer).store.cell w.store.size = ⟨frame, outer⟩ :=
    Store.cell_cons_size _ _ _
  refine ⟨w.store.size, rfl, h.places_allocate values frame outer,
    Store.contains_cons w.store frame outer, ?_⟩
  rw [hcell]
  exact houter.evolves (grows_allocate w values frame outer).toEvolves

/-! ### Frames that get their values -/

/-- The world after the frame at an index of the memory has got its values, and the cell `c` their
list. -/
def fill (w : World) (i : Nat) (values : List Meaning) (c : Nat) (frame : Value) : World where
  memory := w.memory.set i (some values)
  places := w.places
  store := w.store.setHead c frame

/-- A world evolves if a frame gets its values. -/
theorem evolves_fill {i c : Nat} (hplace : w.places[i]? = some c) (values : List Meaning)
    (frame : Value) : w.Evolves (w.fill i values c frame) where
  places := List.prefix_rfl
  fresh _ hc := .inl hc
  store := by
    refine (Store.Evolves.refl w.store).trans (Store.evolves_setHead w.store c frame) ?_
    rintro d - rfl
    exact List.mem_of_getElem? hplace

/-- A world has grown since before there was a frame even if this has got its values. -/
theorem Grows.fill (h : w.Grows w') {c : Nat} (hplace : w'.places[w.memory.length]? = some c)
    (values : List Meaning) (frame : Value) :
    w.Grows (w'.fill w.memory.length values c frame) where
  toEvolves := h.toEvolves.trans (evolves_fill hplace values frame)
  memory := by
    obtain ⟨rest, hrest⟩ := h.memory
    rw [World.fill, ← hrest, List.set_append_right _ _ (Nat.le_refl _)]
    exact List.prefix_append _ _

/-- A sound world stays sound if a frame gets its values. -/
theorem Sound.fill (h : w.Sound base) {i c : Nat} (hplace : w.places[i]? = some c)
    {values : List Meaning} {frame : Value} (hframe : Represents base w frame (.list values)) :
    (w.fill i values c frame).Sound base where
  code := by
    refine h.code.trans_evolves (Store.evolves_setHead w.store c frame) ?_
    rintro d hd rfl
    have hle := (h.frame i d hplace).1
    omega
  length_eq := by rw [World.fill, List.length_set, h.length_eq]
  nodup := h.nodup
  frame j d hd := by
    have hevolves := evolves_fill hplace values frame
    have hsize : (w.fill i values c frame).store.size = w.store.size := Store.size_setHead _ _ _
    have hd : w.places[j]? = some d := hd
    obtain ⟨hle, hlt, hold⟩ := h.frame j d hd
    refine ⟨hle, by omega, ?_⟩
    by_cases hij : j = i
    · subst hij
      obtain rfl : d = c := Option.some.inj (hd.symm.trans hplace)
      have hj : j < w.memory.length := h.length_eq ▸ (List.getElem?_eq_some_iff.1 hd).1
      have hmemory : (w.fill j values d frame).memory[j]? = some (some values) :=
        List.getElem?_set_self hj
      rw [hmemory, World.fill, Store.cell_setHead_self _ _ hlt]
      exact hframe.evolves hevolves
    · have hne : d ≠ c := by
        rintro rfl
        exact hij (h.index_unique hd hplace)
      have hmemory : (w.fill i values c frame).memory[j]? = w.memory[j]? :=
        List.getElem?_set_ne (Ne.symm hij)
      have hcell : (w.fill i values c frame).store.cell d = w.store.cell d :=
        Store.cell_setHead_of_ne _ _ hne
      rw [hmemory, hcell]
      exact hold.evolves hevolves

end World

end Secd
