import Secd.Machine.Run
import Secd.Proofs.Machine.Closed
import Secd.Proofs.Module.Compiled
import Secd.Proofs.Store.Chain

/-!
# Machines about to run

The registers of a machine that is about to run a module. The stack holds the list of arguments
alone and the dump is empty. The environment is empty, or it has the callables of a new standard
prelude as its only frame, each at the place of its primitive.
-/

namespace Secd

/-- A new prelude takes no cells. -/
theorem Prelude.cells_ofList (s : Store) (primitives : List Primitive) :
    (ofList s primitives).2.cells = s.cells := by
  induction primitives generalizing s with
  | nil => rfl
  | cons p ps ih => exact ih (s.primitive p).2

/-- A prelude has a callable for each primitive, at its place. -/
theorem Prelude.exists_getElem?_ofList {s : Store} {primitives : List Primitive} {slot : Nat}
    {p : Primitive} (hp : primitives[slot]? = some p) : ∃ identity,
      (ofList s primitives).1.entries[slot]? = some ⟨identity, p.name, p.arity, p⟩ := by
  induction primitives generalizing s slot with
  | nil => cases hp
  | cons q qs ih =>
    cases slot with
    | zero =>
      obtain rfl := Option.some.inj hp
      exact ⟨_, rfl⟩
    | succ slot => exact ih hp

/-- A store that differs in the number of callables alone has the same cells. -/
theorem Store.extends_of_cells_eq {s s' : Store} (h : s'.cells = s.cells) : s.Extends s' := by
  obtain ⟨cells, callables⟩ := s
  obtain ⟨cells', callables'⟩ := s'
  obtain rfl := h
  exact ⟨Nat.le_refl _, fun _ _ => rfl⟩

/-- A new prelude extends the store. -/
theorem Prelude.extends_standard {s s' : Store} {prelude : Prelude}
    (h : standard s = (prelude, s')) : s.Extends s' := by
  refine Store.extends_of_cells_eq ?_
  rw [← cells_ofList s Primitive.all, show ofList s Primitive.all = (prelude, s') from h]

/-- A new prelude leaves a closed store closed. -/
theorem Prelude.closed_standard {s s' : Store} {prelude : Prelude}
    (h : standard s = (prelude, s')) (hs : s.Closed) : s'.Closed := by
  have hcells : s'.cells = s.cells := by
    rw [← cells_ofList s Primitive.all, show ofList s Primitive.all = (prelude, s') from h]
  obtain ⟨cells, count⟩ := s
  obtain ⟨cells', count'⟩ := s'
  obtain rfl := hcells
  exact hs

/-- A new list extends the store. -/
theorem Store.extends_of_list {s s' : Store} {items : List Value} {v : Value}
    (h : s.list items = (v, s')) : s.Extends s' := by
  have hextends := extends_dotted s items .nil
  rwa [show s.dotted items .nil = (v, s') from h] at hextends

/-- The only frame of the environment is a list of callables, with one for each primitive. -/
def Store.HoldsPrelude (s : Store) (env : Value) : Prop :=
  ∃ (c : Nat) (frame : Value) (cells : List Nat), env = .pair c ∧ c < s.size ∧
    s.cell c = ⟨frame, .nil⟩ ∧ s.Chain frame cells .nil ∧
      ∀ (slot : Nat) (p : Primitive), Primitive.all[slot]? = some p →
      ∃ identity, (cells[slot]?).map (fun d => (s.cell d).head) =
        some (.callable ⟨identity, p.name, p.arity, p⟩)

/-- A new standard prelude is held in an environment of its own. -/
theorem Store.holdsPrelude_of_list {s s' s'' : Store} {prelude : Prelude} {frame : Value}
    (hprelude : Prelude.standard s = (prelude, s'))
    (hframe : s'.list (prelude.entries.map .callable) = (frame, s'')) :
    (s''.cons frame .nil).2.HoldsPrelude (.pair s''.size) := by
  obtain ⟨cells, hchain, hitems⟩ := exists_chain_dotted s' (prelude.entries.map .callable) .nil
  rw [show s'.dotted (prelude.entries.map .callable) .nil = (frame, s'') from hframe]
    at hchain hitems
  dsimp only at hchain hitems
  have hs := extends_cons s'' frame .nil
  refine ⟨s''.size, frame, cells, rfl, ?_, cell_cons_size s'' frame .nil,
    hchain.evolves (hs.evolves (P := fun _ => False)), ?_⟩
  · rw [size_cons]
    omega
  · intro slot p hp
    obtain ⟨identity, hentry⟩ := Prelude.exists_getElem?_ofList (s := s) hp
    rw [show Prelude.ofList s Primitive.all = (prelude, s') from hprelude] at hentry
    have hitem : (cells.map fun c => (s''.cell c).head)[slot]? =
        some (.callable ⟨identity, p.name, p.arity, p⟩) := by
      rw [hitems, List.getElem?_map, hentry]
      rfl
    refine ⟨identity, ?_⟩
    rw [List.getElem?_map] at hitem
    obtain ⟨d, hd, hhead⟩ := Option.map_eq_some_iff.1 hitem
    rw [hd, Option.map_some, cell_cons_of_lt s'' frame .nil
      (hchain.lt_size (List.mem_of_getElem? hd)), hhead]

/-- In a store that extends one with a prelude, its callables are found by their slots. -/
theorem Store.HoldsPrelude.exists_nth {s s' : Store} {env : Value} (h : s.HoldsPrelude env)
    (hs : s.Extends s') : ∃ frame, s'.nth env 0 = .ok frame ∧ frame.isPending = false ∧
      ∀ slot p, Primitive.all[slot]? = some p →
        ∃ identity, s'.nth frame slot = .ok (.callable ⟨identity, p.name, p.arity, p⟩) := by
  obtain ⟨c, frame, cells, rfl, hc, hcell, hchain, hcallables⟩ := h
  refine ⟨frame, ?_, ?_, ?_⟩
  · rw [nth, nthFrom, hs.cell_eq c hc, hcell]
  · cases cells with
    | nil =>
      obtain rfl := hchain
      rfl
    | cons d cells =>
      obtain ⟨rfl, -⟩ := hchain
      rfl
  · intro slot p hp
    obtain ⟨identity, hcallable⟩ := hcallables slot p hp
    obtain ⟨d, hd, hhead⟩ := Option.map_eq_some_iff.1 hcallable
    obtain ⟨hslot, rfl⟩ := List.getElem?_eq_some_iff.1 hd
    refine ⟨identity, ?_⟩
    rw [(hchain.evolves (hs.evolves (P := fun _ => False))).nth_eq hslot,
      hs.cell_eq _ (hchain.lt_size (List.getElem_mem hslot)), hhead]

namespace Machine

variable {m : Module} {s s' s'' : Store} {prelude : Prelude} {frame : Value}

/-- A machine for a module has the limits that were given. -/
theorem limits_ofModule (m : Module) (args : Value) (limits : Limits) (s : Store) :
    (ofModule m args limits s).limits = limits := by
  rw [ofModule]
  cases m.usesPrelude <;> rfl

/-- A machine for a module that does not count on the prelude has an empty environment. -/
theorem registers_ofModule_of_not_usesPrelude (hm : m.usesPrelude = false) (args : Value)
    (limits : Limits) :
    (ofModule m args limits s).registers = ⟨s, [args], .nil, m.code.value, #[]⟩ := by
  rw [ofModule, hm]
  rfl

/-- A machine for a module that counts on the prelude has the callables as its only frame. -/
theorem registers_ofModule_of_usesPrelude (hm : m.usesPrelude = true) (args : Value)
    (limits : Limits) (hprelude : Prelude.standard s = (prelude, s'))
    (hframe : s'.list (prelude.entries.map .callable) = (frame, s'')) :
    (ofModule m args limits s).registers =
      ⟨(s''.cons frame .nil).2, [args], .pair s''.size, m.code.value, #[]⟩ := by
  rw [ofModule, hm]
  simp only [if_true, hprelude, Prelude.env, hframe]
  rfl

/-- The registers of a machine that is about to run a module. Its environment is empty or holds a
prelude. -/
theorem exists_registers_ofModule (m : Module) (args : Value) (limits : Limits) (s : Store) :
    ∃ s' env, s.Extends s' ∧ (if m.usesPrelude then s'.HoldsPrelude env else env = .nil) ∧
      (ofModule m args limits s).registers = ⟨s', [args], env, m.code.value, #[]⟩ := by
  cases hm : m.usesPrelude with
  | false => exact ⟨s, .nil, .refl s, rfl, registers_ofModule_of_not_usesPrelude hm args limits⟩
  | true =>
    cases hstandard : Prelude.standard s with
    | mk prelude s₁ =>
      cases hlist : s₁.list (prelude.entries.map .callable) with
      | mk frame s₂ =>
        have hstart : s.Extends s₁ := Prelude.extends_standard hstandard
        have hframe : s₁.Extends s₂ := Store.extends_of_list hlist
        have hlast := Store.extends_cons s₂ frame .nil
        exact ⟨_, _, (hstart.trans hframe).trans hlast,
          Store.holdsPrelude_of_list hstandard hlist,
          registers_ofModule_of_usesPrelude hm args limits hstandard hlist⟩

/-- A machine that is about to run a module is closed if the module and the arguments belong to a
closed store. -/
theorem closed_ofModule (hs : s.Closed) (hcode : s.Contains m.code.value) {args : Value}
    (hargs : s.Contains args) (limits : Limits) : (ofModule m args limits s).registers.Closed := by
  have hclosed {s' : Store} {env : Value} (hs' : s'.Closed) (hsize : s.size ≤ s'.size)
      (henv : s'.Contains env) : Registers.Closed ⟨s', [args], env, m.code.value, #[]⟩ :=
    ⟨hs', List.forall_mem_singleton.2 (hargs.of_size_le hsize), henv, hcode.of_size_le hsize,
      fun _ hentry => absurd hentry (Array.not_mem_empty _)⟩
  cases hm : m.usesPrelude with
  | false =>
    rw [registers_ofModule_of_not_usesPrelude hm args limits]
    exact hclosed hs (Nat.le_refl _) trivial
  | true =>
    cases hprelude : Prelude.standard s with
    | mk prelude s₁ =>
      cases hframe : s₁.list (prelude.entries.map .callable) with
      | mk frame s₂ =>
        have hcallables : ∀ v ∈ prelude.entries.map Value.callable, s₁.Contains v :=
          List.forall_mem_map.2 fun _ _ => trivial
        have hnil : s₁.Contains .nil := trivial
        obtain ⟨hlist, hcontains⟩ :=
          (Prelude.closed_standard hprelude hs).dotted hcallables hnil
        rw [show s₁.dotted (prelude.entries.map .callable) .nil = (frame, s₂) from hframe]
          at hlist hcontains
        have hextends := ((Prelude.extends_standard hprelude).trans
          (Store.extends_of_list hframe)).trans (Store.extends_cons s₂ frame .nil)
        rw [registers_ofModule_of_usesPrelude hm args limits hprelude hframe]
        exact hclosed (hlist.cons hcontains trivial) hextends.size_le (Store.contains_cons _ _ _)

end Machine

end Secd
