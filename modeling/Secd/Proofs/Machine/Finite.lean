import Secd.Proofs.Machine.Invariant
import Secd.Proofs.Module.Unchanged
import Secd.Proofs.Store.Ordered

/-!
# Lists stay finite

A recursive function is a value that contains itself, so the values of a machine are not trees. But
its store stays in order of allocation, except for the heads of the frames that have been patched.
So every list that the machine can get hold of comes to an end, and every cycle runs through a
patched frame.
-/

namespace Secd

open Store

/-- The store has grown out of `base` in order, except for heads of cells with the property `P`, and
the registers hold known values. -/
def Invariant.ordered (base : Store) (P : Nat → Prop) : Invariant where
  Sound := Ordered base P
  Good := Known base
  atom _ _ := trivial
  mono := Known.mono
  parts hs hc := hs.parts hc
  cons {s head tail} hs hhead htail := by
    refine ⟨hs.cons hhead htail, .inr ⟨hs.evolves.size_le, ?_⟩⟩
    rw [size_cons]
    exact Nat.lt_succ_self s.size

namespace Machine

variable {base : Store} {P Q : Nat → Prop} {m : Machine}

/-- More cells may have been written to. -/
theorem Satisfies.imp_ordered (h : m.Satisfies (.ordered base P)) (hPQ : ∀ c, P c → Q c) :
    m.Satisfies (.ordered base Q) where
  store := Ordered.imp h.store hPQ
  stack := h.stack
  env := h.env
  control := h.control
  dump := h.dump

/-- A step leaves the store in order, except for the cell that it patches. -/
theorem Satisfies.next_ordered (h : m.Satisfies (.ordered base P)) :
    m.next.Satisfies (.ordered base fun c => P c ∨ ∃ args, m.Patches c args) := by
  have hwider := h.imp_ordered (Q := fun c => P c ∨ ∃ args, m.Patches c args) fun _ => .inl
  refine (advances_next hwider fun c args hpatch _ hargs => ?_).satisfies
  exact Ordered.setHead hwider.store (.inr ⟨args, hpatch⟩) hargs

/-- One of the first `n` steps of the machine has patched the cell. -/
def Patched (m : Machine) (n c : Nat) : Prop :=
  ∃ k < n, ∃ args, (m.after k).Patches c args

/-- After some steps the store is in order except for the cells that these have patched. -/
theorem Satisfies.after_ordered (h : m.Satisfies (.ordered base fun _ => False)) (n : Nat) :
    (m.after n).Satisfies (.ordered base (m.Patched n)) := by
  induction n with
  | zero => exact h.imp_ordered fun _ => False.elim
  | succ n ih =>
    refine ih.next_ordered.imp_ordered ?_
    rintro c (⟨k, hk, hpatched⟩ | hpatched)
    · exact ⟨k, Nat.lt_succ_of_lt hk, hpatched⟩
    · exact ⟨n, Nat.lt_succ_self n, hpatched⟩

/-- A machine that has been loaded with trees is in order. -/
theorem satisfies_load {s : Store} {code args env : Sexp} (hcode : s.Holds code)
    (hargs : s.Holds args) (henv : s.Holds env) (limits : Limits) :
    ((idle s limits).load code.value args.value env.value).Satisfies
      (.ordered s fun _ => False) where
  store := ordered_refl s _
  stack := List.forall_mem_singleton.2 (hargs.known s.size)
  env := henv.known s.size
  control := hcode.known s.size
  dump _ hentry := absurd hentry (Array.not_mem_empty _)

/-- Let a machine be loaded with code, arguments and an environment that are finite trees, whatever
else they are. After any number of steps, with or without faults on the way, take a value that it
was loaded with, or that one of its registers holds, or any cell that is new, and from there any
path of heads and tails. At its end following the tails comes to an end, and the walk along the list
is not cut off. And a path that leads from there back to the same place takes the head of a cell
that a `RAP` has patched in one of the steps. -/
theorem finite_of_load {s : Store} {code args env : Sexp} (hcode : s.Holds code)
    (hargs : s.Holds args) (henv : s.Holds env) (limits : Limits) {start m : Machine}
    (hstart : start = (idle s limits).load code.value args.value env.value) {n : Nat}
    (hm : m = start.after n) {v : Value}
    (hv : v ∈ start.values ∨ v ∈ m.values ∨ ∃ c, s.size ≤ c ∧ c < m.store.size ∧ v = .pair c)
    {path : List Selector} {w : Value} (hw : m.store.follow path v = some w) :
    (∃ cells ending, m.store.Chain w cells ending ∧ m.store.spine w = (cells, ending)) ∧
      ∀ loop, loop ≠ [] → m.store.follow loop w = some w →
        ∃ before after c, loop = before ++ .head :: after ∧
          m.store.follow before w = some (.pair c) ∧
            ∃ k < n, ∃ args, (start.after k).Patches c args := by
  have hloaded : start.Satisfies (.ordered s fun _ => False) :=
    hstart ▸ satisfies_load hcode hargs henv limits
  have horder : m.Satisfies (.ordered s (start.Patched n)) := hm ▸ hloaded.after_ordered n
  have hstore : Ordered s (start.Patched n) m.store := horder.store
  have hknown : Known s m.store.size v := by
    rcases hv with hv | hv | ⟨c, hnew, hlt, rfl⟩
    · have hbase : Known s start.store.size v := hloaded.good_of_mem_values hv
      have hsize : start.store.size ≤ m.store.size := by
        rw [hstart]
        exact hstore.evolves.size_le
      exact hbase.mono hsize
    · exact horder.good_of_mem_values hv
    · exact .inr ⟨hnew, hlt⟩
  have hend : Known s m.store.size w := hstore.known_of_follow hknown hw
  constructor
  · obtain ⟨cells, ending, hchain⟩ := hstore.exists_chain hend
    exact ⟨cells, ending, hchain, hchain.spine_eq⟩
  · intro loop hne hloop
    exact hstore.written_of_cycle hend hloop hne

/-- Whether the environment is a list of one item, which is a closure with this very environment. -/
def keepsItself (m : Machine) : Bool :=
  match m.env with
  | .pair c =>
    decide (c < m.store.size) && (m.store.cell c).tail.isNil &&
      match m.store.follow [.head, .head, .tail] (.pair c) with
      | some (.pair d) => decide (d = c)
      | _ => false
  | .atom _ => false

/-- The cell of such an environment. -/
theorem exists_of_keepsItself {m : Machine} (h : m.keepsItself = true) : ∃ c, m.env = .pair c ∧
    c < m.store.size ∧ (m.store.cell c).tail = .nil ∧
    m.store.follow [.head, .head, .tail] (.pair c) = some (.pair c) := by
  rw [keepsItself] at h
  split at h
  · next c henv =>
    obtain ⟨hcell, hfollow⟩ := Bool.and_eq_true_iff.1 h
    obtain ⟨hlt, htail⟩ := Bool.and_eq_true_iff.1 hcell
    have hnil {v : Value} (hv : v.isNil = true) : v = .nil := by
      cases v with
      | pair d => cases hv
      | atom a =>
        cases a with
        | nil => rfl
        | _ => cases hv
    refine ⟨c, henv, of_decide_eq_true hlt, hnil htail, ?_⟩
    split at hfollow
    · next d hd => rw [hd, of_decide_eq_true hfollow]
    · cases hfollow
  · cases h

/-- After six steps the environment of the program with a recursive function contains itself: its
first frame begins with the closure of the function, which has captured the environment. The list of
frames still ends, and one of the steps has patched a frame. -/
theorem finite_of_load_selfReference : ∃ start c, ofTexts? selfReference "(1 2)" = some start ∧
    (start.after 6).env = .pair c ∧
      (start.after 6).store.follow [.head, .head, .tail] (.pair c) = some (.pair c) ∧
      (∃ ending, (start.after 6).store.spine (.pair c) = ([c], ending)) ∧
      ∃ k < 6, ∃ d args, (start.after k).Patches d args := by
  have hfacts : (ofTexts? selfReference "(1 2)").any (fun start => (start.after 6).keepsItself) =
      true := by
    decide +kernel
  obtain ⟨start, hstart, hkeeps⟩ := (Option.any_eq_true _ _).1 hfacts
  obtain ⟨c, henv, hlt, htail, hcycle⟩ := exists_of_keepsItself hkeeps
  obtain ⟨r, s₁, program, s₂, a, s₃, hread, hcompile, hargs, rfl⟩ := exists_of_ofTexts? hstart
  obtain ⟨-, hcode, -⟩ :=
    Module.holdsFast_of_compile (Reader.holdsFast_of_readOne hread) hcompile
  obtain ⟨hextends, env, hvalue, hframe⟩ :=
    exists_holdsFast_env program a.expression.value {} s₃
  have hbuilds := Reader.builds_of_readOne hargs
  have hcode' := (hcode.held.extends hbuilds.extends_store).extends hextends
  have hargs' := hbuilds.held.extends hextends
  have hload := ofModule_eq_load program a.expression.value {} s₃
  rw [hvalue] at hload
  have hmem : (.pair c) ∈ ((ofModule program a.expression.value {} s₃).after 6).values := by
    rw [← henv]
    exact List.mem_cons_self
  have hstay : ((ofModule program a.expression.value {} s₃).after 6).store.follow [] (.pair c) =
      some (.pair c) := rfl
  obtain ⟨⟨cells, ending, hchain, hspine⟩, hcycles⟩ :=
    finite_of_load hcode' hargs' hframe.held {} hload rfl (.inr (.inl hmem)) hstay
  refine ⟨_, c, hstart, henv, hcycle, ⟨ending, ?_⟩, ?_⟩
  · have hone : ((ofModule program a.expression.value {} s₃).after 6).store.Chain (.pair c) [c]
        .nil := ⟨rfl, hlt, htail⟩
    rw [hspine, hchain.cells_unique hone]
  · obtain ⟨-, -, c, -, -, k, hk, hpatched⟩ := hcycles _ (by simp) hcycle
    exact ⟨k, hk, c, hpatched⟩

end Machine

end Secd
