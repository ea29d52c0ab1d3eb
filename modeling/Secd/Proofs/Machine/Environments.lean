import Secd.Proofs.Machine.Transported
import Secd.Proofs.Module.Unchanged
import Secd.Proofs.Term.Matching

/-!
# Environments of preludes

The callables of a prelude are the only frame of the environment with which a program begins. Two
standard preludes have the same callables but for their identities, and so have the environments.
The identities of the one prelude can be exchanged for those of the other one so that callables that
are older than both keep theirs.
-/

namespace Secd

/-! ### Atoms of code and environments -/

/-- The atoms that all code has are not the placeholder. -/
theorem Atom.coded_settled : Coded Settled where
  nil := trivial
  int _ := trivial
  opcode op h := by
    have hname := op.ofName?_mnemonic
    rw [h] at hname
    cases hname

/-- A proper atom is not the placeholder. -/
theorem Atom.Proper.settled {a : Atom} (h : a.Proper) : a.Settled := by
  cases a with
  | symbol name =>
    rintro rfl
    exact h.ne_pending rfl
  | _ => exact trivial

namespace Sexp

/-- The items of a list with the identities replaced. -/
theorem list?_relabel (σ : Nat → Nat) (e : Sexp) :
    (e.relabel σ).list? = e.list?.map (List.map (Sexp.relabel σ)) := by
  induction e with
  | atom a => cases a <;> rfl
  | pair c head tail _ ih =>
    rw [relabel, list?_pair, list?_pair, ih]
    cases tail.list? <;> rfl

end Sexp

namespace Prelude

/-- The callables of the first prelude are those of the second one, with the identities replaced. -/
def Relabels (σ : Nat → Nat) (p p' : Prelude) : Prop :=
  p.entries = p'.entries.map (Callable.relabel σ)

variable {σ : Nat → Nat} {p p' : Prelude}

/-- Nothing changes if each identity is replaced by itself. -/
theorem relabels_id (p : Prelude) : p.Relabels id p :=
  (List.map_id _).symm

/-- They have the same names. -/
theorem Relabels.names_eq (h : p.Relabels σ p') : p.names = p'.names := by
  rw [names, names, h, List.map_map]
  rfl

/-- They have the same numbers of parameters. -/
theorem Relabels.arityOf?_eq (h : p.Relabels σ p') : p.arityOf? = p'.arityOf? := by
  funext name
  rw [arityOf?, arityOf?, h]
  induction p'.entries with
  | nil => rfl
  | cons c rest ih =>
    rw [List.map_cons, List.find?_cons, List.find?_cons, show (c.relabel σ).name = c.name from rfl]
    split
    · rfl
    · exact ih

/-- New callables of the same primitives differ in their identities. -/
theorem relabels_ofList {s s' : Store} {primitives : List Primitive}
    (hσ : ∀ i < primitives.length, σ (s'.callables + i) = s.callables + i) :
    (ofList s primitives).1.Relabels σ (ofList s' primitives).1 := by
  induction primitives generalizing s s' with
  | nil => rfl
  | cons q qs ih =>
    have hfirst : σ s'.callables = s.callables := hσ 0 (Nat.zero_lt_succ _)
    have hrest : (ofList (s.primitive q).2 qs).1.Relabels σ (ofList (s'.primitive q).2 qs).1 := by
      refine ih fun i hi => ?_
      have hnext := hσ (i + 1) (Nat.succ_lt_succ hi)
      rwa [Nat.add_comm i 1, ← Nat.add_assoc, ← Nat.add_assoc] at hnext
    refine congrArg₂ List.cons ?_ hrest
    exact congrArg (fun i => (⟨i, q.name, q.arity, q⟩ : Callable)) hfirst.symm

/-- The identities in a standard prelude can be replaced by those in another one. Identities that
are older than both preludes are not replaced. -/
theorem exists_relabels_standard (s s' : Store) :
    ∃ σ : Nat → Nat, σ.Injective ∧ (∀ i, i < s.callables → i < s'.callables → σ i = i) ∧
      (standard s).1.Relabels σ (standard s').1 := by
  -- younger identities that are in no prelude are moved out of the way
  let k := s.callables
  let k' := s'.callables
  let n := Primitive.all.length
  refine ⟨fun i => if i < k ∧ i < k' then i else
    if k' ≤ i ∧ i < k' + n then k + (i - k') else k + k' + n + i, ?_, ?_, ?_⟩
  · intro i j h
    dsimp only at h
    split at h <;> split at h <;> (try split at h) <;> (try split at h) <;> omega
  · intro i hi hi'
    exact if_pos ⟨hi, hi'⟩
  · refine relabels_ofList fun i hi => ?_
    rw [if_neg fun h => absurd h.2 (Nat.not_lt.2 (Nat.le_add_right _ _)),
      if_pos ⟨Nat.le_add_right _ _, Nat.add_lt_add_left hi _⟩, Nat.add_sub_cancel_left]

/-- The identities of the second store are exchanged for those of the first one: callables that are
older than what is made in either store keep theirs, and those of a new prelude in the second store,
if there is one, get those of a new prelude in the first one. -/
structure Exchanges (usesPrelude : Bool) (σ : Nat → Nat) (s s' : Store) : Prop where
  injective : σ.Injective
  older (i : Nat) (hi : i < s.callables) (hi' : i < s'.callables) : σ i = i
  standard : usesPrelude = true → (standard s).1.Relabels σ (standard s').1

/-- Identities can be exchanged between any two stores, and without a prelude they can all be
kept. -/
theorem exists_exchanges (usesPrelude : Bool) (s s' : Store) :
    ∃ σ, Exchanges usesPrelude σ s s' ∧ (usesPrelude = false → σ = id) := by
  cases usesPrelude with
  | false => exact ⟨id, ⟨Function.injective_id, fun _ _ _ => rfl, nofun⟩, fun _ => rfl⟩
  | true =>
    obtain ⟨σ, hσ, holder, hstandard⟩ := exists_relabels_standard s s'
    exact ⟨σ, ⟨hσ, holder, fun _ => hstandard⟩, nofun⟩

/-- The store holds the callables of the prelude as the only frame of an environment. -/
structure Framed (p : Prelude) (s : Store) (env : Sexp) : Prop where
  held : s.Holds env
  settled : env.AllAtoms Atom.Settled
  frame : ∃ frame : Sexp, env.list? = some [frame] ∧
    frame.list? = some (p.entries.map fun c => .atom (.callable c))

/-- The environment of a prelude. -/
theorem exists_framed {s s' : Store} {v : Value} (h : p.env s = (v, s')) :
    s.Extends s' ∧ (s.Closed → s'.Closed) ∧ ∃ env : Sexp, v = env.value ∧ p.Framed s' env := by
  cases hframe : s.list (p.entries.map .callable) with
  | mk frame s₁ =>
    have henv : p.env s = s₁.cons frame .nil := by
      rw [env, hframe]
      rfl
    obtain ⟨rfl, rfl⟩ := Prod.mk.inj (h.symm.trans henv)
    obtain ⟨list, rfl, hheld, hlist⟩ := exists_holdsFast_of_list p.entries hframe
    have hpair := Store.holdsFast_consTree hheld (Store.holdsFast_nil s₁)
    refine ⟨(Store.extends_of_list hframe).trans (Store.extends_cons s₁ _ _), fun hs => ?_, _, rfl,
      hpair.held, hpair.proper.imp fun _ => Atom.Proper.settled, list, ?_, hlist⟩
    · have hitems : ∀ v ∈ p.entries.map Value.callable, s.Contains v := by
        intro v hv
        obtain ⟨c, -, rfl⟩ := List.mem_map.1 hv
        exact trivial
      have hnil : s.Contains .nil := trivial
      have hclosed := (hs.dotted hitems hnil).1
      rw [show s.dotted (p.entries.map .callable) .nil = (list.value, s₁) from hframe] at hclosed
      exact hclosed.cons hheld.held.contains trivial
    · rw [Store.consTree_fst, Sexp.list?_pair]
      rfl

/-- The environments of preludes that differ in their identities match. -/
theorem Framed.matches_relabel (hσ : p.Relabels σ p') {s s' : Store} {env env' : Sexp}
    (h : p.Framed s env) (h' : p'.Framed s' env') : env.Matches (env'.relabel σ) := by
  obtain ⟨frame, henv, hframe⟩ := h.frame
  obtain ⟨frame', henv', hframe'⟩ := h'.frame
  have hcallables : frame.Matches (frame'.relabel σ) := by
    refine Sexp.matches_of_list? hframe ?_ (Sexp.matchAll_refl _)
    rw [Sexp.list?_relabel, hframe', hσ, Option.map_some, List.map_map, List.map_map]
    rfl
  refine Sexp.matches_of_list? henv ?_ (.cons hcallables .nil)
  rw [Sexp.list?_relabel, henv']
  rfl

end Prelude

/-- The atom is no callable that is made later than the store. -/
def Atom.OlderThan (s : Store) : Atom → Prop
  | .callable c => c.identity < s.callables
  | _ => True

/-- What is no callable is not made later than the store. -/
theorem Atom.Plain.olderThan {a : Atom} (h : a.Plain) (s : Store) : a.OlderThan s := by
  cases a with
  | callable c => exact absurd h id
  | _ => exact trivial

/-- The atoms that all code has are not made later than the store. -/
theorem Atom.coded_olderThan (s : Store) : Coded (OlderThan s) where
  nil := trivial
  int _ := trivial
  opcode _ := trivial

/-- What is older than both stores stays as it is when their identities are exchanged. -/
theorem Prelude.Exchanges.relabel_eq {usesPrelude : Bool} {σ : Nat → Nat} {s s' : Store}
    (hσ : Exchanges usesPrelude σ s s') {e : Sexp} (he : e.AllAtoms (Atom.OlderThan s))
    (he' : e.AllAtoms (Atom.OlderThan s')) : e.relabel σ = e := by
  refine Sexp.relabel_eq_of_atoms ((he.and he').imp ?_)
  rintro (_ | _ | _ | c) ⟨hc, hc'⟩
  · rfl
  · rfl
  · rfl
  · exact congrArg (fun i => Atom.callable { c with identity := i }) (hσ.older _ hc hc')

namespace Machine

/-- A module that has been compiled with a prelude is run with a standard one. -/
theorem exists_env_of_usesPrelude {m : Module} (hm : m.usesPrelude = true) (args : Value)
    (limits : Limits) (s : Store) : ∃ s' env, s.Extends s' ∧ (s.Closed → s'.Closed) ∧
      (Prelude.standard s).1.Framed s' env ∧
        ofModule m args limits s = (idle s' limits).load m.code.value args env.value := by
  cases hprelude : Prelude.standard s with
  | mk prelude s₁ =>
    cases hprelenv : prelude.env s₁ with
    | mk v s₂ =>
      obtain ⟨hextends, hclosed, env, rfl, hframed⟩ := Prelude.exists_framed hprelenv
      refine ⟨s₂, env, (Prelude.extends_standard hprelude).trans hextends,
        fun hs => hclosed (Prelude.closed_standard hprelude hs), hframed, ?_⟩
      rw [ofModule, hm, if_pos rfl, hprelude]
      dsimp only
      rw [hprelenv]

/-- Modules that both count on a prelude, or both do without, are run in environments that match
once the identities are exchanged. -/
theorem exists_matching_envs {m m' : Module} {σ : Nat → Nat} {s s' : Store}
    (huses : m.usesPrelude = m'.usesPrelude) (hσ : Prelude.Exchanges m.usesPrelude σ s s')
    (args args' : Value) (limits : Limits) :
    ∃ u env u' env', s.Extends u ∧ s'.Extends u' ∧ (s.Closed → u.Closed) ∧
      (s'.Closed → u'.Closed) ∧ u.Holds env ∧ u'.Holds env' ∧ env.AllAtoms Atom.Settled ∧
        env.Matches (env'.relabel σ) ∧
          ofModule m args limits s = (idle u limits).load m.code.value args env.value ∧
            ofModule m' args' limits s' = (idle u' limits).load m'.code.value args' env'.value := by
  cases hm : m.usesPrelude with
  | false =>
    have hm' : m'.usesPrelude = false := huses.symm.trans hm
    refine ⟨s, .nil, s', .nil, .refl s, .refl s', id, id, trivial, trivial, trivial, rfl, ?_, ?_⟩
    · rw [ofModule, hm]
      rfl
    · rw [ofModule, hm']
      rfl
  | true =>
    obtain ⟨u, env, hextends, hclosed, hframed, hload⟩ :=
      exists_env_of_usesPrelude hm args limits s
    obtain ⟨u', env', hextends', hclosed', hframed', hload'⟩ :=
      exists_env_of_usesPrelude (huses.symm.trans hm) args' limits s'
    exact ⟨u, env, u', env', hextends, hextends', hclosed, hclosed', hframed.held, hframed'.held,
      hframed.settled, hframed.matches_relabel (hσ.standard hm) hframed', hload, hload'⟩

end Machine

end Secd
