import Secd.Proofs.Machine.Environments

/-!
# Programs that are run one after the other

A program leaves a store behind, and the next one can be run on it: the store is closed if it has
been closed before, and what it has held fast it still holds fast.
-/

namespace Secd

/-- The store is closed, and the values in the registers belong to it. -/
def Invariant.closed : Invariant where
  Sound := Store.Closed
  Good size v := ∀ c, v = .pair c → c < size
  atom _ _ _ h := by cases h
  mono hv hsize c hc := Nat.lt_of_lt_of_le (hv c hc) hsize
  parts {s c} hs hc := by
    obtain ⟨hhead, htail⟩ := hs c (hc c rfl)
    constructor
    · intro d hd
      rwa [hd] at hhead
    · intro d hd
      rwa [hd] at htail
  cons {s head tail} hs hhead htail := by
    have hcontains {v : Value} (hv : ∀ c, v = .pair c → c < s.size) : s.Contains v := by
      cases v with
      | atom a => exact trivial
      | pair c => exact hv c rfl
    refine ⟨hs.cons (hcontains hhead) (hcontains htail), ?_⟩
    rintro c ⟨⟩
    exact Store.contains_cons s head tail

namespace Machine

/-- Steps of a machine with a closed store leave the store closed. -/
theorem Satisfies.after_closed {m : Machine} (hm : m.Satisfies .closed) (n : Nat) :
    (m.after n).Satisfies .closed := by
  induction n with
  | zero => exact hm
  | succ n ih =>
    refine (advances_next ih fun c args _ _ hargs => ?_).satisfies
    have hcontains : (m.after n).store.Contains args := by
      cases args with
      | atom a => exact trivial
      | pair d => exact hargs d rfl
    exact Store.Closed.setHead ih.store c hcontains

variable {s : Store} {code args env : Sexp} {limits : Limits} {fuel : Nat} {outcome : Outcome}
  {machine : Machine}

/-- A run that begins with trees of a closed store leaves a closed store. -/
theorem closed_of_run (hs : s.Closed) (hcode : s.Holds code) (hargs : s.Holds args)
    (henv : s.Holds env)
    (hrun : run fuel ((idle s limits).load code.value args.value env.value) =
      some (outcome, machine)) : machine.store.Closed := by
  have hgood {e : Sexp} (he : s.Holds e) : ∀ c, e.value = .pair c → c < s.size := by
    intro c hc
    have hcontains := he.contains
    rwa [hc] at hcontains
  have hloaded : ((idle s limits).load code.value args.value env.value).Satisfies .closed := {
    store := hs
    stack := List.forall_mem_singleton.2 (hgood hargs)
    env := hgood henv
    control := hgood hcode
    dump := fun _ hentry => absurd hentry (Array.not_mem_empty _) }
  obtain ⟨n, -, rfl⟩ := exists_after_of_run hrun
  exact (hloaded.after_closed n).store

/-- A run leaves a store that holds fast what the store before held fast. -/
theorem holdsFast_of_run {m : Machine} {e : Sexp} (he : m.store.HoldsFast e)
    (hrun : m.run fuel = some (outcome, machine)) : machine.store.HoldsFast e := by
  obtain ⟨n, -, rfl⟩ := exists_after_of_run hrun
  exact (he.after n).1

end Machine

end Secd
