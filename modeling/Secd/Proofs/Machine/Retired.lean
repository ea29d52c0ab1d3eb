import Secd.Proofs.Machine.Invariant

/-!
# Closures that `RAP` has applied

The closure that is made for a `RAP` is applied by this `RAP` and by nothing else. It is a new pair,
which `RAP` takes from the stack before anything can be made of it, so that no value of the machine
refers to it afterwards.
-/

namespace Secd

/-- The value belongs to a store of the given size, and it is not the pair at the address. -/
def Value.Misses (address size : Nat) (v : Value) : Prop :=
  ∀ c, v = .pair c → c < size ∧ c ≠ address

/-- No value is the pair at the address, which has been allocated. -/
def Invariant.absent (address : Nat) : Invariant where
  Sound s := address < s.size ∧ ∀ c < s.size,
    (s.cell c).head.Misses address s.size ∧ (s.cell c).tail.Misses address s.size
  Good := Value.Misses address
  atom _ _ := nofun
  mono hv hsize c hc := ⟨Nat.lt_of_lt_of_le (hv c hc).1 hsize, (hv c hc).2⟩
  parts hs hc := hs.2 _ (hc _ rfl).1
  cons {s head tail} hs hhead htail := by
    have hsize := Store.size_cons s head tail
    have hmono {v : Value} (hv : v.Misses address s.size) :
        v.Misses address (s.cons head tail).2.size :=
      fun c hc => ⟨by have := (hv c hc).1; omega, (hv c hc).2⟩
    refine ⟨⟨by omega, fun c hc => ?_⟩, ?_⟩
    · rcases Nat.lt_or_ge c s.size with hlt | hge
      · rw [Store.cell_cons_of_lt s head tail hlt]
        exact ⟨hmono (hs.2 c hlt).1, hmono (hs.2 c hlt).2⟩
      · obtain rfl : c = s.size := by omega
        rw [Store.cell_cons_size]
        exact ⟨hmono hhead, hmono htail⟩
    · rintro c heq
      obtain rfl := Value.pair.inj heq
      exact ⟨by omega, Nat.ne_of_gt hs.1⟩

namespace Invariant

variable {address : Nat} {s : Store}

/-- A value that belongs to a store misses the next cell. -/
theorem misses_of_contains {size : Nat} {v : Value} (hv : s.Contains v) (hsize : s.size < size) :
    v.Misses s.size size := by
  rintro c rfl
  exact ⟨Nat.lt_trans hv hsize, Nat.ne_of_lt hv⟩

/-- Writing such a value to a head leaves no pair at the address. -/
theorem absent_setHead (hs : (absent address).Sound s) (c : Nat) {head : Value}
    (hhead : (absent address).Good s.size head) : (absent address).Sound (s.setHead c head) := by
  obtain ⟨hlt, hcells⟩ := hs
  have hsize := Store.size_setHead s c head
  refine ⟨hsize ▸ hlt, fun d hd => ?_⟩
  rw [hsize] at hd
  obtain ⟨holdHead, holdTail⟩ := hcells d hd
  rw [hsize, Store.tail_cell_setHead]
  refine ⟨?_, holdTail⟩
  by_cases heq : d = c
  · subst heq
    rw [Store.cell_setHead_self s head hd]
    exact hhead
  · rw [Store.cell_setHead_of_ne s head heq]
    exact holdHead

end Invariant

/-- The values that an entry of the dump holds belong to the store. -/
theorem DumpEntry.Within.contains {s : Store} {entry : DumpEntry} (h : entry.Within s) {v : Value}
    (hv : v ∈ entry.values) : s.Contains v := by
  cases entry with
  | call stack env control =>
    obtain ⟨hstack, henv, hcontrol⟩ := h
    have hvalues := List.forall_mem_cons.2 ⟨henv, List.forall_mem_cons.2 ⟨hcontrol, hstack⟩⟩
    exact hvalues v hv
  | join control => exact List.mem_singleton.1 hv ▸ h

namespace Machine

variable {m m' : Machine} {f : Nat}

open Secd.Action

/-- The closure has been made for a `RAP`. Either this is next and finds the closure on top of the
stack, or it has been executed; no other value refers to the closure. -/
inductive Retired (m : Machine) (f : Nat) : Prop where
  | next {stack : List Value} (hop : m.registers.opcode? = some .rap)
      (hstack : m.stack = .pair f :: stack) (h : Satisfies (.absent f) { m with stack })
  | done (h : m.Satisfies (.absent f))

/-- `RAP` takes the closure from the top of the stack, and nothing refers to it any more. -/
theorem satisfies_absent_of_rap {stack : List Value} (hop : m.registers.opcode? = some .rap)
    (hstack : m.stack = .pair f :: stack) (h : Satisfies (.absent f) { m with stack })
    (hstep : step.run m = .ok .proceed m') : m'.Satisfies (.absent f) := by
  rcases m.step_cases with ⟨op, k, hcontrol, hopcode, hexecuted⟩ | ⟨fault, hfault⟩ |
    ⟨fault, k, -, hfault⟩
  · obtain rfl : op = .rap := Option.some.inj (hopcode.symm.trans hop)
    have hrest : (Invariant.absent f).Good m.store.size (m.store.cell k).tail :=
      ((Invariant.absent f).parts h.store (hcontrol ▸ h.control)).2
    generalize hfetched : m.fetched (m.store.cell k).tail = m₁ at hexecuted
    by_cases hnone : ∀ g c args rest, ¬ m₁.Awaits g c args rest
    · obtain ⟨fault, n, hrap⟩ := exists_rap_eq_error hnone
      rw [hexecuted, execute, bind_apply, hrap] at hstep
      cases hstep
    · push Not at hnone
      obtain ⟨g, c, args, rest, hawaits⟩ := hnone
      rw [hexecuted, execute, bind_apply, hawaits.rap_apply] at hstep
      by_cases hfull : m₁.limits.maxDump ≤ m₁.dump.size
      · rw [if_pos hfull] at hstep
        cases hstep
      · rw [if_neg hfull] at hstep
        cases hstep
        subst hfetched
        obtain ⟨hf, rfl⟩ := List.cons.inj (hstack.symm.trans hawaits.stack)
        obtain rfl := Value.pair.inj hf
        obtain ⟨hargs, hsaved⟩ := List.forall_mem_cons.1 h.stack
        have henv : (Invariant.absent f).Good m.store.size (.pair c) := hawaits.env ▸ h.env
        have houter := ((Invariant.absent f).parts h.store henv).2
        have hbody := (h.store.2 f h.store.1).1
        have hsize := Store.size_setHead m.store c args
        refine ⟨Invariant.absent_setHead h.store c hargs, List.forall_mem_nil _, hsize ▸ h.env,
          hsize ▸ hbody, ?_⟩
        intro entry hentry v hv
        refine (Invariant.absent f).mono ?_ (Nat.le_of_eq hsize.symm)
        rcases Array.mem_push.1 hentry with hentry | rfl
        · exact h.dump entry hentry v hv
        · have hvalues :=
            List.forall_mem_cons.2 ⟨houter, List.forall_mem_cons.2 ⟨hrest, hsaved⟩⟩
          exact hvalues v hv
  · cases hfault.symm.trans hstep
  · cases hfault.symm.trans hstep

/-- A closure that is retired stays so. -/
theorem Retired.of_step (h : m.Retired f) (hstep : step.run m = .ok .proceed m') :
    m'.Retired f := by
  cases h with
  | next hop hstack h => exact .done (satisfies_absent_of_rap hop hstack h hstep)
  | done h =>
    have hnext : m.next = m' := by rw [Machine.next, hstep]
    have hadvances := advances_next h fun c args _ _ hargs =>
      Invariant.absent_setHead h.store c hargs
    exact .done (hnext ▸ hadvances.satisfies)

/-- `AP` does not find a retired closure. -/
theorem Retired.ne_of_ap (h : m.Retired f) (hop : m.registers.opcode? = some .ap) {g : Nat}
    {stack : List Value} (hstack : m.stack = .pair g :: stack) : g ≠ f := by
  cases h with
  | next hop' _ _ => cases hop.symm.trans hop'
  | done h =>
    have hgood := h.stack
    rw [hstack] at hgood
    exact ((List.forall_mem_cons.1 hgood).1 g rfl).2

/-- The closure that `LDF` makes is retired if `RAP` comes next. -/
theorem retired_of_ldf {block k : Value} (hclosed : m.registers.Closed)
    (hnext : m.registers.Next .ldf [block] k)
    (hafter : m'.registers = { m.registers with
      store := (m.store.cons block m.env).2, stack := .pair m.store.size :: m.stack, control := k })
    (hop : m'.registers.opcode? = some .rap) : m'.Retired m.store.size := by
  obtain ⟨s, S, _, _, _, limits, stats, calls⟩ := m
  obtain ⟨_, _, E, C, D, limits', stats', calls'⟩ := m'
  simp only [registers, Registers.mk.injEq] at hafter
  obtain ⟨rfl, rfl, rfl, rfl, rfl⟩ := hafter
  obtain ⟨hoperands, hk⟩ := hclosed.next hnext
  have hlt : s.size < (s.cons block E).2.size := by
    rw [Store.size_cons]
    omega
  have hgood {v : Value} (hv : s.Contains v) : v.Misses s.size (s.cons block E).2.size :=
    Invariant.misses_of_contains hv hlt
  refine .next hop rfl ⟨⟨hlt, fun c hc => ?_⟩, fun v hv => hgood (hclosed.stack v hv),
    hgood hclosed.env, hgood hk, fun entry hentry v hv => ?_⟩
  · rcases Nat.lt_or_ge c s.size with hold | hnew
    · rw [Store.cell_cons_of_lt s block E hold]
      exact ⟨hgood (hclosed.store c hold).1, hgood (hclosed.store c hold).2⟩
    · obtain rfl : c = s.size := by
        rw [Store.size_cons] at hc
        omega
      rw [Store.cell_cons_size]
      exact ⟨hgood (hoperands _ List.mem_cons_self), hgood hclosed.env⟩
  · exact hgood ((hclosed.dump entry hentry).contains hv)

end Machine

end Secd
