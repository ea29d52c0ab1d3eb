import Mathlib.Data.DFinsupp.WellFounded
import Secd.Proofs.Machine.Finite
import Secd.Proofs.Machine.Outermost
import Secd.Proofs.Machine.Turn

/-!
# Every run ends

The control of a machine is a list that gets shorter with every instruction, until an instruction
saves what is left of it on the dump and goes on with other code, or gives back what has been saved.
The dump cannot grow beyond its limit. So write down the lengths of the codes on the dump, from the
bottom to the top, and after them the length of the control: every step makes one of these smaller,
and nothing in front of it is changed. A sequence of bounded length cannot be made smaller in this
way forever, whatever code the machine runs.
-/

namespace Secd

open Store

/-- The value of an instruction is its symbol. -/
theorem Opcode.eq_value_of_ofValue? {op : Opcode} {v : Value} (h : Opcode.ofValue? v = some op) :
    v = op.value := by
  match v, h with
  | .symbol name, h => rw [Opcode.value, Opcode.mnemonic_of_ofName? h]

namespace Machine

open Secd.Action

variable {m m' : Machine}

/-! ### The rules that apply -/

/-- An instruction that takes operands does not go on without them. -/
theorem exists_pair_of_execute {op : Opcode} (htakes : 0 < op.operandCount)
    (hok : execute op m = .ok .proceed m') : ∃ d, m.control = .pair d := by
  obtain ⟨s, S, E, C, D, limits, stats, calls⟩ := m
  cases C with
  | pair d => exact ⟨d, rfl⟩
  | atom a =>
    cases op with
    | ld | ldc | ldf | sel => cases hok
    | _ => cases htakes

/-- If an instruction is executed and the machine goes on, there is a rule for it. -/
theorem exists_transition_of_execute {op : Opcode} {c : Nat} (hcontrol : m.control = .pair c)
    (hop : (m.store.cell c).head = op.value)
    (hok : execute op (m.fetched (m.store.cell c).tail) = .ok .proceed m') :
    ∃ e, Transition m.registers e := by
  obtain ⟨s, S, E, C, D, limits, stats, calls⟩ := m
  dsimp only at hcontrol hop hok
  subst hcontrol
  simp only [fetched] at hok
  have hnone : Registers.Next ⟨s, S, E, .pair c, D⟩ op [] (s.cell c).tail := ⟨c, rfl, hop, rfl⟩
  have hone {d : Nat} (htail : (s.cell c).tail = .pair d) :
      Registers.Next ⟨s, S, E, .pair c, D⟩ op [(s.cell d).head] (s.cell d).tail :=
    ⟨c, rfl, hop, d, htail, rfl, rfl⟩
  have hpair (htakes : 0 < op.operandCount) : ∃ d, (s.cell c).tail = .pair d :=
    exists_pair_of_execute htakes hok
  cases op with
  | stop =>
    cases S with
    | nil => cases hok
    | cons v S => exact ⟨_, .stop hnone rfl⟩
  | ld =>
    obtain ⟨d, htail⟩ := hpair (by decide)
    cases haddress : Address.ofValue s (s.cell d).head with
    | error e =>
      rw [htail] at hok
      simp [execute, ld, haddress] at hok
    | ok a =>
      obtain ⟨e, he, -⟩ := exists_transition_ld (hone htail) haddress
      exact ⟨e, he⟩
  | ldc =>
    obtain ⟨d, htail⟩ := hpair (by decide)
    exact ⟨_, .ldc (hone htail)⟩
  | ldf =>
    obtain ⟨d, htail⟩ := hpair (by decide)
    exact ⟨_, .ldf (hone htail)⟩
  | ap =>
    rcases S with _ | ⟨f, _ | ⟨args, S⟩⟩
    · cases hok
    · cases hok
    · cases f with
      | pair f => exact ⟨_, .apClosure hnone rfl⟩
      | atom a =>
        obtain ⟨e, he, -⟩ := exists_transition_ap hnone rfl
        exact ⟨e, he⟩
  | rtn =>
    cases S with
    | nil => cases hok
    | cons v S =>
      by_cases hempty : D.size = 0
      · obtain rfl := Array.size_eq_zero_iff.1 hempty
        cases hok
      · obtain ⟨rest, entry, rfl⟩ := Array.eq_push_of_size_ne_zero hempty
        cases entry with
        | join after =>
          rw [execute_rtn_join] at hok
          cases hok
        | call caller home after => exact ⟨_, .rtn hnone rfl rfl⟩
  | dum => exact ⟨_, .dum hnone⟩
  | rap =>
    rcases S with _ | ⟨f, _ | ⟨args, S⟩⟩
    · cases hok
    · cases hok
    · cases f with
      | atom a => cases hok
      | pair f =>
        obtain ⟨e, he, -⟩ := exists_transition_rap hnone rfl
        exact ⟨e, he⟩
  | sel =>
    obtain ⟨d, htail⟩ := hpair (by decide)
    rw [htail] at hok
    cases htail' : (s.cell d).tail with
    | atom a => simp [execute, sel, operand, fetch, htail'] at hok
    | pair d' =>
      cases S with
      | nil => simp [execute, sel, operand, fetch, pop, htail'] at hok
      | cons test S => exact ⟨_, .sel ⟨c, rfl, hop, d, htail, rfl, d', htail', rfl, rfl⟩ rfl⟩
  | join =>
    by_cases hempty : D.size = 0
    · obtain rfl := Array.size_eq_zero_iff.1 hempty
      cases hok
    · obtain ⟨rest, entry, rfl⟩ := Array.eq_push_of_size_ne_zero hempty
      cases entry with
      | call caller home after =>
        rw [execute_join_call] at hok
        cases hok
      | join after => exact ⟨_, .join hnone rfl⟩
  | unary op =>
    cases S with
    | nil => cases op <;> cases hok
    | cons v S =>
      obtain ⟨e, he, -⟩ := exists_transition_unary hnone rfl
      exact ⟨e, he⟩
  | binary op =>
    rcases S with _ | ⟨v, _ | ⟨w, S⟩⟩
    · cases op <;> cases hok
    · rcases v.int_or_error with ⟨n, rfl⟩ | ⟨e, he⟩
      · cases op <;> cases hok
      · cases op <;> simp [execute, binary, arithmetic, popInt, pop, he] at hok
    · obtain ⟨e, he, -⟩ := exists_transition_binary hnone rfl
      exact ⟨e, he⟩

/-- The rules say all that a machine can do that goes on: a step is that of the rule that
applies. -/
theorem transition_of_proceed (h : step.run m = .ok .proceed m') :
    Transition m.registers (.proceed m'.registers) := by
  have hrule : ∃ e, Transition m.registers e := by
    rcases step_cases m with ⟨op, c, hcontrol, hop, hstep⟩ | ⟨f, hstep⟩ | ⟨f, c, -, hstep⟩
    · rw [hstep] at h
      split at h
      · next flow m₁ hexecute =>
        cases h
        rw [Registers.opcode?, registers, hcontrol] at hop
        exact exists_transition_of_execute hcontrol (Opcode.eq_value_of_ofValue? hop) hexecute
      · cases h
    · cases hstep.symm.trans h
    · cases hstep.symm.trans h
  obtain ⟨e, he⟩ := hrule
  exact effect_of_proceed he h ▸ he

end Machine

/-! ### What a step does to the control and to the dump -/

/-- The code that goes on when the entry is taken. -/
def DumpEntry.after : DumpEntry → Value
  | .call _ _ control => control
  | .join control => control

/-- The value of an entry's code is one of those in the entry. -/
theorem DumpEntry.after_mem_values (entry : DumpEntry) : entry.after ∈ entry.values := by
  cases entry with
  | call stack env control =>
    exact List.mem_cons_of_mem _ List.mem_cons_self
  | join control => exact List.mem_cons_self

/-- An instruction and its operands have been taken from the control. What is left of it is the new
control, or is saved on the dump, or is given up for the code that has been saved last. -/
inductive Registers.Draws (r r' : Registers) : Prop where
  | keeps {op : Opcode} {operands : List Value} (hnext : r.Next op operands r'.control)
      (hdump : r'.dump = r.dump)
  | saves {op : Opcode} {operands : List Value} (entry : DumpEntry)
      (hnext : r.Next op operands entry.after) (hdump : r'.dump = r.dump.push entry)
  | takes (entry : DumpEntry) (hcontrol : r'.control = entry.after)
      (hdump : r.dump = r'.dump.push entry)

/-- Every step that goes on does one of these. -/
theorem Transition.draws {r r' : Registers} (h : Transition r (.proceed r')) : r.Draws r' := by
  generalize he : Effect.proceed r' = e at h
  cases h <;> cases he
  case apClosure hnext _ | rap hnext _ _ _ _ => exact .saves (.call _ _ _) hnext rfl
  case sel hnext _ => exact .saves (.join _) hnext rfl
  case rtn hdump => exact .takes (.call _ _ _) rfl hdump
  case join hdump => exact .takes (.join _) rfl hdump
  all_goals exact .keeps ‹r.Next _ _ _› rfl

namespace Store

/-- The number of cells of a list. -/
def spineLength (s : Store) (v : Value) : Nat := (s.spine v).1.length

variable {base s s' : Store} {P : Nat → Prop} {v rest : Value}

/-- The length of a list that ends is the number of its cells. -/
theorem Chain.spineLength_eq {cells : List Nat} {ending : Atom} (h : s.Chain v cells ending) :
    s.spineLength v = cells.length := by
  rw [spineLength, h.spine_eq]

/-- What comes after items of a list is a list that is shorter by as many. -/
theorem Chain.exists_of_starts {cells : List Nat} {ending : Atom} (h : s.Chain v cells ending)
    {items : List Value} (hstarts : s.Starts v items rest) :
    ∃ cells', s.Chain rest cells' ending ∧ cells.length = items.length + cells'.length := by
  induction items generalizing v cells with
  | nil =>
    obtain rfl : v = rest := hstarts
    exact ⟨cells, h, (Nat.zero_add _).symm⟩
  | cons item items ih =>
    obtain ⟨c, rfl, -, hrest⟩ := hstarts
    cases cells with
    | nil => cases h
    | cons d cells =>
      obtain ⟨hd, -, htail⟩ := h
      obtain rfl := Value.pair.inj hd
      obtain ⟨cells', hchain, hlength⟩ := ih htail hrest
      refine ⟨cells', hchain, ?_⟩
      rw [List.length_cons, List.length_cons, hlength]
      omega

end Store

namespace Machine

/-! ### Runs end -/

/-- What becomes smaller from step to step: at each place on the dump the length of the code that is
saved there, then the length of the control, and nothing at the places that are free. Code weighs a
little more on the dump than as the control. -/
def weight (m : Machine) (place : Nat) : Nat :=
  if h : place < m.dump.size then 2 * m.store.spineLength m.dump[place].after + 2
  else if place = m.dump.size then 2 * m.store.spineLength m.control + 1
  else 0

variable {m m' : Machine} {base : Store}

/-- The weight of code on the dump. -/
theorem weight_of_getElem? {place : Nat} {entry : DumpEntry} (h : m.dump[place]? = some entry) :
    m.weight place = 2 * m.store.spineLength entry.after + 2 := by
  obtain ⟨hlt, rfl⟩ := Array.getElem?_eq_some_iff.1 h
  rw [weight, dif_pos hlt]

/-- The weight of the control. -/
theorem weight_size (m : Machine) :
    m.weight m.dump.size = 2 * m.store.spineLength m.control + 1 := by
  rw [weight, dif_neg (Nat.lt_irrefl _), if_pos rfl]

/-- The place at the top of the dump, or the one after it, has a smaller weight after a step, and
those before it have the same. -/
theorem exists_weight_lt (hm : m.Satisfies (.ordered base fun _ => True))
    (hstep : step.run m = .ok .proceed m') : ∃ place ≤ m.dump.size,
      (∀ other < place, m'.weight other = m.weight other) ∧ m'.weight place < m.weight place := by
  have hnext : m' = m.next := by rw [next, hstep]
  have hevolves := hnext ▸ m.advances_growing.satisfies.store
  have hchain {v : Value} (hv : v ∈ m.values) : ∃ cells ending, m.store.Chain v cells ending :=
    Ordered.exists_chain hm.store (hm.good_of_mem_values hv)
  -- what is not taken from the dump weighs the same after the step
  have hkept {other : Nat} (hlt : other < m.dump.size) (hsame : m'.dump[other]? = m.dump[other]?) :
      m'.weight other = m.weight other := by
    obtain ⟨entry, hentry⟩ : ∃ entry, m.dump[other]? = some entry :=
      ⟨_, Array.getElem?_eq_getElem hlt⟩
    have hmem : entry.after ∈ m.values := by
      refine List.mem_append_right _ (List.mem_flatMap.2 ⟨entry, ?_, entry.after_mem_values⟩)
      exact Array.mem_toList_iff.2 (Array.mem_of_getElem? hentry)
    obtain ⟨cells, ending, hcode⟩ := hchain hmem
    rw [weight_of_getElem? hentry, weight_of_getElem? (hsame.trans hentry), hcode.spineLength_eq,
      (hcode.evolves hevolves).spineLength_eq]
  -- what is left of the control is shorter than the control
  have hshorter {op : Opcode} {operands : List Value} {k : Value}
      (hk : m.registers.Next op operands k) :
      m'.store.spineLength k < m.store.spineLength m.control := by
    obtain ⟨cells, ending, hcontrol⟩ := hchain (List.mem_cons_of_mem _ List.mem_cons_self)
    obtain ⟨cells', hrest, hlength⟩ := hcontrol.exists_of_starts hk
    rw [hcontrol.spineLength_eq, (hrest.evolves hevolves).spineLength_eq, hlength, List.length_cons]
    omega
  cases (transition_of_proceed hstep).draws with
  | keeps hk hdump =>
    replace hdump : m'.dump = m.dump := hdump
    refine ⟨m.dump.size, Nat.le_refl _, fun other hother => hkept hother (by rw [hdump]), ?_⟩
    have hlt := hshorter hk
    have hweight := m'.weight_size
    rw [hdump] at hweight
    rw [hweight, weight_size]
    exact Nat.succ_lt_succ (Nat.mul_lt_mul_of_pos_left hlt Nat.two_pos)
  | saves entry hk hdump =>
    replace hdump : m'.dump = m.dump.push entry := hdump
    refine ⟨m.dump.size, Nat.le_refl _, fun other hother => hkept hother ?_, ?_⟩
    · rw [hdump, Array.getElem?_push_lt hother, Array.getElem?_eq_getElem hother]
    · have hlt := hshorter hk
      have hentry : m'.dump[m.dump.size]? = some entry := by rw [hdump, Array.getElem?_push_size]
      rw [weight_size, weight_of_getElem? hentry]
      omega
  | takes entry hcontrol hdump =>
    replace hdump : m.dump = m'.dump.push entry := hdump
    have hsize : m.dump.size = m'.dump.size + 1 := by rw [hdump, Array.size_push]
    refine ⟨m'.dump.size, by omega, fun other hother => hkept (by omega) ?_, ?_⟩
    · rw [hdump, Array.getElem?_push_lt hother, Array.getElem?_eq_getElem hother]
    · have hmem : entry.after ∈ m.values := by
        refine List.mem_append_right _ (List.mem_flatMap.2 ⟨entry, ?_, entry.after_mem_values⟩)
        rw [hdump]
        exact Array.mem_toList_iff.2 (Array.mem_push_self)
      obtain ⟨cells, ending, hcode⟩ := hchain hmem
      replace hcontrol : m'.control = entry.after := hcontrol
      have hentry : m.dump[m'.dump.size]? = some entry := by rw [hdump, Array.getElem?_push_size]
      rw [weight_size, hcontrol, (hcode.evolves hevolves).spineLength_eq,
        weight_of_getElem? hentry, hcode.spineLength_eq]
      omega

/-- A machine whose lists are in order ends its run if the dump is no larger than it may be. -/
theorem exists_run_of_ordered (hm : m.Satisfies (.ordered base fun _ => True))
    (hdump : m.dump.size ≤ m.limits.maxDump) : ∃ n result, m.run n = some result := by
  have hwf : WellFounded
      (Pi.Lex (· < ·) fun {_ : Fin (m.limits.maxDump + 1)} (a b : Nat) => a < b) :=
    Pi.Lex.wellFounded _ fun _ => Nat.lt_wfRel.wf
  generalize hlimit : m.limits.maxDump = limit at hwf hdump
  generalize hweights : (fun place : Fin (limit + 1) => m.weight place) = weights
  induction weights using hwf.induction generalizing m with
  | _ weights ih =>
    cases hstep : step.run m with
    | error f m' => exact ⟨1, _, by rw [run, hstep]⟩
    | ok flow m' =>
      cases flow with
      | stop v => exact ⟨1, _, by rw [run, hstep]⟩
      | proceed =>
        have hnext : m' = m.next := by rw [next, hstep]
        obtain ⟨hlimits, -, -, hsize⟩ := measures_of_ok hstep
        have hm' : m'.Satisfies (.ordered base fun _ => True) :=
          hnext ▸ hm.next_ordered.imp_ordered fun _ _ => trivial
        obtain ⟨place, hplace, hsame, hlt⟩ := exists_weight_lt hm hstep
        subst hweights
        obtain ⟨n, result, hrun⟩ := ih (fun place => m'.weight place)
          ⟨⟨place, by omega⟩, fun other hother => hsame other hother, hlt⟩ hm'
          (by rw [hlimits, hlimit]) (by omega) rfl
        exact ⟨n + 1, result, by rw [run, hstep]; exact hrun⟩

/-- Every run ends. A machine that is loaded with code, arguments and an environment that are finite
trees halts or faults after some number of steps, even if it may take as many steps as it likes: a
recursion without end fills the dump. -/
theorem exists_run_of_load {s : Store} {code args env : Sexp} (hcode : s.Holds code)
    (hargs : s.Holds args) (henv : s.Holds env) (limits : Limits) :
    ∃ n result, ((idle s limits).load code.value args.value env.value).run n = some result :=
  exists_run_of_ordered ((satisfies_load hcode hargs henv limits).imp_ordered fun _ => False.elim)
    (Nat.zero_le _)

end Machine

end Secd
