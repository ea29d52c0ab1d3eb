import Secd.Machine.Run
import Secd.Proofs.Machine.Closed
import Secd.Proofs.Store.Relabelled

/-!
# Runs under other identities

A machine does not look at the identities of host callables, except that it compares them. With
other identities, as long as different ones stay different, a run takes the same steps, and it ends
with the same fault, or with the same result up to the identities in it.
-/

namespace Secd

variable {σ : Nat → Nat}

/-- The entry with the identities replaced. -/
def DumpEntry.relabel (σ : Nat → Nat) : DumpEntry → DumpEntry
  | .call stack env control =>
    .call (stack.map (Value.relabel σ)) (env.relabel σ) (control.relabel σ)
  | .join control => .join (control.relabel σ)

/-- The machine with the identities in its store and its registers replaced. -/
def Machine.relabel (σ : Nat → Nat) (m : Machine) : Machine :=
  { m with
    store := m.store.relabel σ
    stack := m.stack.map (Value.relabel σ)
    env := m.env.relabel σ
    control := m.control.relabel σ
    dump := m.dump.map (DumpEntry.relabel σ) }

/-- The result of a step with the identities replaced. -/
def Flow.relabel (σ : Nat → Nat) : Flow → Flow
  | .proceed => .proceed
  | .stop v => .stop (v.relabel σ)

/-- The outcome with the identities replaced. -/
def Outcome.relabel (σ : Nat → Nat) : Outcome → Outcome
  | .halted v => .halted (v.relabel σ)
  | .faulted f => .faulted f

/-! ### Host callables -/

namespace Primitive

/-- An argument that has to be an integer. -/
@[simp] theorem intArg_relabel (p : Primitive) (v : Value) :
    p.intArg (v.relabel σ) = p.intArg v := by
  rw [intArg, intArg, Value.asInt_relabel]

/-- A sum does not depend on identities. -/
theorem sumFrom_relabel (p : Primitive) (total : Int64) (args : List Value) :
    p.sumFrom total (args.map (Value.relabel σ)) = p.sumFrom total args := by
  induction args generalizing total with
  | nil => rfl
  | cons v vs ih => simp only [List.map_cons, sumFrom, intArg_relabel, ih]

/-- Nothing that a primitive computes depends on identities. -/
theorem compute_relabel (p : Primitive) (s : Store) (args : List Value) :
    p.compute (s.relabel σ) (args.map (Value.relabel σ)) = p.compute s args := by
  rcases args with _ | ⟨v, _ | ⟨w, _ | ⟨x, _ | ⟨y, _ | ⟨z, rest⟩⟩⟩⟩⟩
  · cases p <;> rfl
  · cases p <;> simp [compute]
  · cases p <;> simp [compute]
  · cases p <;> rfl
  · cases p with
    | sum => exact sum.sumFrom_relabel 0 [v, w, x, y]
    | _ => rfl
  · cases p <;> simp [compute]

/-- A primitive gives the same result up to the identities in it. -/
theorem apply_relabel (p : Primitive) (s : Store) (args : List Value) :
    p.apply (s.relabel σ) (args.map (Value.relabel σ)) =
      ((p.apply s args).1.map (Value.relabel σ), (p.apply s args).2.relabel σ) := by
  have hcompute : p.compute (s.relabel σ) (args.map (Value.relabel σ)) =
      (p.compute s args).map (Value.relabel σ) := by
    rw [compute_relabel]
    cases hresult : p.compute s args with
    | error message => rfl
    | ok v =>
      obtain ⟨a, ha, rfl⟩ := exists_atom_of_compute hresult
      exact congrArg (fun a => Except.ok (Value.atom a)) ha.plain.relabel_eq.symm
  cases p with
  | list =>
    have hlist := s.dotted_relabel (σ := σ) args .nil
    simp only [apply, Store.list]
    rw [Value.relabel_atom, Atom.relabel_nil] at hlist
    rw [hlist]
    rfl
  | _ => simp only [apply, hcompute]

end Primitive

/-- Calling a host callable. -/
theorem Callable.call_relabel (c : Callable) (s : Store) (args : List Value) :
    (c.relabel σ).call (s.relabel σ) (args.map (Value.relabel σ)) =
      ((c.call s args).1.map (Value.relabel σ), (c.call s args).2.relabel σ) := by
  simp only [call, List.length_map]
  by_cases harity : args.length = c.arity
  · rw [if_pos (show args.length = (c.relabel σ).arity from harity), if_pos harity]
    exact c.primitive.apply_relabel s args
  · rw [if_neg (show ¬ args.length = (c.relabel σ).arity from harity), if_neg harity]
    rfl

namespace Action

open Machine

variable {α β α' β' : Type} {f : α → α'} {g : β → β'}

/-- The second action does to machines with other identities what the first one does to machines:
it faults in the same way, or its result is that of the first one as `f` changes it. -/
def Follows (σ : Nat → Nat) (f : α → α') (x : Action α) (x' : Action α') : Prop :=
  ∀ m : Machine, x' (m.relabel σ) =
    match x m with
    | .ok a m => .ok (f a) (m.relabel σ)
    | .error e m => .error e (m.relabel σ)

/-- One action after the other. -/
theorem Follows.bind {x : Action α} {x' : Action α'} {k : α → Action β} {k' : α' → Action β'}
    (hx : Follows σ f x x') (hk : ∀ a, Follows σ g (k a) (k' (f a))) :
    Follows σ g (x >>= k) (x' >>= k') := by
  intro m
  rw [bind_apply, bind_apply, hx m]
  cases x m with
  | ok a m => exact hk a m
  | error e m => rfl

/-- A known value. -/
theorem follows_pure {a : α} {a' : α'} (h : a' = f a) : Follows σ f (pure a) (pure a') := by
  rw [h]
  exact fun _ => rfl

/-- The same fault. -/
theorem follows_throw (e : Fault) : Follows σ f (throw e) (throw e) := fun _ => rfl

/-- A value computed from the machine. -/
theorem follows_read {r : Machine → α} {r' : Machine → α'}
    (h : ∀ m, r' (m.relabel σ) = f (r m)) : Follows σ f (read r) (read r') := by
  intro m
  rw [read_apply, read_apply, h]

/-- Work on the store. -/
theorem follows_withStore {r : Store → α × Store} {r' : Store → α' × Store}
    (h : ∀ s, r' (s.relabel σ) = (f (r s).1, (r s).2.relabel σ)) :
    Follows σ f (withStore r) (withStore r') := by
  rintro ⟨s, S, E, C, D, limits, stats, calls⟩
  simp only [Machine.relabel, withStore, h]

/-! ### One lemma for each part of the machine

Each part does the same under other identities. Where it finds a value, it finds the one with the
identities replaced.
-/

theorem follows_fetch : Follows σ (Option.map (Value.relabel σ)) fetch fetch := by
  rintro ⟨s, S, E, C, D, limits, stats, calls⟩
  cases C with
  | atom a => rfl
  | pair c => simp [Machine.relabel, fetch, Cell.relabel]

theorem follows_operand (op : Opcode) : Follows σ (Value.relabel σ) (operand op) (operand op) := by
  refine follows_fetch.bind fun v? => ?_
  cases v? with
  | none => exact follows_throw _
  | some v => exact follows_pure rfl

theorem follows_push (v : Value) : Follows σ id (push v) (push (v.relabel σ)) := fun _ => rfl

theorem follows_pop : Follows σ (Value.relabel σ) pop pop := by
  rintro ⟨s, S, E, C, D, limits, stats, calls⟩
  cases S <;> rfl

theorem follows_popInt : Follows σ id popInt popInt := by
  refine follows_pop.bind fun v => ?_
  rw [Value.asInt_relabel]
  cases v.asInt with
  | ok n => exact follows_pure rfl
  | error e => exact follows_throw _

theorem follows_jump (v : Value) : Follows σ id (jump v) (jump (v.relabel σ)) := fun _ => rfl

theorem follows_enter (v : Value) : Follows σ id (enter v) (enter (v.relabel σ)) := fun _ => rfl

theorem follows_env : Follows σ (Value.relabel σ) (read Machine.env) (read Machine.env) :=
  follows_read fun _ => rfl

theorem follows_cons (v w : Value) :
    Follows σ (Value.relabel σ) (cons v w) (cons (v.relabel σ) (w.relabel σ)) :=
  follows_withStore fun s => s.cons_relabel v w

theorem follows_save (entry : DumpEntry) : Follows σ id (save entry) (save (entry.relabel σ)) := by
  rintro ⟨s, S, E, C, D, limits, stats, calls⟩
  simp only [Machine.relabel, save, Array.size_map]
  by_cases hfull : limits.maxDump ≤ D.size
  · simp only [if_pos hfull]
  · simp only [if_neg hfull, Array.map_push, id]

theorem follows_top : Follows σ (DumpEntry.relabel σ) top top := by
  rintro ⟨s, S, E, C, D, limits, stats, calls⟩
  simp only [Machine.relabel, top, Array.back?_map]
  cases D.back? <;> rfl

theorem follows_drop : Follows σ id drop drop := by
  rintro ⟨s, S, E, C, D, limits, stats, calls⟩
  simp only [Machine.relabel, drop, Array.map_pop, id]

theorem follows_release : Follows σ (fun (held : List Value × Value) =>
    (held.1.map (Value.relabel σ), held.2.relabel σ)) release release := fun _ => rfl

theorem follows_restore (stack : List Value) (env control : Value) :
    Follows σ id (restore stack env control)
      (restore (stack.map (Value.relabel σ)) (env.relabel σ) (control.relabel σ)) := fun _ => rfl

theorem follows_openCall : Follows σ id openCall openCall := fun _ => rfl

theorem follows_closeCall : Follows σ id closeCall closeCall := fun _ => rfl

theorem follows_ld : Follows σ id ld ld := by
  refine (follows_operand .ld).bind fun v => ?_
  have haddress : Follows σ id (read fun m => Address.ofValue m.store v)
      (read fun m => Address.ofValue m.store (v.relabel σ)) :=
    follows_read fun m => m.store.address_relabel v
  refine haddress.bind fun r => ?_
  cases r with
  | error e => exact follows_throw _
  | ok a =>
    have hframe : Follows σ (Except.map (Value.relabel σ)) (read fun m => m.store.nth m.env a.frame)
        (read fun m => m.store.nth m.env a.frame) :=
      follows_read fun m => m.store.nth_relabel m.env a.frame
    refine hframe.bind fun r => ?_
    cases r with
    | error e => exact follows_throw _
    | ok frame =>
      dsimp only [Except.map]
      rw [Value.isPending_relabel]
      split
      · exact follows_throw _
      · have hslot : Follows σ (Except.map (Value.relabel σ))
            (read fun m => m.store.nth frame a.slot)
            (read fun m => m.store.nth (frame.relabel σ) a.slot) :=
          follows_read fun m => m.store.nth_relabel frame a.slot
        refine hslot.bind fun r => ?_
        cases r with
        | error e => exact follows_throw _
        | ok v => exact follows_push v

theorem follows_ldc : Follows σ id ldc ldc := (follows_operand .ldc).bind follows_push

theorem follows_ldf : Follows σ id ldf ldf := by
  refine (follows_operand .ldf).bind fun block => ?_
  refine follows_env.bind fun env => ?_
  exact (follows_cons block env).bind follows_push

theorem follows_closure (f : Value) :
    Follows σ (Cell.relabel σ) (closure f) (closure (f.relabel σ)) := by
  cases f with
  | pair c => exact follows_read fun m => m.store.cell_relabel c
  | atom a =>
    simp only [Value.relabel_atom, closure, Atom.kind_relabel]
    exact follows_throw _

theorem follows_callHost (c : Callable) (args : Value) :
    Follows σ id (callHost c args) (callHost (c.relabel σ) (args.relabel σ)) := by
  have hlist : Follows σ (Except.map (List.map (Value.relabel σ)))
      (read fun m => m.store.toList args) (read fun m => m.store.toList (args.relabel σ)) :=
    follows_read fun m => m.store.toList_relabel args
  refine hlist.bind fun r => ?_
  cases r with
  | error e => exact follows_throw _
  | ok list =>
    dsimp only [Except.map]
    rw [List.length_map]
    by_cases harity : list.length = c.arity
    · rw [if_pos harity, if_pos (show list.length = (c.relabel σ).arity from harity)]
      refine (follows_withStore fun s => c.call_relabel s list).bind fun r => ?_
      cases r with
      | error message => exact follows_throw _
      | ok v => exact follows_push v
    · rw [if_neg harity, if_neg (show ¬ list.length = (c.relabel σ).arity from harity)]
      exact follows_throw _

theorem follows_ap : Follows σ id ap ap := by
  refine follows_pop.bind fun f => follows_pop.bind fun args => ?_
  have hcall (f : Value) : Follows σ id
      (do
        let parts ← closure f
        let env ← read Machine.env
        let held ← release
        enter .nil
        save (.call held.1 env held.2)
        enter (← cons args parts.tail)
        jump parts.head
        openCall)
      (do
        let parts ← closure (f.relabel σ)
        let env ← read Machine.env
        let held ← release
        enter .nil
        save (.call held.1 env held.2)
        enter (← cons (args.relabel σ) parts.tail)
        jump parts.head
        openCall) := by
    refine (follows_closure f).bind fun parts => follows_env.bind fun env => ?_
    refine follows_release.bind fun held => (follows_enter .nil).bind fun _ => ?_
    refine (follows_save (.call held.1 env held.2)).bind fun _ => ?_
    refine (follows_cons args parts.tail).bind fun v => (follows_enter v).bind fun _ => ?_
    exact (follows_jump parts.head).bind fun _ => follows_openCall
  cases f with
  | pair c => exact hcall (.pair c)
  | atom a =>
    cases a with
    | callable c => exact follows_callHost c args
    | nil => exact hcall .nil
    | symbol name => exact hcall (.symbol name)
    | int n => exact hcall (.int n)

theorem follows_rtn : Follows σ id rtn rtn := by
  refine follows_pop.bind fun result => follows_top.bind fun entry => ?_
  cases entry with
  | join control => exact follows_throw _
  | call stack env control =>
    refine follows_drop.bind fun _ => ?_
    exact (follows_restore (result :: stack) env control).bind fun _ => follows_closeCall

theorem follows_dum : Follows σ id dum dum := by
  refine follows_env.bind fun env => ?_
  exact (follows_cons .pending env).bind fun v => follows_enter v

/-- The same cell is pending. -/
theorem pendingCell?_relabel (s : Store) (env captured : Value) :
    pendingCell? (s.relabel σ) (env.relabel σ) (captured.relabel σ) =
      pendingCell? s env captured := by
  cases env with
  | atom a => rfl
  | pair c =>
    cases captured with
    | atom a => rfl
    | pair d => simp [pendingCell?, Cell.relabel]

theorem follows_rap : Follows σ id rap rap := by
  refine follows_pop.bind fun f => follows_pop.bind fun args => ?_
  refine (follows_closure f).bind fun parts => follows_env.bind fun env => ?_
  have hcell : Follows σ id (read fun m => pendingCell? m.store env parts.tail)
      (read fun m => pendingCell? m.store (env.relabel σ) (parts.tail.relabel σ)) :=
    follows_read fun m => pendingCell?_relabel m.store env parts.tail
  refine hcell.bind fun c? => ?_
  cases c? with
  | none => exact follows_throw _
  | some c =>
    have hfill : Follows σ id (withStore fun s => ((), s.setHead c args))
        (withStore fun s => ((), s.setHead c (args.relabel σ))) :=
      follows_withStore fun s => congrArg (Prod.mk ()) (s.setHead_relabel c args)
    refine hfill.bind fun _ => ?_
    have houter : Follows σ (Value.relabel σ) (read fun m => (m.store.cell c).tail)
        (read fun m => (m.store.cell c).tail) :=
      follows_read fun m => congrArg Cell.tail (m.store.cell_relabel c)
    refine houter.bind fun outer => follows_release.bind fun held => ?_
    refine (follows_save (.call held.1 outer held.2)).bind fun _ => ?_
    refine (follows_enter parts.tail).bind fun _ => ?_
    exact (follows_jump parts.head).bind fun _ => follows_openCall

theorem follows_sel : Follows σ id sel sel := by
  refine (follows_operand .sel).bind fun yes => (follows_operand .sel).bind fun no => ?_
  refine follows_pop.bind fun test => ?_
  have hcontrol : Follows σ (Value.relabel σ) (read Machine.control) (read Machine.control) :=
    follows_read fun _ => rfl
  refine hcontrol.bind fun rest => (follows_jump .nil).bind fun _ => ?_
  refine (follows_save (.join rest)).bind fun _ => ?_
  rw [Value.isTrue_relabel, ← apply_ite (Value.relabel σ)]
  exact follows_jump _

theorem follows_join : Follows σ id join join := by
  refine follows_top.bind fun entry => ?_
  cases entry with
  | call stack env control => exact follows_throw _
  | join control => exact follows_drop.bind fun _ => follows_jump control

theorem follows_part (op : Unary) {select : Store → Value → Except ValueError Value}
    (hselect : ∀ s v, select (s.relabel σ) (v.relabel σ) = (select s v).map (Value.relabel σ)) :
    Follows σ id (part op select) (part op select) := by
  refine follows_pop.bind fun v => ?_
  have hpart : Follows σ (Except.map (Value.relabel σ)) (read fun m => select m.store v)
      (read fun m => select m.store (v.relabel σ)) :=
    follows_read fun m => hselect m.store v
  refine hpart.bind fun r => ?_
  cases r with
  | error e => exact follows_throw _
  | ok v => exact follows_push v

theorem follows_unary (op : Unary) : Follows σ id (unary op) (unary op) := by
  cases op with
  | car => exact follows_part .car Store.head_relabel
  | cdr => exact follows_part .cdr Store.tail_relabel
  | atom =>
    refine follows_pop.bind fun v => ?_
    rw [Value.isPair_relabel]
    exact follows_push _

theorem follows_arithmetic (op : Arithmetic) : Follows σ id (arithmetic op) (arithmetic op) := by
  refine follows_popInt.bind fun b => follows_popInt.bind fun a => ?_
  dsimp only [id]
  split
  · exact follows_throw _
  · split
    · exact follows_push _
    · exact follows_throw _

theorem follows_binary (hσ : σ.Injective) (op : Binary) :
    Follows σ id (binary op) (binary op) := by
  cases op with
  | arithmetic op => exact follows_arithmetic op
  | eq =>
    refine follows_pop.bind fun a => follows_pop.bind fun b => ?_
    have hequal : Follows σ id (read fun m => m.store.equal a b)
        (read fun m => m.store.equal (a.relabel σ) (b.relabel σ)) :=
      follows_read fun m => m.store.equal_relabel hσ a b
    exact hequal.bind fun answer => follows_push (.truth answer)
  | leq =>
    refine follows_popInt.bind fun a => follows_popInt.bind fun b => ?_
    exact follows_push _
  | cons =>
    refine follows_pop.bind fun head => follows_pop.bind fun tail => ?_
    exact (follows_cons head tail).bind follows_push

theorem follows_stop : Follows σ (Flow.relabel σ) stop stop := by
  rintro ⟨s, S, E, C, D, limits, stats, calls⟩
  cases S <;> rfl

theorem follows_execute (hσ : σ.Injective) (op : Opcode) :
    Follows σ (Flow.relabel σ) (execute op) (execute op) := by
  have hproceed {x : Action Unit} (hx : Follows σ id x x) :
      Follows σ (Flow.relabel σ) (do x; pure .proceed) (do x; pure .proceed) :=
    hx.bind fun _ => follows_pure rfl
  cases op with
  | stop => exact follows_stop
  | ld => exact hproceed follows_ld
  | ldc => exact hproceed follows_ldc
  | ldf => exact hproceed follows_ldf
  | ap => exact hproceed follows_ap
  | rtn => exact hproceed follows_rtn
  | dum => exact hproceed follows_dum
  | rap => exact hproceed follows_rap
  | sel => exact hproceed follows_sel
  | join => exact hproceed follows_join
  | unary op => exact hproceed (follows_unary op)
  | binary op => exact hproceed (follows_binary hσ op)

theorem follows_checkLimit : Follows σ id checkLimit checkLimit := by
  intro m
  have hlimits : (m.relabel σ).limits = m.limits := rfl
  have hstats : (m.relabel σ).stats = m.stats := rfl
  rw [checkLimit, checkLimit, hlimits, hstats]
  split
  · split <;> rfl
  · rfl

theorem follows_decode : Follows σ id decode decode := by
  refine follows_fetch.bind fun v? => ?_
  cases v? with
  | none => exact follows_throw _
  | some v =>
    dsimp only [Option.map]
    rw [Value.ofValue?_relabel]
    split
    · exact follows_pure rfl
    · have htext : Follows σ id (read fun m => m.store.render v)
          (read fun m => m.store.render (v.relabel σ)) :=
        follows_read fun m => m.store.render_relabel v
      exact htext.bind fun text => follows_throw _

theorem follows_countDepth : Follows σ id countDepth countDepth := by
  rintro ⟨s, S, E, C, D, limits, stats, calls⟩
  simp only [Machine.relabel, countDepth, Array.size_map, id]

/-- A step does the same under other identities. -/
theorem follows_step (hσ : σ.Injective) :
    Follows σ (Flow.relabel σ) Machine.step Machine.step := by
  have hcount : Follows σ id countStep countStep := fun _ => rfl
  refine follows_checkLimit.bind fun _ => follows_decode.bind fun op => ?_
  refine hcount.bind fun _ => (follows_execute hσ op).bind fun flow => ?_
  exact follows_countDepth.bind fun _ => follows_pure rfl

end Action

/-- A machine that has just been loaded. -/
theorem Machine.load_relabel (s : Store) (limits : Limits) (code args env : Value) :
    ((idle s limits).load code args env).relabel σ =
      (idle (s.relabel σ) limits).load (code.relabel σ) (args.relabel σ) (env.relabel σ) := by
  simp [load, idle, relabel]

/-- A run ends in the same way under other identities, or it does not end there either. -/
theorem Machine.run_relabel (hσ : σ.Injective) (n : Nat) (m : Machine) :
    (m.relabel σ).run n = (m.run n).map fun result =>
      (result.1.relabel σ, result.2.relabel σ) := by
  induction n generalizing m with
  | zero => rfl
  | succ n ih =>
    have hstep := Action.follows_step hσ m
    rw [run, run]
    simp only [EStateM.run]
    rw [hstep]
    cases step m with
    | error f m' => rfl
    | ok flow m' =>
      cases flow with
      | proceed => exact ih m'
      | stop v => rfl

end Secd
