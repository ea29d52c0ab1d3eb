import Secd.Proofs.Machine.Trajectory

/-!
# The books of a machine

Besides the store and the registers that its instructions work on, a machine keeps *books*: the
dump, the limits of the run, and what is counted. Most instructions neither look at the books nor
change them. The others deal with the dump in one of two ways: they save an entry, if there is room
for it, or they take the top entry. This file says so for every instruction, and for all limits at
once.
-/

namespace Secd

/-- The fault says that a limit of the run has been reached. -/
def Fault.IsLimit : Fault → Prop
  | .stepLimit _ | .dumpOverflow => True
  | _ => False

/-- The instruction takes an entry from the dump. -/
def Opcode.takes : Opcode → Bool
  | .rtn | .join => true
  | _ => false

/-- How many calls the entry stands for. -/
def DumpEntry.calls (entry : DumpEntry) : Nat := if entry.isCall then 1 else 0

/-- What a machine keeps besides its store and the registers that instructions work on. -/
structure Books where
  dump : Array DumpEntry
  limits : Limits
  stats : Stats
  pendingCalls : Nat

/-- One more entry is on the dump. -/
def Books.save (b : Books) (entry : DumpEntry) : Books :=
  { b with dump := b.dump.push entry, pendingCalls := b.pendingCalls + entry.calls }

/-- The top entry has been taken from the dump, and the others are left. -/
def Books.take (b : Books) (entry : DumpEntry) (rest : Array DumpEntry) : Books :=
  { b with dump := rest, pendingCalls := b.pendingCalls - entry.calls }

namespace Machine

/-- The books of a machine. -/
def books (m : Machine) : Books := ⟨m.dump, m.limits, m.stats, m.pendingCalls⟩

/-- The machine with other books. -/
def withBooks (m : Machine) (b : Books) : Machine :=
  ⟨m.store, m.stack, m.env, m.control, b.dump, b.limits, b.stats, b.pendingCalls⟩

/-- The machine with other limits. -/
def withLimits (m : Machine) (limits : Limits) : Machine := { m with limits }

/-- A machine that is given books other than in the limits is given these limits. -/
theorem withBooks_eq_withLimits {m : Machine} {b : Books} (hbooks : m.books = b)
    (limits : Limits) : m.withBooks { b with limits } = m.withLimits limits := by
  subst hbooks
  rfl

end Machine

namespace Action

open Machine

variable {α β : Type}

/-- The machine that an action leaves, with or without a fault. -/
def left : EStateM.Result Fault Machine α → Machine
  | .ok _ m => m
  | .error _ m => m

/-- The same result with another machine left. -/
def leaving (g : Machine → Machine) :
    EStateM.Result Fault Machine α → EStateM.Result Fault Machine α
  | .ok a m => .ok a (g m)
  | .error f m => .error f (g m)

/-! ### Actions that have nothing to do with the books -/

/-- The action neither looks at the books nor changes them, and does not fault because of a limit.
-/
structure Detached (x : Action α) : Prop where
  commutes (m : Machine) (b : Books) : x (m.withBooks b) = leaving (withBooks · b) (x m)
  unlimited {m m' : Machine} {f : Fault} (h : x m = .error f m') : ¬ f.IsLimit

/-- An action that does the same whatever the books are leaves them as they are. -/
theorem books_left_of_commutes {x : Action α} {m : Machine}
    (hx : ∀ b, x (m.withBooks b) = leaving (withBooks · b) (x m)) :
    (left (x m)).books = m.books := by
  have hself : x m = leaving (withBooks · m.books) (x m) := hx m.books
  rw [hself]
  cases x m <;> rfl

/-- An action that does the same whatever the books are does the same under other limits. -/
theorem withLimits_of_commutes {x : Action α} {m : Machine}
    (hx : ∀ b, x (m.withBooks b) = leaving (withBooks · b) (x m)) (limits : Limits) :
    x (m.withLimits limits) = leaving (withLimits · limits) (x m) := by
  have hbooks := books_left_of_commutes hx
  have hother := hx { m.books with limits }
  rw [withBooks_eq_withLimits rfl] at hother
  rw [hother]
  cases hresult : x m with
  | ok a m' =>
    rw [hresult] at hbooks
    exact congrArg (EStateM.Result.ok a) (withBooks_eq_withLimits hbooks limits)
  | error f m' =>
    rw [hresult] at hbooks
    exact congrArg (EStateM.Result.error f) (withBooks_eq_withLimits hbooks limits)

/-- Detached actions one after the other are detached. -/
theorem Detached.bind {x : Action α} {f : α → Action β} (hx : Detached x)
    (hf : ∀ a, Detached (f a)) : Detached (x >>= f) where
  commutes m b := by
    rw [bind_apply, bind_apply, hx.commutes m b]
    cases x m with
    | ok a m' => exact (hf a).commutes m' b
    | error e m' => rfl
  unlimited {m m' e} h := by
    rw [bind_apply] at h
    cases hresult : x m with
    | ok a m₁ =>
      rw [hresult] at h
      exact (hf a).unlimited h
    | error e' m₁ =>
      rw [hresult] at h
      cases h
      exact hx.unlimited hresult

/-- An action that cannot fault is detached if it keeps to the store and the registers. -/
theorem detached_of_ok {x : Action α} {value : Machine → α} {g : Machine → Machine}
    (hx : ∀ m, x m = .ok (value m) (g m))
    (hvalue : ∀ (m : Machine) (b : Books), value (m.withBooks b) = value m)
    (hg : ∀ (m : Machine) (b : Books), g (m.withBooks b) = (g m).withBooks b) : Detached x where
  commutes m b := by
    rw [hx, hx, hvalue, hg]
    rfl
  unlimited {m m' f} h := by
    rw [hx] at h
    cases h

/-- A known value does not depend on the books. -/
theorem detached_pure (a : α) : Detached (pure a) :=
  detached_of_ok (fun _ => rfl) (fun _ _ => rfl) fun _ _ => rfl

/-- A fault that is not about a limit has nothing to do with the books. -/
theorem detached_throw {f : Fault} (hf : ¬ f.IsLimit) : Detached (throw f : Action α) where
  commutes _ _ := rfl
  unlimited h := by
    cases h
    exact hf

/-- A value computed from the store and the registers does not depend on the books. -/
theorem detached_read {f : Machine → α}
    (hf : ∀ (m : Machine) (b : Books), f (m.withBooks b) = f m) : Detached (read f) :=
  detached_of_ok (fun _ => rfl) hf fun _ _ => rfl

/-- Work on the store has nothing to do with the books. -/
theorem detached_withStore (f : Store → α × Store) : Detached (withStore f) :=
  detached_of_ok (fun _ => rfl) (fun _ _ => rfl) fun _ _ => rfl

/-! ### Registers -/

/-- The control is apart from the books. -/
theorem detached_fetch : Detached fetch where
  commutes m b := by
    obtain ⟨s, S, E, C, D, limits, stats, calls⟩ := m
    cases C <;> rfl
  unlimited {m m' f} h := by
    unfold fetch at h
    split at h <;> cases h

/-- So are the operands. -/
theorem detached_operand (op : Opcode) : Detached (operand op) := by
  refine detached_fetch.bind fun v? => ?_
  cases v? with
  | some v => exact detached_pure v
  | none => exact detached_throw id

/-- Finding the next instruction reads the control. -/
theorem detached_decode : Detached decode := by
  refine detached_fetch.bind fun v? => ?_
  cases v? with
  | none => exact detached_throw id
  | some v =>
    dsimp only
    cases Opcode.ofValue? v with
    | some op => exact detached_pure op
    | none => exact (detached_read fun _ _ => rfl).bind fun text => detached_throw id

/-- The stack is apart from the books. -/
theorem detached_push (v : Value) : Detached (push v) :=
  detached_of_ok (fun _ => rfl) (fun _ _ => rfl) fun _ _ => rfl

/-- Values may be taken from it. -/
theorem detached_pop : Detached pop where
  commutes m b := by
    obtain ⟨s, S, E, C, D, limits, stats, calls⟩ := m
    cases S <;> rfl
  unlimited {m m' f} h := by
    unfold pop at h
    split at h
    · cases h
    · cases h
      exact id

/-- Integers may be taken from it. -/
theorem detached_popInt : Detached popInt := by
  refine detached_pop.bind fun v => ?_
  cases v.asInt with
  | ok n => exact detached_pure n
  | error e => exact detached_throw id

/-- Jumping leaves the books alone. -/
theorem detached_jump (control : Value) : Detached (jump control) :=
  detached_of_ok (fun _ => rfl) (fun _ _ => rfl) fun _ _ => rfl

/-- Entering an environment leaves the books alone. -/
theorem detached_enter (env : Value) : Detached (enter env) :=
  detached_of_ok (fun _ => rfl) (fun _ _ => rfl) fun _ _ => rfl

/-- The environment is apart from the books. -/
theorem detached_env : Detached (read Machine.env) := detached_read fun _ _ => rfl

/-- A new pair leaves the books alone. -/
theorem detached_cons (head tail : Value) : Detached (cons head tail) := detached_withStore _

/-- Emptying the stack and the control leaves the books alone. -/
theorem detached_release : Detached release :=
  detached_of_ok (fun _ => rfl) (fun _ _ => rfl) fun _ _ => rfl

/-! ### Instructions that have nothing to do with the books -/

/-- `LD` reads the environment. -/
theorem detached_ld : Detached ld := by
  refine (detached_operand .ld).bind fun operand => ?_
  refine (detached_read fun _ _ => rfl).bind fun a? => ?_
  cases a? with
  | error e => exact detached_throw id
  | ok a =>
    refine (detached_read fun _ _ => rfl).bind fun frame? => ?_
    cases frame? with
    | error e => exact detached_throw id
    | ok frame =>
      dsimp only
      split
      · exact detached_throw id
      · refine (detached_read fun _ _ => rfl).bind fun v? => ?_
        cases v? with
        | error e => exact detached_throw id
        | ok v => exact detached_push v

/-- `LDC` reads the control. -/
theorem detached_ldc : Detached ldc := (detached_operand .ldc).bind detached_push

/-- `LDF` makes a pair. -/
theorem detached_ldf : Detached ldf := by
  refine (detached_operand .ldf).bind fun body => ?_
  refine detached_env.bind fun env => ?_
  exact (detached_cons body env).bind detached_push

/-- A closure is taken apart in the store. -/
theorem detached_closure (f : Value) : Detached (closure f) := by
  cases f with
  | pair c => exact detached_read fun _ _ => rfl
  | atom a => exact detached_throw id

/-- Host callables work on the store. -/
theorem detached_callHost (c : Callable) (args : Value) : Detached (callHost c args) := by
  refine (detached_read fun _ _ => rfl).bind fun args? => ?_
  cases args? with
  | error e => exact detached_throw id
  | ok args =>
    dsimp only
    split
    · refine (detached_withStore _).bind fun result => ?_
      cases result with
      | ok v => exact detached_push v
      | error message => exact detached_throw id
    · exact detached_throw id

/-- `DUM` makes a frame. -/
theorem detached_dum : Detached dum := by
  refine detached_env.bind fun env => ?_
  exact (detached_cons .pending env).bind detached_enter

/-- Taking a part of a pair reads the store. -/
theorem detached_part (op : Unary) (select : Store → Value → Except ValueError Value) :
    Detached (part op select) := by
  refine detached_pop.bind fun v => ?_
  refine (detached_read fun _ _ => rfl).bind fun part? => ?_
  cases part? with
  | ok v => exact detached_push v
  | error e => exact detached_throw id

/-- The operations with one operand work on the stack. -/
theorem detached_unary (op : Unary) : Detached (unary op) := by
  cases op with
  | car => exact detached_part .car Store.head
  | cdr => exact detached_part .cdr Store.tail
  | atom => exact detached_pop.bind fun v => detached_push _

/-- The operations on integers work on the stack. -/
theorem detached_arithmetic (op : Arithmetic) : Detached (arithmetic op) := by
  refine detached_popInt.bind fun b => ?_
  refine detached_popInt.bind fun a => ?_
  split
  · exact detached_throw id
  · split
    · exact detached_push _
    · exact detached_throw id

/-- So do the other operations. -/
theorem detached_binary (op : Binary) : Detached (binary op) := by
  cases op with
  | arithmetic op => exact detached_arithmetic op
  | eq =>
    refine detached_pop.bind fun a => ?_
    refine detached_pop.bind fun b => ?_
    exact (detached_read fun _ _ => rfl).bind fun equal => detached_push _
  | leq => exact detached_popInt.bind fun a => detached_popInt.bind fun b => detached_push _
  | cons =>
    refine detached_pop.bind fun head => ?_
    refine detached_pop.bind fun tail => ?_
    exact (detached_cons head tail).bind detached_push

/-- `STOP` looks at the stack. -/
theorem detached_stop : Detached stop where
  commutes m b := by
    obtain ⟨s, S, E, C, D, limits, stats, calls⟩ := m
    cases S <;> rfl
  unlimited {m m' f} h := by
    unfold stop at h
    split at h
    · cases h
    · cases h
      exact id

/-! ### Saving an entry -/

/-- What an action that does not look at the books does to them, whatever they are: nothing, unless
it saves an entry, for which there has to be room. -/
inductive Posts (x : Action α) (m : Machine) : Prop where
  | keeps (hfault : ∀ f m', x m = .error f m' → ¬ f.IsLimit)
      (hx : ∀ b, x (m.withBooks b) = leaving (withBooks · b) (x m))
  | saves (entry : DumpEntry) (a : α) (full room : Machine)
      (hx : ∀ b, x (m.withBooks b) =
        if b.limits.maxDump ≤ b.dump.size then .error .dumpOverflow (full.withBooks b)
        else .ok a (room.withBooks (b.save entry)))

/-- A detached action keeps the books. -/
theorem Detached.posts {x : Action α} (hx : Detached x) (m : Machine) : Posts x m :=
  .keeps (fun _ _ h => hx.unlimited h) (hx.commutes m)

/-- After a detached action, the next one may save an entry. -/
theorem Detached.bind_posts {x : Action α} {f : α → Action β} (hx : Detached x)
    (hf : ∀ a m, Posts (f a) m) (m : Machine) : Posts (x >>= f) m := by
  have hfirst := hx.commutes m
  cases hresult : x m with
  | error e m₁ =>
    rw [hresult] at hfirst
    have hbind : (x >>= f) m = .error e m₁ := by rw [bind_apply, hresult]
    refine .keeps ?_ fun b => ?_
    · intro e' m' h
      rw [hbind] at h
      cases h
      exact hx.unlimited hresult
    · rw [hbind, bind_apply, hfirst b]
      rfl
  | ok a m₁ =>
    rw [hresult] at hfirst
    have hbind : (x >>= f) m = f a m₁ := by rw [bind_apply, hresult]
    have hunder (b : Books) : (x >>= f) (m.withBooks b) = f a (m₁.withBooks b) := by
      rw [bind_apply, hfirst b]
      rfl
    cases hf a m₁ with
    | keeps hfault hx =>
      refine .keeps (by rw [hbind]; exact hfault) fun b => ?_
      rw [hunder, hbind, hx]
    | saves entry a full room hx =>
      refine .saves entry a full room fun b => ?_
      rw [hunder, hx]

/-- A known value does not matter after an action. -/
theorem Posts.bind_pure {x : Action α} {m : Machine} (h : Posts x m) (a : β) :
    Posts (x >>= fun _ => pure a) m := by
  cases h with
  | keeps hfault hx =>
    refine .keeps ?_ fun b => ?_
    · intro f m' h
      rw [bind_apply] at h
      cases hresult : x m with
      | ok a m₁ =>
        rw [hresult] at h
        cases h
      | error e m₁ =>
        rw [hresult] at h
        cases h
        exact hfault _ _ hresult
    · rw [bind_apply, bind_apply, hx]
      cases x m <;> rfl
  | saves entry _ full room hx =>
    refine .saves entry a full room fun b => ?_
    rw [bind_apply, hx]
    by_cases hlow : b.limits.maxDump ≤ b.dump.size
    · rw [if_pos hlow, if_pos hlow]
    · rw [if_neg hlow, if_neg hlow]
      rfl

/-- An entry is saved, and what comes after it cannot fault: it works on the registers, and notes
the call if the entry belongs to one. -/
theorem posts_save {entry : DumpEntry} {rest : Action Unit} {g : Machine → Machine}
    (hrest : ∀ m, rest m = .ok () (g m))
    (hg : ∀ (m : Machine) (b : Books), g (m.withBooks b) =
      (g m).withBooks { b with pendingCalls := b.pendingCalls + entry.calls })
    (m : Machine) : Posts (do save entry; rest) m := by
  refine .saves entry () m (g m) fun b => ?_
  rw [bind_apply]
  by_cases hlow : b.limits.maxDump ≤ b.dump.size
  · rw [save_of_full (m := m.withBooks b) entry hlow, if_pos hlow]
  · rw [save_of_room (m := m.withBooks b) entry hlow, if_neg hlow]
    refine (hrest _).trans ?_
    exact congrArg (EStateM.Result.ok ()) (hg m { b with dump := b.dump.push entry })

/-- `AP` saves the registers of the caller, or applies a host callable. -/
theorem posts_ap (m : Machine) : Posts ap m := by
  refine detached_pop.bind_posts (fun f => ?_) m
  refine detached_pop.bind_posts fun args => ?_
  have hcall (m : Machine) : Posts (do
      let parts ← closure f
      let env ← read Machine.env
      let held ← release
      enter .nil
      save (.call held.1 env held.2)
      enter (← cons args parts.tail)
      jump parts.head
      openCall) m := by
    refine (detached_closure f).bind_posts (fun parts => ?_) m
    refine detached_env.bind_posts fun env => ?_
    refine detached_release.bind_posts fun held => ?_
    refine (detached_enter .nil).bind_posts fun _ => ?_
    exact posts_save (g := fun m =>
      { m with
        store := (m.store.cons args parts.tail).2
        env := .pair m.store.size
        control := parts.head
        pendingCalls := m.pendingCalls + 1 })
      (fun _ => rfl) fun _ _ => rfl
  intro m
  cases f with
  | pair c => exact hcall m
  | atom a =>
    cases a with
    | callable c => exact (detached_callHost c args).posts m
    | _ => exact hcall m

/-- `RAP` saves the registers of the caller. -/
theorem posts_rap (m : Machine) : Posts rap m := by
  refine detached_pop.bind_posts (fun f => ?_) m
  refine detached_pop.bind_posts fun args => ?_
  refine (detached_closure f).bind_posts fun parts => ?_
  refine detached_env.bind_posts fun env => ?_
  refine (detached_read fun _ _ => rfl).bind_posts fun c? => ?_
  cases c? with
  | none => exact (detached_throw id).posts
  | some c =>
    refine (detached_withStore _).bind_posts fun _ => ?_
    refine (detached_read fun _ _ => rfl).bind_posts fun outer => ?_
    refine detached_release.bind_posts fun held => ?_
    exact posts_save (g := fun m =>
      { m with
        env := parts.tail
        control := parts.head
        pendingCalls := m.pendingCalls + 1 })
      (fun _ => rfl) fun _ _ => rfl

/-- `SEL` saves the code after it. -/
theorem posts_sel (m : Machine) : Posts sel m := by
  refine (detached_operand .sel).bind_posts (fun yes => ?_) m
  refine (detached_operand .sel).bind_posts fun no => ?_
  refine detached_pop.bind_posts fun test => ?_
  refine (detached_read fun _ _ => rfl).bind_posts fun rest => ?_
  refine (detached_jump .nil).bind_posts fun _ => ?_
  exact posts_save (g := fun m => { m with control := if test.isTrue then yes else no })
    (fun _ => rfl) fun _ _ => rfl

/-- The instructions that take no entry from the dump do not look at it. -/
theorem posts_execute {op : Opcode} (hop : op.takes = false) (m : Machine) :
    Posts (execute op) m := by
  cases op with
  | stop => exact detached_stop.posts m
  | ld => exact (detached_ld.posts m).bind_pure _
  | ldc => exact (detached_ldc.posts m).bind_pure _
  | ldf => exact (detached_ldf.posts m).bind_pure _
  | ap => exact (posts_ap m).bind_pure _
  | rtn => cases hop
  | dum => exact (detached_dum.posts m).bind_pure _
  | rap => exact (posts_rap m).bind_pure _
  | sel => exact (posts_sel m).bind_pure _
  | join => cases hop
  | unary op => exact ((detached_unary op).posts m).bind_pure _
  | binary op => exact ((detached_binary op).posts m).bind_pure _

/-! ### Taking an entry -/

section

variable (s : Store) (stack : List Value) (env control : Value) (dump : Array DumpEntry)
  (limits : Limits) (stats : Stats) (calls : Nat)

/-- `RTN` needs a result. -/
theorem execute_rtn_nil :
    execute .rtn ⟨s, [], env, control, dump, limits, stats, calls⟩ =
      .error .stackUnderflow ⟨s, [], env, control, dump, limits, stats, calls⟩ := rfl

/-- `RTN` needs an entry. -/
theorem execute_rtn_empty (v : Value) :
    execute .rtn ⟨s, v :: stack, env, control, #[], limits, stats, calls⟩ =
      .error .dumpUnderflow ⟨s, stack, env, control, #[], limits, stats, calls⟩ := rfl

/-- `RTN` does not take the entry of a conditional. -/
theorem execute_rtn_join (v after : Value) :
    execute .rtn ⟨s, v :: stack, env, control, dump.push (.join after), limits, stats, calls⟩ =
      .error .returnFromBranch
        ⟨s, stack, env, control, dump.push (.join after), limits, stats, calls⟩ := by
  simp [execute, rtn]

/-- `RTN` takes the entry of a call. -/
theorem execute_rtn_call (v : Value) (caller : List Value) (home after : Value) :
    execute .rtn
        ⟨s, v :: stack, env, control, dump.push (.call caller home after), limits, stats, calls⟩ =
      .ok .proceed ⟨s, v :: caller, home, after, dump, limits, stats, calls - 1⟩ := by
  simp [execute, rtn, restore, closeCall]

/-- `JOIN` needs an entry. -/
theorem execute_join_empty :
    execute .join ⟨s, stack, env, control, #[], limits, stats, calls⟩ =
      .error .dumpUnderflow ⟨s, stack, env, control, #[], limits, stats, calls⟩ := rfl

/-- `JOIN` does not take the entry of a call. -/
theorem execute_join_call (caller : List Value) (home after : Value) :
    execute .join
        ⟨s, stack, env, control, dump.push (.call caller home after), limits, stats, calls⟩ =
      .error .joinFromCall
        ⟨s, stack, env, control, dump.push (.call caller home after), limits, stats, calls⟩ := by
  simp [execute, join]

/-- `JOIN` takes the entry of a conditional. -/
theorem execute_join_join (after : Value) :
    execute .join ⟨s, stack, env, control, dump.push (.join after), limits, stats, calls⟩ =
      .ok .proceed ⟨s, stack, env, after, dump, limits, stats, calls⟩ := by
  simp [execute, join]

end

/-! ### Dealing with the dump -/

/-- What an action does to the books of a machine, under whatever limits: nothing, unless it saves
an entry, for which there has to be room, or takes one. If it does not succeed, the books are as
before. -/
inductive Deals (x : Action α) (m : Machine) : Prop where
  | keeps (hbooks : (left (x m)).books = m.books)
      (hfault : ∀ f m', x m = .error f m' → ¬ f.IsLimit)
      (hx : ∀ limits, x (m.withLimits limits) = leaving (Machine.withLimits · limits) (x m))
  | saves (entry : DumpEntry) (a : α) (full room : Machine) (hfull : full.books = m.books)
      (hroom : room.books = m.books.save entry)
      (hx : ∀ limits, x (m.withLimits limits) =
        if limits.maxDump ≤ m.dump.size then .error .dumpOverflow (full.withLimits limits)
        else .ok a (room.withLimits limits))
  | takes (entry : DumpEntry) (rest : Array DumpEntry) (a : α) (m' : Machine)
      (hdump : m.dump = rest.push entry) (hbooks : m'.books = m.books.take entry rest)
      (hx : ∀ limits, x (m.withLimits limits) = .ok a (m'.withLimits limits))

/-- What holds whatever the books are holds under whatever limits. -/
theorem Posts.deals {x : Action α} {m : Machine} (h : Posts x m) : Deals x m := by
  cases h with
  | keeps hfault hx =>
    exact .keeps (books_left_of_commutes hx) hfault (withLimits_of_commutes hx)
  | saves entry a full room hx =>
    exact .saves entry a (full.withBooks m.books) (room.withBooks (m.books.save entry)) rfl rfl
      fun limits => hx { m.books with limits }

/-- A fault that an action has whatever the limits are, and that is not about them. -/
theorem deals_of_error {x : Action α} {m : Machine} (m' : Machine) {f : Fault}
    (hf : ¬ f.IsLimit) (hbooks : m'.books = m.books)
    (hx : ∀ limits, x (m.withLimits limits) = .error f (m'.withLimits limits)) : Deals x m := by
  have hself : x m = .error f (m'.withLimits m.limits) := hx m.limits
  refine .keeps (by rw [hself]; exact congrArg (fun b => { b with limits := m.limits }) hbooks) ?_
    fun limits => ?_
  · intro f' m₁ h
    cases hself.symm.trans h
    exact hf
  · rw [hself]
    exact hx limits

/-- `RTN` takes the registers of a caller. -/
theorem deals_rtn (m : Machine) : Deals (execute .rtn) m := by
  obtain ⟨s, S, E, C, D, limits, stats, calls⟩ := m
  cases S with
  | nil =>
    exact deals_of_error ⟨s, [], E, C, D, limits, stats, calls⟩ id rfl
      fun limits => execute_rtn_nil s E C D limits stats calls
  | cons v S =>
    by_cases hempty : D.size = 0
    · obtain rfl := Array.size_eq_zero_iff.1 hempty
      exact deals_of_error ⟨s, S, E, C, #[], limits, stats, calls⟩ id rfl
        fun limits => execute_rtn_empty s S E C limits stats calls v
    · obtain ⟨rest, entry, rfl⟩ := Array.eq_push_of_size_ne_zero hempty
      cases entry with
      | join after =>
        exact deals_of_error ⟨s, S, E, C, rest.push (.join after), limits, stats, calls⟩ id rfl
          fun limits => execute_rtn_join s S E C rest limits stats calls v after
      | call caller home after =>
        exact .takes _ rest _ ⟨s, v :: caller, home, after, rest, limits, stats, calls - 1⟩ rfl rfl
          fun limits => execute_rtn_call s S E C rest limits stats calls v caller home after

/-- `JOIN` takes the code after a conditional. -/
theorem deals_join (m : Machine) : Deals (execute .join) m := by
  obtain ⟨s, S, E, C, D, limits, stats, calls⟩ := m
  by_cases hempty : D.size = 0
  · obtain rfl := Array.size_eq_zero_iff.1 hempty
    exact deals_of_error ⟨s, S, E, C, #[], limits, stats, calls⟩ id rfl
      fun limits => execute_join_empty s S E C limits stats calls
  · obtain ⟨rest, entry, rfl⟩ := Array.eq_push_of_size_ne_zero hempty
    cases entry with
    | call caller home after =>
      exact deals_of_error
        ⟨s, S, E, C, rest.push (.call caller home after), limits, stats, calls⟩ id rfl
        fun limits => execute_join_call s S E C rest limits stats calls caller home after
    | join after =>
      exact .takes _ rest _ ⟨s, S, E, after, rest, limits, stats, calls⟩ rfl rfl
        fun limits => execute_join_join s S E C rest limits stats calls after

/-- Every instruction deals with the dump in one of these ways. -/
theorem deals_execute (op : Opcode) (m : Machine) : Deals (execute op) m := by
  cases hop : op.takes with
  | false => exact (posts_execute hop m).deals
  | true =>
    cases op with
    | rtn => exact deals_rtn m
    | join => exact deals_join m
    | _ => cases hop

end Action

end Secd
