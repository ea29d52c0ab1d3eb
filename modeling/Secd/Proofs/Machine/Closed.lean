import Secd.Proofs.Machine.Transition
import Secd.Proofs.Store.Chain
import Secd.Proofs.Token.Printed

/-!
# Closed machines

A machine is closed if its store is closed and its registers hold values of the store. Every
transition leaves a closed machine closed, whatever the code is: what it pushes is an atom, a new
pair, or a value that it has read from the store.
-/

namespace Secd

namespace Primitive

/-- A truth value is an atom that can be read. -/
theorem exists_atom_of_truth (b : Bool) : ∃ a : Atom, a.Readable ∧ Value.truth b = .atom a := by
  cases b <;> exact ⟨_, by decide, rfl⟩

/-- A result that has to be a machine integer is an atom that can be read. -/
theorem exists_atom_of_intResult {p : Primitive} {n : Option Int64} {v : Value}
    (h : p.intResult n = .ok v) : ∃ a : Atom, a.Readable ∧ v = .atom a := by
  cases n with
  | none => cases h
  | some n => exact ⟨.int n, trivial, (Except.ok.inj h).symm⟩

/-- A sum is an atom that can be read. -/
theorem exists_atom_of_sumFrom {p : Primitive} {total : Int64} {args : List Value} {v : Value}
    (h : p.sumFrom total args = .ok v) : ∃ a : Atom, a.Readable ∧ v = .atom a := by
  induction args generalizing total with
  | nil => exact ⟨.int total, trivial, (Except.ok.inj h).symm⟩
  | cons arg args ih =>
    rw [sumFrom] at h
    cases hn : p.intArg arg with
    | error message => rw [hn] at h; cases h
    | ok n =>
      rw [hn] at h
      dsimp only [bind, Except.bind] at h
      split at h
      · exact ih h
      · exact exists_atom_of_intResult h

/-- A primitive that makes no list makes an atom that can be read. -/
theorem exists_atom_of_compute {p : Primitive} {s : Store} {args : List Value} {v : Value}
    (h : p.compute s args = .ok v) : ∃ a : Atom, a.Readable ∧ v = .atom a := by
  have hbind {x : Except String Int64} {f : Int64 → Except String Value}
      (hx : x.bind f = .ok v) : ∃ n, f n = .ok v := by
    cases x with
    | error message => cases hx
    | ok n => exact ⟨n, hx⟩
  unfold compute at h
  split at h
  · exact ⟨.int 0, trivial, (Except.ok.inj h).symm⟩
  · obtain ⟨n, hn⟩ := hbind h
    exact exists_atom_of_intResult hn
  · obtain ⟨n, hn⟩ := hbind h
    exact exists_atom_of_intResult hn
  · exact Except.ok.inj h ▸ exists_atom_of_truth _
  · split at h
    · exact ⟨.int _, trivial, (Except.ok.inj h).symm⟩
    · cases h
  · obtain ⟨m, hm⟩ := hbind h
    obtain ⟨n, hn⟩ := hbind hm
    exact ⟨.int _, trivial, (Except.ok.inj hn).symm⟩
  · obtain ⟨m, hm⟩ := hbind h
    obtain ⟨n, hn⟩ := hbind hm
    exact ⟨.int _, trivial, (Except.ok.inj hn).symm⟩
  · exact exists_atom_of_sumFrom h
  · cases h

end Primitive

namespace Store

variable {s : Store}

/-- A host callable only adds cells to the store. -/
theorem extends_call {c : Callable} {args : List Value} {result : Except String Value}
    {s' : Store} (hcall : c.call s args = (result, s')) : s.Extends s' := by
  rw [Callable.call] at hcall
  split at hcall
  · rw [Primitive.apply.eq_def] at hcall
    split at hcall
    · exact (Prod.mk.inj hcall).2 ▸ extends_dotted s args .nil
    · exact (Prod.mk.inj hcall).2 ▸ Extends.refl s
  · exact (Prod.mk.inj hcall).2 ▸ Extends.refl s

/-- A host callable leaves a closed store closed, and its result belongs to the store. -/
theorem Closed.call (hs : s.Closed) {c : Callable} {args : List Value} {v : Value} {s' : Store}
    (hargs : ∀ arg ∈ args, s.Contains arg) (hcall : c.call s args = (.ok v, s')) :
    s'.Closed ∧ s'.Contains v := by
  rw [Callable.call] at hcall
  split at hcall
  · rw [Primitive.apply.eq_def] at hcall
    split at hcall
    · obtain ⟨hv, rfl⟩ := Prod.mk.inj hcall
      obtain rfl := Except.ok.inj hv
      exact hs.dotted hargs (contains_atom s .nil)
    · obtain ⟨hv, rfl⟩ := Prod.mk.inj hcall
      obtain ⟨a, -, rfl⟩ := Primitive.exists_atom_of_compute hv
      exact ⟨hs, trivial⟩
  · cases hcall

/-- What a list of a closed store begins with and what comes after it belong to the store. -/
theorem Closed.contains_of_starts (hs : s.Closed) {v rest : Value} {items : List Value}
    (hv : s.Contains v) (h : s.Starts v items rest) :
    (∀ item ∈ items, s.Contains item) ∧ s.Contains rest := by
  induction items generalizing v with
  | nil =>
    obtain rfl := h
    exact ⟨by simp, hv⟩
  | cons item items ih =>
    obtain ⟨c, rfl, rfl, hrest⟩ := h
    obtain ⟨hhead, htail⟩ := hs.contains_parts hv
    obtain ⟨hitems, hend⟩ := ih htail hrest
    exact ⟨List.forall_mem_cons.2 ⟨hhead, hitems⟩, hend⟩

/-- The item of a list of a closed store belongs to the store. -/
theorem Closed.contains_of_nth (hs : s.Closed) {v item : Value} {index : Nat} (hv : s.Contains v)
    (h : s.nth v index = .ok item) : s.Contains item := by
  suffices hfrom : ∀ steps, s.nthFrom index steps v = .ok item → s.Contains item from
    hfrom index h
  clear h
  intro steps hsteps
  induction steps generalizing v with
  | zero =>
    cases v with
    | atom a => cases a <;> cases hsteps
    | pair c =>
      obtain rfl := Except.ok.inj hsteps
      exact (hs.contains_parts hv).1
  | succ steps ih =>
    cases v with
    | atom a => cases a <;> cases hsteps
    | pair c => exact ih (hs.contains_parts hv).2 hsteps

end Store

/-- What the entry holds belongs to the store. -/
def DumpEntry.Within (s : Store) : DumpEntry → Prop
  | .call stack env control => (∀ v ∈ stack, s.Contains v) ∧ s.Contains env ∧ s.Contains control
  | .join control => s.Contains control

/-- What an entry holds belongs to every store that is no smaller. -/
theorem DumpEntry.Within.of_size_le {s s' : Store} {entry : DumpEntry} (h : entry.Within s)
    (hsize : s.size ≤ s'.size) : entry.Within s' := by
  cases entry with
  | call stack env control =>
    exact ⟨fun v hv => (h.1 v hv).of_size_le hsize, h.2.1.of_size_le hsize,
      h.2.2.of_size_le hsize⟩
  | join control => exact Store.Contains.of_size_le h hsize

namespace Registers

/-- The store is closed, and the registers hold values of it. -/
structure Closed (r : Registers) : Prop where
  store : r.store.Closed
  stack : ∀ v ∈ r.stack, r.store.Contains v
  env : r.store.Contains r.env
  control : r.store.Contains r.control
  dump : ∀ entry ∈ r.dump, entry.Within r.store

variable {r r' : Registers}

/-- The operands of the next instruction and the rest of the control belong to the store. -/
theorem Closed.next (hr : r.Closed) {op : Opcode} {operands : List Value} {k : Value}
    (h : r.Next op operands k) : (∀ v ∈ operands, r.store.Contains v) ∧ r.store.Contains k := by
  obtain ⟨hitems, hrest⟩ := hr.store.contains_of_starts hr.control h
  exact ⟨fun v hv => hitems v (List.mem_cons_of_mem _ hv), hrest⟩

/-- Values on a closed stack belong to the store. -/
theorem Closed.of_stack (hr : r.Closed) {v : Value} {stack : List Value}
    (hstack : r.stack = v :: stack) :
    r.store.Contains v ∧ ∀ w ∈ stack, r.store.Contains w := by
  have hall := hr.stack
  rw [hstack] at hall
  exact List.forall_mem_cons.1 hall

/-- Closed registers stay closed if the result of an instruction is pushed. -/
theorem Closed.push (hr : r.Closed) {s : Store} {stack : List Value} {v k : Value}
    (hs : s.Closed) (hsize : r.store.size ≤ s.size) (hv : s.Contains v)
    (hstack : ∀ w ∈ stack, r.store.Contains w) (hk : r.store.Contains k) :
    Closed { r with store := s, stack := v :: stack, control := k } where
  store := hs
  stack := List.forall_mem_cons.2 ⟨hv, fun w hw => (hstack w hw).of_size_le hsize⟩
  env := hr.env.of_size_le hsize
  control := hk.of_size_le hsize
  dump entry hentry := (hr.dump entry hentry).of_size_le hsize

/-- Closed registers stay closed if a new pair is pushed. -/
theorem Closed.pushPair (hr : r.Closed) {stack : List Value} {a b k : Value}
    (ha : r.store.Contains a) (hb : r.store.Contains b)
    (hstack : ∀ w ∈ stack, r.store.Contains w) (hk : r.store.Contains k) :
    Closed { r with
      store := (r.store.cons a b).2, stack := .pair r.store.size :: stack, control := k } :=
  hr.push (hr.store.cons ha hb) (Store.extends_cons _ _ _).size_le
    (Store.contains_cons _ _ _) hstack hk

/-- Closed registers stay closed if a function is entered and the registers of its caller go to the
dump. -/
theorem Closed.call (hr : r.Closed) {s : Store} {stack : List Value}
    {env control callerEnv k : Value}
    (hs : s.Closed) (hsize : r.store.size ≤ s.size) (henv : s.Contains env)
    (hcontrol : s.Contains control) (hstack : ∀ w ∈ stack, r.store.Contains w)
    (hcaller : r.store.Contains callerEnv) (hk : r.store.Contains k) :
    Closed ⟨s, [], env, control, r.dump.push (.call stack callerEnv k)⟩ where
  store := hs
  stack := by simp
  env := henv
  control := hcontrol
  dump entry hentry := by
    rcases Array.mem_push.1 hentry with hentry | rfl
    · exact (hr.dump entry hentry).of_size_le hsize
    · exact DumpEntry.Within.of_size_le (s := r.store) ⟨hstack, hcaller, hk⟩ hsize

/-- Every transition leaves a closed machine closed. -/
theorem Closed.of_transition (hr : r.Closed) (h : Transition r (.proceed r')) : r'.Closed := by
  have hle : r.store.size ≤ r.store.size := Nat.le_refl _
  cases h with
  | ld hnext haddress hframe hready hslot =>
    have hframe := hr.store.contains_of_nth hr.env hframe
    have hv := hr.store.contains_of_nth hframe hslot
    exact hr.push hr.store hle hv hr.stack (hr.next hnext).2
  | ldc hnext =>
    obtain ⟨hoperands, hk⟩ := hr.next hnext
    exact hr.push hr.store hle (hoperands _ List.mem_cons_self) hr.stack hk
  | ldf hnext =>
    obtain ⟨hoperands, hk⟩ := hr.next hnext
    exact hr.pushPair (hoperands _ List.mem_cons_self) hr.env hr.stack hk
  | @apClosure f args k stack hnext hstack =>
    obtain ⟨hf, hrest⟩ := hr.of_stack hstack
    obtain ⟨hargs, hrest⟩ := List.forall_mem_cons.1 hrest
    obtain ⟨hhead, htail⟩ := hr.store.contains_parts hf
    have hsize := (Store.extends_cons r.store args (r.store.cell f).tail).size_le
    exact hr.call (hr.store.cons hargs htail) hsize (Store.contains_cons _ _ _)
      (hhead.of_size_le hsize) hrest hr.env (hr.next hnext).2
  | apHost hnext hstack hlist harity hcall =>
    obtain ⟨-, hrest⟩ := hr.of_stack hstack
    obtain ⟨hargs, hrest⟩ := List.forall_mem_cons.1 hrest
    have hitems : ∀ item ∈ _, r.store.Contains item :=
      fun item hitem => hr.store.contains_of_mem_toList hargs hlist hitem
    obtain ⟨hs, hv⟩ := hr.store.call hitems hcall
    exact hr.push hs (Store.extends_call hcall).size_le hv hrest (hr.next hnext).2
  | @rtn v env control k rest stack dump hnext hstack hdump =>
    obtain ⟨hv, -⟩ := hr.of_stack hstack
    have hall := hr.dump
    rw [hdump] at hall
    obtain ⟨hcaller, henv, hcontrol⟩ := hall _ Array.mem_push_self
    exact {
      store := hr.store
      stack := List.forall_mem_cons.2 ⟨hv, hcaller⟩
      env := henv
      control := hcontrol
      dump := fun entry hentry => hall entry (Array.mem_push_of_mem _ hentry) }
  | dum hnext =>
    have hsize := (Store.extends_cons r.store .pending r.env).size_le
    exact {
      store := hr.store.cons (Store.contains_atom _ _) hr.env
      stack := fun w hw => (hr.stack w hw).of_size_le hsize
      env := Store.contains_cons _ _ _
      control := (hr.next hnext).2.of_size_le hsize
      dump := fun entry hentry => (hr.dump entry hentry).of_size_le hsize }
  | @rap f c args k stack hnext hstack henv hpending hcaptured =>
    obtain ⟨hf, hrest⟩ := hr.of_stack hstack
    obtain ⟨hargs, hrest⟩ := List.forall_mem_cons.1 hrest
    have hc : r.store.Contains (.pair c) := henv ▸ hr.env
    have hsize := Nat.le_of_eq (r.store.size_setHead c args).symm
    exact hr.call (hr.store.setHead c hargs) hsize (hc.of_size_le hsize)
      ((hr.store.contains_parts hf).1.of_size_le hsize) hrest (hr.store.contains_parts hc).2
      (hr.next hnext).2
  | @sel test yes no k stack hnext hstack =>
    obtain ⟨hoperands, hk⟩ := hr.next hnext
    obtain ⟨hyes, hno⟩ := List.forall_mem_cons.1 hoperands
    refine ⟨hr.store, (hr.of_stack hstack).2, hr.env, ?_, ?_⟩
    · dsimp only
      split
      · exact hyes
      · exact hno _ List.mem_cons_self
    · intro entry hentry
      rcases Array.mem_push.1 hentry with hentry | rfl
      · exact hr.dump entry hentry
      · exact hk
  | join hnext hdump =>
    have hall := hr.dump
    rw [hdump] at hall
    exact {
      store := hr.store
      stack := hr.stack
      env := hr.env
      control := hall _ Array.mem_push_self
      dump := fun entry hentry => hall entry (Array.mem_push_of_mem _ hentry) }
  | car hnext hstack =>
    obtain ⟨hc, hrest⟩ := hr.of_stack hstack
    exact hr.push hr.store hle (hr.store.contains_parts hc).1 hrest (hr.next hnext).2
  | cdr hnext hstack =>
    obtain ⟨hc, hrest⟩ := hr.of_stack hstack
    exact hr.push hr.store hle (hr.store.contains_parts hc).2 hrest (hr.next hnext).2
  | atom hnext hstack =>
    exact hr.push hr.store hle trivial (hr.of_stack hstack).2 (hr.next hnext).2
  | arithmetic hnext hstack _ _ =>
    obtain ⟨-, hrest⟩ := hr.of_stack hstack
    exact hr.push hr.store hle trivial (List.forall_mem_cons.1 hrest).2 (hr.next hnext).2
  | eq hnext hstack =>
    obtain ⟨-, hrest⟩ := hr.of_stack hstack
    exact hr.push hr.store hle trivial (List.forall_mem_cons.1 hrest).2 (hr.next hnext).2
  | leq hnext hstack =>
    obtain ⟨-, hrest⟩ := hr.of_stack hstack
    exact hr.push hr.store hle trivial (List.forall_mem_cons.1 hrest).2 (hr.next hnext).2
  | cons hnext hstack =>
    obtain ⟨ha, hrest⟩ := hr.of_stack hstack
    obtain ⟨hb, hrest⟩ := List.forall_mem_cons.1 hrest
    exact hr.pushPair ha hb hrest (hr.next hnext).2

end Registers

end Secd
