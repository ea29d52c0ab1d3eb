import Secd.Proofs.Machine.Mutation
import Secd.Proofs.Machine.Safety

/-!
# Clean machines

`DUM` puts the placeholder into the head of a new cell of the environment, and `RAP` replaces it. In
between the cell is *pending*. A machine is *clean* if the placeholder is nowhere but in the heads
of pending cells: every other value in a new cell or in a register is that of a tree of proper atoms
which has been there from the start, or a new cell.

`LD` does not look into a pending frame, and neither a frame nor the list of arguments that `AP`
hands to a callable runs through a pending cell. The closure that is applied is not pending either,
or else the placeholder would be its code. So the only instruction that may take the placeholder out
of a pending cell is `CAR`.
-/

namespace Secd

/-! ### Values without the placeholder -/

namespace Store

/-- The value is that of a tree which the store holds fast, or a cell that is new. -/
def Yields (base : Store) (v : Value) : Prop :=
  (∃ e, base.HoldsFast e ∧ v = e.value) ∨ ∃ c, base.size ≤ c ∧ v = .pair c

/-- The new cells of `s` hold values that `base` yields, and the placeholder only in the heads of
pending cells. -/
structure Clean (base s : Store) (pending : List Nat) : Prop where
  head : ∀ c, base.size ≤ c → c ∉ pending → base.Yields (s.cell c).head
  tail : ∀ c, base.size ≤ c → base.Yields (s.cell c).tail

variable {base s : Store} {pending pending' : List Nat}

/-- Proper atoms are yielded by every store. -/
theorem yields_atom {a : Atom} (ha : a.Proper) : base.Yields (.atom a) :=
  .inl ⟨.atom a, ⟨trivial, ha⟩, rfl⟩

/-- Truth values are yielded by every store. -/
theorem yields_truth (b : Bool) : base.Yields (.truth b) := by
  obtain ⟨a, ha, heq⟩ := Primitive.exists_atom_of_truth b
  exact heq ▸ yields_atom ha.proper

/-- A store does not yield the placeholder. -/
theorem Yields.ne_pending {v : Value} (hv : base.Yields v) : v ≠ .pending := by
  rcases hv with ⟨e, he, rfl⟩ | ⟨c, -, rfl⟩
  · exact Sexp.value_ne_pending he.proper
  · exact fun h => by cases h

/-- The parts of a pair are yielded like the pair, unless the pair is pending. -/
theorem Clean.parts (h : base.Clean s pending) (hs : base.Extends s) {c : Nat}
    (hc : base.Yields (.pair c)) :
    (c ∉ pending → base.Yields (s.cell c).head) ∧ base.Yields (s.cell c).tail := by
  rcases hc with ⟨e, he, heq⟩ | ⟨d, hd, heq⟩
  · cases e with
    | atom a => cases heq
    | pair d head tail =>
      obtain rfl := Value.pair.inj heq
      obtain ⟨hhead, htail⟩ := he.parts
      rw [(he.held.extends hs).2.1]
      exact ⟨fun _ => .inl ⟨head, hhead, rfl⟩, .inl ⟨tail, htail, rfl⟩⟩
  · obtain rfl := Value.pair.inj heq
    exact ⟨h.head c hd, h.tail c hd⟩

/-- The items of a chain that avoids the pending cells are yielded like the chain. -/
theorem Clean.items (h : base.Clean s pending) (hs : base.Extends s) {v : Value} {cells : List Nat}
    {ending : Atom} (hv : base.Yields v) (hchain : s.Chain v cells ending)
    (havoid : ∀ c ∈ cells, c ∉ pending) : ∀ c ∈ cells, base.Yields (s.cell c).head := by
  induction cells generalizing v with
  | nil => exact List.forall_mem_nil _
  | cons c cells ih =>
    obtain ⟨rfl, -, htail⟩ := hchain
    obtain ⟨hc, havoid⟩ := List.forall_mem_cons.1 havoid
    obtain ⟨hparts, hyields⟩ := h.parts hs hv
    exact List.forall_mem_cons.2 ⟨hparts hc, ih hyields htail havoid⟩

/-- A frame of the environment is the head of a cell that is yielded like the environment. -/
theorem Clean.exists_of_nth (h : base.Clean s pending) (hs : base.Extends s) {env frame : Value}
    {index : Nat} (henv : base.Yields env) (hframe : s.nth env index = .ok frame) :
    ∃ c, base.Yields (.pair c) ∧ frame = (s.cell c).head := by
  suffices hfrom : ∀ steps, s.nthFrom index steps env = .ok frame →
      ∃ c, base.Yields (.pair c) ∧ frame = (s.cell c).head from hfrom index hframe
  clear hframe
  intro steps hsteps
  induction steps generalizing env with
  | zero =>
    cases env with
    | pair c => exact ⟨c, henv, (Except.ok.inj hsteps).symm⟩
    | atom a => cases a <;> cases hsteps
  | succ steps ih =>
    cases env with
    | pair c => exact ih (h.parts hs henv).2 hsteps
    | atom a => cases a <;> cases hsteps

/-- What a held list begins with and what comes after it are yielded. -/
theorem HoldsFast.yields_of_starts {e : Sexp} (he : base.HoldsFast e) (hs : base.Extends s)
    {items : List Value} {rest : Value} (h : s.Starts e.value items rest) :
    (∀ v ∈ items, base.Yields v) ∧ base.Yields rest := by
  induction items generalizing e with
  | nil =>
    obtain rfl := h
    exact ⟨List.forall_mem_nil _, .inl ⟨e, he, rfl⟩⟩
  | cons item items ih =>
    obtain ⟨c, heq, rfl, htail⟩ := h
    cases e with
    | atom a => cases heq
    | pair d head tail =>
      obtain rfl := Value.pair.inj heq
      obtain ⟨hhead, hrest⟩ := he.parts
      rw [(he.held.extends hs).2.1] at htail ⊢
      obtain ⟨hitems, hyields⟩ := ih hrest htail
      exact ⟨List.forall_mem_cons.2 ⟨.inl ⟨head, hhead, rfl⟩, hitems⟩, hyields⟩

/-! ### While the store changes -/

/-- Nothing is new in the store itself. -/
theorem clean_self (base : Store) : base.Clean base [] := by
  have hnil {c : Nat} (hc : base.size ≤ c) :
      base.Yields (base.cell c).head ∧ base.Yields (base.cell c).tail := by
    rw [cell_of_size_le hc]
    exact ⟨yields_atom trivial, yields_atom trivial⟩
  exact ⟨fun c hc _ => (hnil hc).1, fun c hc => (hnil hc).2⟩

/-- A new pair leaves the store clean. The placeholder may be its head if it becomes pending. -/
theorem Clean.cons (h : base.Clean s pending) {head tail : Value} (hsub : pending ⊆ pending')
    (hhead : s.size ∉ pending' → base.Yields head) (htail : base.Yields tail) :
    base.Clean (s.cons head tail).2 pending' := by
  have hcell (c : Nat) : (s.cons head tail).2.cell c = s.cell c ∨ c = s.size := by
    rcases Nat.lt_trichotomy c s.size with hlt | rfl | hgt
    · exact .inl (cell_cons_of_lt s head tail hlt)
    · exact .inr rfl
    · left
      rw [cell_of_size_le (Nat.le_of_lt hgt), cell_of_size_le]
      rw [size_cons]
      exact hgt
  refine ⟨fun c hc hpending => ?_, fun c hc => ?_⟩
  · rcases hcell c with heq | rfl
    · rw [heq]
      exact h.head c hc fun hmem => hpending (hsub hmem)
    · rw [cell_cons_size]
      exact hhead hpending
  · rcases hcell c with heq | rfl
    · rw [heq]
      exact h.tail c hc
    · rw [cell_cons_size]
      exact htail

/-- A new list leaves the store clean. -/
theorem Clean.dotted (h : base.Clean s pending) (hs : base.size ≤ s.size) {items : List Value}
    (hitems : ∀ v ∈ items, base.Yields v) :
    base.Clean (s.dotted items .nil).2 pending ∧ base.Yields (s.dotted items .nil).1 := by
  induction items with
  | nil => exact ⟨h, yields_atom trivial⟩
  | cons item items ih =>
    obtain ⟨hitem, hitems⟩ := List.forall_mem_cons.1 hitems
    obtain ⟨hclean, hlist⟩ := ih hitems
    refine ⟨hclean.cons (List.Subset.refl _) (fun _ => hitem) hlist, .inr ⟨_, ?_, rfl⟩⟩
    exact Nat.le_trans hs (extends_dotted s items .nil).size_le

/-- A host callable leaves the store clean, and its result is yielded like its arguments. -/
theorem Clean.call (h : base.Clean s pending) (hs : base.size ≤ s.size) {c : Callable}
    {args : List Value} {v : Value} {s' : Store} (hargs : ∀ arg ∈ args, base.Yields arg)
    (hcall : c.call s args = (.ok v, s')) : base.Clean s' pending ∧ base.Yields v := by
  rw [Callable.call] at hcall
  split at hcall
  · rw [Primitive.apply.eq_def] at hcall
    split at hcall
    · obtain ⟨hv, rfl⟩ := Prod.mk.inj hcall
      obtain rfl := Except.ok.inj hv
      exact h.dotted hs hargs
    · obtain ⟨hv, rfl⟩ := Prod.mk.inj hcall
      obtain ⟨a, ha, rfl⟩ := Primitive.exists_atom_of_compute hv
      exact ⟨h, yields_atom ha.proper⟩
  · cases hcall

/-- Writing to a pending cell closes it. -/
theorem Clean.setHead (h : base.Clean s pending) {address : Nat} {head : Value}
    (hlt : address < s.size) (hhead : base.Yields head) :
    base.Clean (s.setHead address head) (pending.erase address) := by
  refine ⟨fun c hc hpending => ?_, fun c hc => ?_⟩
  · by_cases heq : c = address
    · subst heq
      rw [cell_setHead_self s head hlt]
      exact hhead
    · rw [cell_setHead_of_ne s head heq]
      exact h.head c hc fun hmem => hpending ((List.mem_erase_of_ne heq).2 hmem)
  · rw [tail_cell_setHead]
    exact h.tail c hc

end Store

/-! ### What the code looks at -/

/-- Two readings of the same list that take as many items from it are the same. -/
theorem Store.Starts.unique {s : Store} {v rest rest' : Value} {items items' : List Value}
    (h : s.Starts v items rest) (h' : s.Starts v items' rest')
    (hlength : items.length = items'.length) : items = items' ∧ rest = rest' := by
  induction items generalizing v items' with
  | nil =>
    obtain rfl := List.length_eq_zero_iff.1 hlength.symm
    exact ⟨rfl, h.symm.trans h'⟩
  | cons item items ih =>
    obtain ⟨item', items', rfl⟩ := List.exists_cons_of_length_eq_add_one hlength.symm
    obtain ⟨c, rfl, rfl, htail⟩ := h
    obtain ⟨c', heq, rfl, htail'⟩ := h'
    obtain rfl := Value.pair.inj heq
    obtain ⟨rfl, hrest⟩ := ih htail htail' (Nat.succ.inj hlength)
    exact ⟨rfl, hrest⟩

variable {o : Origin} {r r' : Registers} {closures pending : List Nat}

/-- The heads of open cells are pending. -/
theorem Store.Opened.isPending_head {s : Store} {env home : Value} {cells : List Nat}
    (h : s.Opened env cells home) : ∀ c ∈ cells, (s.cell c).head.isPending = true := by
  induction cells generalizing env with
  | nil => exact List.forall_mem_nil _
  | cons c cells ih =>
    obtain ⟨-, -, hpending, htail⟩ := h
    exact List.forall_mem_cons.2 ⟨hpending, ih htail⟩

/-- The heads of the open cells of suspended functions are pending. -/
theorem Suspended.isPending_head {s : Store} {dump : Array DumpEntry} {ending : Ending}
    {home : Value} {bottom : List Value} {opened : List Nat}
    (h : Suspended o s pending dump ending home bottom opened) :
    ∀ c ∈ opened, (s.cell c).head.isPending = true := by
  induction h with
  | stop _ => exact List.forall_mem_nil _
  | call _ _ _ _ hopened _ _ ih => exact List.forall_mem_append.2 ⟨hopened.isPending_head, ih⟩
  | join _ _ _ _ ih => exact ih

namespace WellFormed

/-- The store extends that of the origin, and the pending cells are new ones with pending heads. -/
theorem new_pending (h : WellFormed o r closures pending) :
    o.store.Extends r.store ∧ ∀ c ∈ pending,
      o.store.size ≤ c ∧ c < r.store.size ∧ (r.store.cell c).head.isPending = true := by
  obtain ⟨⟨_, _, _, _, _, _, _, _, rfl, hrunning, -⟩, -⟩ := h
  refine ⟨hrunning.base, fun c hc => ⟨hrunning.fresh c hc, hrunning.lt_size c hc, ?_⟩⟩
  rcases List.mem_append.1 hc with hc | hc
  · exact hrunning.env.isPending_head c hc
  · exact hrunning.dump.isPending_head c hc

/-- The control is a pair of code that the store of the origin holds. -/
theorem exists_held_control (h : WellFormed o r closures pending) :
    ∃ c head tail, o.store.Holds (.pair c head tail) ∧ r.control = .pair c := by
  obtain ⟨⟨code, _, _, cells, _, _, _, _, rfl, hrunning, hready⟩, -⟩ := h
  obtain ⟨c, head, tail, rfl⟩ : ∃ c head tail, code = .pair c head tail := by
    generalize cells.length = n at hready
    cases hready with
    | code hcode _ => exact hcode.exists_pair
    | rap hcode _ _ _ _ _ _ =>
      obtain ⟨c, tail, rfl, -⟩ := hcode
      exact ⟨c, _, tail, rfl⟩
  exact ⟨c, head, tail, hrunning.held, hrunning.control⟩

/-- If the origin has no frames, `LD` looks into a frame of the program. -/
theorem isFrame_of_ld (h : WellFormed o r closures pending) (houter : o.outer = 0)
    {operand frame k : Value} {a : Address} (hnext : r.Next .ld [operand] k)
    (haddress : Address.ofValue r.store operand = .ok a)
    (hframe : r.store.nth r.env a.frame = .ok frame) (hready : frame.isPending = false) :
    o.IsFrame r.store pending frame := by
  have hpendingHead := h.new_pending.2
  obtain ⟨⟨c, top, bottom, cells, opened, depth, ending, home, rfl, hrunning, hcode⟩, -⟩ := h
  have hop := Registers.opcode?_of_next hnext
  have hfound {operand' k' : Sexp} {a' : Address}
      (hbegins : c.Begins [Opcode.ld.sexp, operand'] k') (hoperand : operand'.IsAddress a')
      (hlt : a'.frame < depth + o.outer) : o.IsFrame r.store (cells ++ opened) frame := by
    obtain ⟨hnext', -, hoperands⟩ := hrunning.next hbegins
    obtain ⟨heq, -⟩ := Store.Starts.unique hnext hnext' rfl
    obtain ⟨-, heq⟩ := List.cons.inj heq
    obtain rfl := (List.cons.inj heq).1
    have hheld := (hoperands _ List.mem_cons_self).extends hrunning.base
    obtain rfl := Except.ok.inj ((hheld.ofValue_eq hoperand).symm.trans haddress)
    have hdepth : a'.frame < depth := by omega
    obtain ⟨d, hd, hpending⟩ := hrunning.inside.exists_nth hdepth
    obtain rfl := Except.ok.inj (hframe.symm.trans hd)
    refine hpending.resolve_left fun hmem => ?_
    cases hready.symm.trans (hpendingHead d hmem).2.2
  generalize cells.length = n at hcode
  cases hcode with
  | rap hrap _ _ _ _ _ _ => cases hrunning.opcode_eq hrap hop
  | code htyped _ =>
    cases htyped with
    | ld hbegins hoperand hlt _ => exact hfound hbegins hoperand hlt
    | callee hbegins hoperand _ hlt _ _ => exact hfound hbegins hoperand hlt
    | ldc hcode _ | nil hcode _ | push hcode _ | ldf hcode _ _ | ap hcode _ _ _ | call hcode _ _ _
    | dum hcode _ | rap hcode _ _ _ | sel hcode _ _ _ | unary hcode _ | binary hcode _ | stop hcode
    | rtn hcode | join hcode => cases hrunning.opcode_eq hcode hop

/-- The second value that `AP` finds is a list of arguments. -/
theorem isFrame_of_ap (h : WellFormed o r closures pending) {f args k : Value} {stack : List Value}
    (hnext : r.Next .ap [] k) (hstack : r.stack = f :: args :: stack) :
    o.IsFrame r.store pending args := by
  obtain ⟨⟨c, top, bottom, cells, opened, depth, ending, home, rfl, hrunning, hcode⟩, -⟩ := h
  have hop := Registers.opcode?_of_next hnext
  have hfound {slot slot' : Slot} {slots : List Slot}
      (hslots : List.Forall₂ (o.Fits r.store (cells ++ opened)) (slot :: slot' :: slots) top)
      (hargs : slot'.IsArgs) : o.IsFrame r.store (cells ++ opened) args := by
    obtain _ | @⟨_, v, _, _, -, _ | @⟨_, list, _, rest, hlist, -⟩⟩ := hslots
    obtain ⟨-, heq⟩ := List.cons.inj (hrunning.stack.symm.trans hstack)
    obtain rfl := (List.cons.inj heq).1
    exact hlist.isFrame hargs
  generalize cells.length = n at hcode
  cases hcode with
  | rap hrap _ _ _ _ _ _ => cases hrunning.opcode_eq hrap hop
  | code htyped hslots =>
    cases htyped with
    | ap _ _ hargs _ => exact hfound hslots hargs
    | call _ _ _ _ => exact hfound hslots .items
    | ld hcode _ _ _ | callee hcode _ _ _ _ _ | ldc hcode _ | nil hcode _ | push hcode _
    | ldf hcode _ _ | dum hcode _ | rap hcode _ _ _ | sel hcode _ _ _ | unary hcode _
    | binary hcode _ | stop hcode | rtn hcode | join hcode => cases hrunning.opcode_eq hcode hop

/-- A frame is a chain that avoids the pending cells. -/
theorem exists_chain_of_isFrame (h : WellFormed o r closures pending) {args : Sexp}
    (hheld : o.store.Holds args) (hargs : o.args = args.value) {v : Value}
    (hv : o.IsFrame r.store pending v) :
    ∃ cells ending, r.store.Chain v cells ending ∧ ∀ c ∈ cells, c ∉ pending := by
  rcases hv with rfl | ⟨count, cells, hchain, -, havoid⟩
  · obtain ⟨hs, hpending⟩ := h.new_pending
    obtain ⟨cells, ending, hchain⟩ := hheld.exists_chain
    rw [hargs]
    refine ⟨cells, ending, hchain.evolves (hs.evolves (P := fun _ => False)), fun c hc hmem => ?_⟩
    exact Nat.not_lt.2 (hpending c hmem).1 (hchain.lt_size hc)
  · exact ⟨cells, .nil, hchain, havoid⟩

end WellFormed

/-! ### Steps of clean machines -/

/-- If `CAR` is next, the pair that it opens is not pending. -/
def Registers.Spares (r : Registers) (pending : List Nat) : Prop :=
  r.opcode? = some (.unary .car) → ∀ c stack, r.stack = .pair c :: stack → c ∉ pending

instance decidableSpares (r : Registers) (pending : List Nat) : Decidable (r.Spares pending) :=
  match hstack : r.stack with
  | .pair c :: stack =>
    decidable_of_iff (r.opcode? = some (.unary .car) → c ∉ pending) <| by
      refine ⟨fun h hop d stack hd => ?_, fun h hop => h hop c stack hstack⟩
      obtain ⟨hcd, -⟩ := List.cons.inj (hstack.symm.trans hd)
      exact Value.pair.inj hcd ▸ h hop
  | .atom _ :: _ => .isTrue fun _ _ _ hd => by cases hstack.symm.trans hd
  | [] => .isTrue fun _ _ _ hd => by cases hstack.symm.trans hd

namespace Registers

/-- The store is clean, and the registers hold values that the first store yields. -/
structure Clean (base : Store) (r : Registers) (pending : List Nat) : Prop where
  store : base.Clean r.store pending
  stack : ∀ v ∈ r.stack, base.Yields v
  env : base.Yields r.env
  control : base.Yields r.control
  dump : ∀ entry ∈ r.dump, ∀ v ∈ entry.values, base.Yields v

variable {base : Store}

/-- What is on the stack is yielded. -/
theorem Clean.of_stack (h : r.Clean base pending) {v : Value} {stack : List Value}
    (hstack : r.stack = v :: stack) : base.Yields v ∧ ∀ w ∈ stack, base.Yields w := by
  have hall := h.stack
  rw [hstack] at hall
  exact List.forall_mem_cons.1 hall

/-- Clean registers stay clean if the result of an instruction is pushed. -/
theorem Clean.push (h : r.Clean base pending) {s : Store} {stack : List Value} {v k : Value}
    {pending' : List Nat} (hs : base.Clean s pending') (hv : base.Yields v)
    (hstack : ∀ w ∈ stack, base.Yields w) (hk : base.Yields k) :
    Clean base { r with store := s, stack := v :: stack, control := k } pending' where
  store := hs
  stack := List.forall_mem_cons.2 ⟨hv, hstack⟩
  env := h.env
  control := hk
  dump := h.dump

/-- Clean registers stay clean if a function is entered. -/
theorem Clean.call (h : r.Clean base pending) {s : Store} {stack : List Value}
    {env control callerEnv k : Value} {pending' : List Nat} (hs : base.Clean s pending')
    (henv : base.Yields env) (hcontrol : base.Yields control) (hstack : ∀ w ∈ stack, base.Yields w)
    (hcaller : base.Yields callerEnv) (hk : base.Yields k) :
    Clean base ⟨s, [], env, control, r.dump.push (.call stack callerEnv k)⟩ pending' where
  store := hs
  stack := List.forall_mem_nil _
  env := henv
  control := hcontrol
  dump entry hentry := by
    rcases Array.mem_push.1 hentry with hentry | rfl
    · exact h.dump entry hentry
    · exact List.forall_mem_cons.2 ⟨hcaller, List.forall_mem_cons.2 ⟨hk, hstack⟩⟩

/-- The operands of the next instruction and the code after it are yielded. -/
theorem Clean.next (h : r.Clean o.store pending) (hr : WellFormed o r closures pending)
    {op : Opcode} {operands : List Value} {k : Value} (hnext : r.Next op operands k) :
    (∀ v ∈ operands, o.store.Yields v) ∧ o.store.Yields k := by
  obtain ⟨c, head, tail, ⟨hlt, -⟩, hcontrol⟩ := hr.exists_held_control
  rcases hcontrol ▸ h.control with ⟨e, he, heq⟩ | ⟨d, hd, heq⟩
  · rw [Next, hcontrol, heq] at hnext
    obtain ⟨hitems, hk⟩ := he.yields_of_starts hr.new_pending.1 hnext
    exact ⟨fun v hv => hitems v (List.mem_cons_of_mem _ hv), hk⟩
  · obtain rfl := Value.pair.inj heq
    exact absurd hlt (Nat.not_lt.2 hd)

/-- A transition that opens no pending cell leaves clean registers clean. The closure that is
applied is not pending, since the code of a pending cell would be the placeholder. -/
theorem Clean.of_transition (h : r.Clean o.store pending) (hr : WellFormed o r closures pending)
    (houter : o.outer = 0) {args : Sexp} (hheld : o.store.Holds args) (hargs : o.args = args.value)
    (hspares : r.Spares pending) (ht : Transition r (.proceed r'))
    (hcontrol : r'.control.isPending = false) : r'.Clean o.store (r.pending pending) := by
  obtain ⟨hs, hpendingCells⟩ := hr.new_pending
  have hplain {op : Opcode} {operands : List Value} {k : Value} (hnext : r.Next op operands k)
      (hop : op.isPlain = true) : r.pending pending = pending :=
    Registers.pending_of_plain hnext hop pending
  have hready {c : Nat} (hc : (r.store.cell c).head.isPending = false) : c ∉ pending := by
    intro hmem
    cases hc.symm.trans (hpendingCells c hmem).2.2
  have hnew : o.store.Yields (.pair r.store.size) := .inr ⟨_, hs.size_le, rfl⟩
  cases ht with
  | ld hnext haddress hframe hnot hslot =>
    obtain ⟨-, hk⟩ := h.next hr hnext
    obtain ⟨c, hc, rfl⟩ := h.store.exists_of_nth hs h.env hframe
    obtain ⟨cells, ending, hchain, havoid⟩ :=
      hr.exists_chain_of_isFrame hheld hargs (hr.isFrame_of_ld houter hnext haddress hframe hnot)
    have hhead := (h.store.parts hs hc).1 (hready hnot)
    obtain ⟨d, hd, rfl⟩ := hchain.exists_of_nth hslot
    rw [hplain hnext rfl]
    exact h.push h.store (h.store.items hs hhead hchain havoid d hd) h.stack hk
  | ldc hnext =>
    obtain ⟨hoperands, hk⟩ := h.next hr hnext
    rw [hplain hnext rfl]
    exact h.push h.store (hoperands _ List.mem_cons_self) h.stack hk
  | @ldf block k hnext =>
    obtain ⟨hoperands, hk⟩ := h.next hr hnext
    have hblock := hoperands _ List.mem_cons_self
    rw [show r.pending pending = pending by rw [Registers.pending, opcode?_of_next hnext]]
    exact h.push (h.store.cons (List.Subset.refl _) (fun _ => hblock) h.env) hnew h.stack hk
  | @apClosure f list k stack hnext hstack =>
    obtain ⟨-, hk⟩ := h.next hr hnext
    obtain ⟨hf, hrest⟩ := h.of_stack hstack
    obtain ⟨hlist, hrest⟩ := List.forall_mem_cons.1 hrest
    obtain ⟨hcode, henv⟩ := h.store.parts hs hf
    rw [hplain hnext rfl]
    exact h.call (h.store.cons (List.Subset.refl _) (fun _ => hlist) henv) hnew
      (hcode (hready hcontrol)) hrest h.env hk
  | apHost hnext hstack hlist harity hcall =>
    obtain ⟨-, hk⟩ := h.next hr hnext
    obtain ⟨-, hrest⟩ := h.of_stack hstack
    obtain ⟨hargsList, hrest⟩ := List.forall_mem_cons.1 hrest
    obtain ⟨cells, ending, hchain, havoid⟩ :=
      hr.exists_chain_of_isFrame hheld hargs (hr.isFrame_of_ap hnext hstack)
    have hitems := h.store.items hs hargsList hchain havoid
    obtain rfl := hchain.items_eq_of_toList hlist
    obtain ⟨hclean, hv⟩ := h.store.call hs.size_le (List.forall_mem_map.2 hitems) hcall
    rw [hplain hnext rfl]
    exact h.push hclean hv hrest hk
  | @rtn v env control k rest stack dump hnext hstack hdump =>
    obtain ⟨hv, -⟩ := h.of_stack hstack
    have hall := h.dump
    rw [hdump] at hall
    have hentry := hall _ Array.mem_push_self
    obtain ⟨henv, hentry⟩ := List.forall_mem_cons.1 hentry
    obtain ⟨hcode, hcaller⟩ := List.forall_mem_cons.1 hentry
    rw [hplain hnext rfl]
    exact {
      store := h.store
      stack := List.forall_mem_cons.2 ⟨hv, hcaller⟩
      env := henv
      control := hcode
      dump := fun entry hentry => hall entry (Array.mem_push_of_mem _ hentry) }
  | dum hnext =>
    obtain ⟨-, hk⟩ := h.next hr hnext
    rw [show r.pending pending = r.store.size :: pending by
      rw [Registers.pending, opcode?_of_next hnext]]
    exact {
      store := h.store.cons (List.subset_cons_self _ _)
        (fun hmem => absurd List.mem_cons_self hmem) h.env
      stack := h.stack
      env := hnew
      control := hk
      dump := h.dump }
  | @rap f c list k stack hnext hstack henv hpending hcaptured =>
    obtain ⟨-, hk⟩ := h.next hr hnext
    obtain ⟨hf, hrest⟩ := h.of_stack hstack
    obtain ⟨hlist, hrest⟩ := List.forall_mem_cons.1 hrest
    have hc : o.store.Yields (.pair c) := henv ▸ h.env
    have hlt : c < r.store.size := by
      refine Nat.lt_of_not_le fun hle => ?_
      rw [Store.cell_of_size_le hle] at hpending
      cases hpending
    rw [show r.pending pending = pending.erase c by
      rw [Registers.pending, opcode?_of_next hnext, henv]]
    exact h.call (h.store.setHead hlt hlist) hc ((h.store.parts hs hf).1 (hready hcontrol)) hrest
      (h.store.parts hs hc).2 hk
  | @sel test yes no k stack hnext hstack =>
    obtain ⟨hoperands, hk⟩ := h.next hr hnext
    obtain ⟨hyes, hno⟩ := List.forall_mem_cons.1 hoperands
    rw [hplain hnext rfl]
    refine ⟨h.store, (h.of_stack hstack).2, h.env, ?_, ?_⟩
    · dsimp only
      split
      · exact hyes
      · exact hno _ List.mem_cons_self
    · intro entry hentry
      rcases Array.mem_push.1 hentry with hentry | rfl
      · exact h.dump entry hentry
      · exact List.forall_mem_singleton.2 hk
  | join hnext hdump =>
    have hall := h.dump
    rw [hdump] at hall
    rw [hplain hnext rfl]
    exact {
      store := h.store
      stack := h.stack
      env := h.env
      control := hall _ Array.mem_push_self _ List.mem_cons_self
      dump := fun entry hentry => hall entry (Array.mem_push_of_mem _ hentry) }
  | car hnext hstack =>
    obtain ⟨-, hk⟩ := h.next hr hnext
    obtain ⟨hc, hrest⟩ := h.of_stack hstack
    have hopen := hspares (opcode?_of_next hnext) _ _ hstack
    rw [hplain hnext rfl]
    exact h.push h.store ((h.store.parts hs hc).1 hopen) hrest hk
  | cdr hnext hstack =>
    obtain ⟨-, hk⟩ := h.next hr hnext
    obtain ⟨hc, hrest⟩ := h.of_stack hstack
    rw [hplain hnext rfl]
    exact h.push h.store (h.store.parts hs hc).2 hrest hk
  | atom hnext hstack =>
    obtain ⟨-, hk⟩ := h.next hr hnext
    rw [hplain hnext rfl]
    exact h.push h.store (Store.yields_truth _) (h.of_stack hstack).2 hk
  | arithmetic hnext hstack _ _ =>
    obtain ⟨-, hk⟩ := h.next hr hnext
    obtain ⟨-, hrest⟩ := h.of_stack hstack
    rw [hplain hnext rfl]
    exact h.push h.store (Store.yields_atom trivial) (List.forall_mem_cons.1 hrest).2 hk
  | eq hnext hstack =>
    obtain ⟨-, hk⟩ := h.next hr hnext
    obtain ⟨-, hrest⟩ := h.of_stack hstack
    rw [hplain hnext rfl]
    exact h.push h.store (Store.yields_truth _) (List.forall_mem_cons.1 hrest).2 hk
  | leq hnext hstack =>
    obtain ⟨-, hk⟩ := h.next hr hnext
    obtain ⟨-, hrest⟩ := h.of_stack hstack
    rw [hplain hnext rfl]
    exact h.push h.store (Store.yields_truth _) (List.forall_mem_cons.1 hrest).2 hk
  | cons hnext hstack =>
    obtain ⟨-, hk⟩ := h.next hr hnext
    obtain ⟨ha, hrest⟩ := h.of_stack hstack
    obtain ⟨hb, hrest⟩ := List.forall_mem_cons.1 hrest
    rw [hplain hnext rfl]
    exact h.push (h.store.cons (List.Subset.refl _) (fun _ => ha) hb) hnew hrest hk

end Registers

end Secd
