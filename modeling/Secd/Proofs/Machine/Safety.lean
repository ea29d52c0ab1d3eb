import Secd.Proofs.Machine.WellFormed

/-!
# Compiled code does not go wrong

Every transition of a well-formed machine leaves it well formed, stops it in the proper state, or is
a fault that is due to the data of the program. The only thing that well-formed registers do not say
is that `AP` finds a closure if it finds a pair in the place of its function.

There is one lemma for each way of typing code, that is for each instruction, with `RAP` and the
instruction before it treated apart. Each names the rule of the machine that applies, and says how
the running function goes on or which function runs after it.
-/

namespace Secd

/-- The faults of code and registers that are out of shape. -/
def FaultKind.isStructural : FaultKind → Bool
  | .unknownInstruction _ | .missingOperand _ | .missingStop | .stackUnderflow | .dumpUnderflow
  | .dumpMismatch | .typeError .address => true
  | _ => false

/-- The fault is that of an operation or of a call that cannot do anything with its operands. -/
def Fault.isOperational : Fault → Bool
  | .argumentList _ | .host _ | .notAFunction _ | .notAPair _ _ | .notAnInt _ | .zeroDivision
  | .overflow _ _ _ => true
  | _ => false

/-- The effect is to push a value on the given stack and to go on with the code `k`, after cells may
have been added to the store, or it is a fault because of the operands. -/
inductive Effect.Pushes (r : Registers) (stack : List Value) (k : Value) : Effect → Prop where
  | proceed {s : Store} {v : Value} (hs : r.store.Extends s) :
      Pushes r stack k (.proceed { r with store := s, stack := v :: stack, control := k })
  | fault {f : Fault} (hf : f.isOperational = true) : Pushes r stack k (.fault f)

/-- The instruction that is next in the control. -/
def Registers.opcode? (r : Registers) : Option Opcode :=
  match r.control with
  | .pair c => Opcode.ofValue? (r.store.cell c).head
  | .atom _ => none

/-- If `AP` is next and finds a pair in the place of its function, this is a known closure. -/
def Registers.AppliesKnown (r : Registers) (known : List Nat) : Prop :=
  r.opcode? = some .ap → ∀ f stack, r.stack = .pair f :: stack → f ∈ known

instance decidableAppliesKnown (r : Registers) (known : List Nat) :
    Decidable (r.AppliesKnown known) :=
  match hstack : r.stack with
  | .pair f :: stack =>
    decidable_of_iff (r.opcode? = some .ap → f ∈ known) <| by
      refine ⟨fun h hop g stack hg => ?_, fun h hop => h hop f stack hstack⟩
      obtain ⟨hfg, -⟩ := List.cons.inj (hstack.symm.trans hg)
      exact Value.pair.inj hfg ▸ h hop
  | .atom _ :: _ => .isTrue fun _ _ _ hg => by cases hstack.symm.trans hg
  | [] => .isTrue fun _ _ _ hg => by cases hstack.symm.trans hg

/-- The known closures after the next instruction: `LDF` makes a new one. -/
def Registers.closures (r : Registers) (known : List Nat) : List Nat :=
  if r.opcode? = some .ldf then r.store.size :: known else known

/-- The pending cells after the next instruction: `DUM` makes a new one, and `RAP` closes the one at
the head of the environment. -/
def Registers.pending (r : Registers) (known : List Nat) : List Nat :=
  match r.opcode?, r.env with
  | some .dum, _ => r.store.size :: known
  | some .rap, .pair c => known.erase c
  | _, _ => known

/-- The fault is due to the data of the program: a frame is pending only for `LD`, and an
environment is too small only if its frame at some index has no item for the slot. -/
structure Fault.IsBenign (f : Fault) (r : Registers) : Prop where
  kind : f.kind.isStructural = false
  pending : f.kind = .pendingFrame → r.opcode? = some .ld
  slot : f.kind = .environmentUnderflow → ∃ (a : Address) (frame : Value) (error : ValueError),
    f = .noSlot a.frame a.slot ∧ r.store.nth r.env a.frame = .ok frame ∧
      r.store.nth frame a.slot = .error error

/-- The `AP` that is next belongs to a call by another function than a variable of an outer
frame. -/
def Origin.IsIndirect (o : Origin) (r : Registers) : Prop :=
  ∃ site ∈ o.sites, site.callee = none ∧ r.control = site.code.value

/-- The effect keeps the registers well formed unless it is that of applying a pair which is no
known closure, or it stops in the proper state, or it is a benign fault. A closure that is made for
`RAP` may be no closure for `AP`: it finds its arguments in the environment that it has captured.
Only an indirect call has the wrong number of arguments. -/
inductive Effect.IsSafe (o : Origin) (r : Registers) (closures pending : List Nat) :
    Effect → Prop where
  | proceed {r' : Registers} (h : r.AppliesKnown closures →
      WellFormed o r' (r.closures closures) (r.pending pending)) :
      IsSafe o r closures pending (.proceed r')
  | loop {block k : Value} {r' : Registers} (houter : 0 < o.outer) (hnext : r.Next .ldf [block] k)
      (hr' : r' = { r with
        store := (r.store.cons block r.env).2
        stack := .pair r.store.size :: r.stack
        control := k })
      (hrap : r'.opcode? = some .rap) (h : WellFormed o r' closures pending) :
      IsSafe o r closures pending (.proceed r')
  | stop {v : Value} {s : Store} (hpending : pending = []) :
      IsSafe o r closures pending (.stop v ⟨s, v :: o.bottom, o.env, .nil, #[]⟩)
  | fault {f : Fault} (h : f.IsBenign r)
      (harity : ∀ expected got, f.kind = .arityError expected got → o.IsIndirect r) :
      IsSafe o r closures pending (.fault f)

/-- The next transition has a safe effect. -/
def Progresses (o : Origin) (r : Registers) (closures pending : List Nat) : Prop :=
  ∃ e, Transition r e ∧ e.IsSafe o r closures pending

/-- The instruction makes no closure, and neither opens nor closes a cell. -/
def Opcode.isPlain : Opcode → Bool
  | .ldf | .dum | .rap => false
  | _ => true

variable {o : Origin} {r : Registers} {closures pending : List Nat}

/-- The next instruction is the one that is read from the control. -/
theorem Registers.opcode?_of_next {op : Opcode} {operands : List Value} {k : Value}
    (h : r.Next op operands k) : r.opcode? = some op := by
  obtain ⟨c, hcontrol, hhead, -⟩ := h
  rw [opcode?, hcontrol]
  dsimp only
  rw [hhead]
  exact Opcode.ofName?_mnemonic op

/-- A plain instruction makes no closure. -/
theorem Registers.closures_of_plain {op : Opcode} {operands : List Value} {k : Value}
    (h : r.Next op operands k) (hop : op.isPlain = true) (known : List Nat) :
    r.closures known = known := by
  rw [closures, opcode?_of_next h, if_neg]
  rintro heq
  cases heq
  cases hop

/-- A plain instruction does nothing to pending cells. -/
theorem Registers.pending_of_plain {op : Opcode} {operands : List Value} {k : Value}
    (h : r.Next op operands k) (hop : op.isPlain = true) (known : List Nat) :
    r.pending known = known := by
  rw [pending, opcode?_of_next h]
  cases op with
  | dum => cases hop
  | rap => cases hop
  | _ => rfl

/-! ### Operations that find their operands -/

/-- A value is an integer, or is refused as one. -/
theorem Value.int_or_error (v : Value) : (∃ n, v = .int n) ∨ ∃ e, v.asInt = .error e := by
  cases hv : v.asInt with
  | error e => exact .inr ⟨e, rfl⟩
  | ok n =>
    left
    match v, hv with
    | .int m, _ => exact ⟨m, rfl⟩

/-- An operation with one operand pushes its result, or refuses the operand. -/
theorem exists_transition_unary {op : Unary} {v k : Value} {stack : List Value}
    (hnext : r.Next (.unary op) [] k) (hstack : r.stack = v :: stack) :
    ∃ e, Transition r e ∧ e.Pushes r stack k := by
  cases op with
  | atom => exact ⟨_, .atom hnext hstack, .proceed (.refl _)⟩
  | car =>
    cases v with
    | pair c => exact ⟨_, .car hnext hstack, .proceed (.refl _)⟩
    | atom a => exact ⟨_, .carAtom hnext hstack, .fault rfl⟩
  | cdr =>
    cases v with
    | pair c => exact ⟨_, .cdr hnext hstack, .proceed (.refl _)⟩
    | atom a => exact ⟨_, .cdrAtom hnext hstack, .fault rfl⟩

/-- An operation with two operands pushes its result, or refuses one of the operands or both. -/
theorem exists_transition_binary {op : Binary} {v w k : Value} {stack : List Value}
    (hnext : r.Next (.binary op) [] k) (hstack : r.stack = v :: w :: stack) :
    ∃ e, Transition r e ∧ e.Pushes r stack k := by
  cases op with
  | cons => exact ⟨_, .cons hnext hstack, .proceed (Store.extends_cons _ _ _)⟩
  | eq => exact ⟨_, .eq hnext hstack, .proceed (.refl _)⟩
  | leq =>
    rcases v.int_or_error with ⟨m, rfl⟩ | ⟨e, he⟩
    · rcases w.int_or_error with ⟨n, rfl⟩ | ⟨e, he⟩
      · exact ⟨_, .leq hnext hstack, .proceed (.refl _)⟩
      · exact ⟨_, .leqSecond hnext hstack he, .fault rfl⟩
    · exact ⟨_, .leqFirst hnext hstack he, .fault rfl⟩
  | arithmetic op =>
    rcases v.int_or_error with ⟨b, rfl⟩ | ⟨e, he⟩
    · rcases w.int_or_error with ⟨a, rfl⟩ | ⟨e, he⟩
      · by_cases hdivisor : op.divides ∧ b = 0
        · exact ⟨_, .arithmeticZero hnext hstack hdivisor, .fault rfl⟩
        · cases hresult : op.compute? a b with
          | some n => exact ⟨_, .arithmetic hnext hstack hdivisor hresult, .proceed (.refl _)⟩
          | none => exact ⟨_, .arithmeticOverflow hnext hstack hdivisor hresult, .fault rfl⟩
      · exact ⟨_, .arithmeticFirst hnext hstack he, .fault rfl⟩
    · exact ⟨_, .arithmeticSecond hnext hstack he, .fault rfl⟩

/-- `AP` with a host callable pushes the result, or the callable refuses the arguments. -/
theorem exists_transition_host {host : Callable} {args k : Value} {stack items : List Value}
    (hnext : r.Next .ap [] k) (hstack : r.stack = .callable host :: args :: stack)
    (hitems : r.store.toList args = .ok items) (harity : items.length = host.arity) :
    ∃ e, Transition r e ∧ e.Pushes r stack k := by
  cases hcall : host.call r.store items with
  | mk result s =>
    cases result with
    | error message =>
      exact ⟨_, .apHostError hnext hstack hitems harity hcall, .fault rfl⟩
    | ok v =>
      exact ⟨_, .apHost hnext hstack hitems harity hcall, .proceed (Store.extends_call hcall)⟩

/-- `AP` with an atom as the function pushes the result, or refuses the operands, or finds a host
callable that takes another number of arguments. -/
theorem exists_transition_ap {a : Atom} {args k : Value} {stack : List Value}
    (hnext : r.Next .ap [] k) (hstack : r.stack = .atom a :: args :: stack) :
    ∃ e, Transition r e ∧
      (e.Pushes r stack k ∨ ∃ name expected got, e = .fault (.arity name expected got)) := by
  cases a with
  | callable host =>
    cases hitems : r.store.toList args with
    | error e => exact ⟨_, .apHostImproper hnext hstack hitems, .inl (.fault rfl)⟩
    | ok items =>
      by_cases harity : items.length = host.arity
      · obtain ⟨e, htransition, hpushes⟩ := exists_transition_host hnext hstack hitems harity
        exact ⟨e, htransition, .inl hpushes⟩
      · exact ⟨_, .apHostArity hnext hstack hitems harity, .inr ⟨_, _, _, rfl⟩⟩
  | _ => exact ⟨_, .apAtom hnext hstack nofun, .inl (.fault rfl)⟩

/-- A fault because of the operands is not structural, and has nothing to do with environments or
with numbers of arguments. -/
theorem Fault.kind_of_isOperational {f : Fault} (hf : f.isOperational = true) :
    f.kind.isStructural = false ∧ f.kind ≠ .pendingFrame ∧ f.kind ≠ .environmentUnderflow ∧
      ∀ expected got, f.kind ≠ .arityError expected got := by
  cases f with
  | argumentList _ | host _ | notAFunction _ | notAPair _ _ | notAnInt _ | zeroDivision
  | overflow _ _ _ => exact ⟨rfl, nofun, nofun, nofun⟩
  | _ => cases hf

/-- A fault because of the operands is benign. -/
theorem progresses_of_fault {f : Fault} (h : Transition r (.fault f))
    (hf : f.isOperational = true) : Progresses o r closures pending := by
  obtain ⟨hkind, hpending, hslot, harity⟩ := Fault.kind_of_isOperational hf
  exact ⟨_, h, .fault ⟨hkind, fun h => absurd h hpending, fun h => absurd h hslot⟩
    fun expected got h => absurd h (harity expected got)⟩

/-- After `LDF` the new cell is a closure, and so are those before it. -/
theorem isClosure_of_ldf (hclosures : ∀ f ∈ closures, o.IsClosure r.store pending f) {block : Sexp}
    {k : Value} {depth : Nat} (hnext : r.Next .ldf [block.value] k) (hheld : o.store.Holds block)
    (hblock : Typed o.outer o.sites (depth + 1) 0 [] .rtn block)
    (hinside : o.Inside r.store pending depth r.env) :
    ∀ f ∈ r.closures closures, o.IsClosure (r.store.cons block.value r.env).2 pending f := by
  have hs := Store.extends_cons r.store block.value r.env
  rw [Registers.closures, Registers.opcode?_of_next hnext, if_pos rfl]
  refine List.forall_mem_cons.2 ⟨⟨?_, block, depth, ?_, hheld, hblock, ?_⟩, ?_⟩
  · rw [Store.size_cons]
    omega
  · rw [Store.cell_cons_size]
  · rw [Store.cell_cons_size]
    exact hinside.passes (o.passes_of_extends hs pending)
  · intro f hf
    exact (hclosures f hf).extends hs

namespace Running

variable {c k : Sexp} {top bottom : List Value} {cells opened : List Nat}
  {depth : Nat} {ending : Ending} {home : Value} {slots : List Slot}

/-- The instruction with which the code begins is next. -/
theorem opcode_eq (h : Running o r c top bottom cells opened depth ending home) {op op' : Opcode}
    {operands : List Sexp} (hcode : c.Begins (op.sexp :: operands) k) (hop : r.opcode? = some op') :
    op = op' :=
  Option.some.inj ((Registers.opcode?_of_next (h.next hcode).1).symm.trans hop)

/-- Pending cells are allocated. -/
theorem lt_size (h : Running o r c top bottom cells opened depth ending home) :
    ∀ c ∈ cells ++ opened, c < r.store.size := by
  intro c hc
  rcases List.mem_append.1 hc with hc | hc
  · exact h.env.lt_size c hc
  · exact h.dump.lt_size c hc

/-- The machine progresses with a plain instruction that changes the values of the running function
and goes on with typed code. -/
theorem progresses (h : Running o r c top bottom cells opened depth ending home)
    (hclosures : ∀ f ∈ closures, o.IsClosure r.store (cells ++ opened) f) {op : Opcode}
    {operands : List Value} (hnext : r.Next op operands k.value) (hop : op.isPlain = true)
    (hk : o.store.Holds k) {s : Store} (hs : r.store.Extends s) {top' : List Value}
    (hcode : Typed o.outer o.sites depth cells.length slots ending k)
    (hslots : List.Forall₂ (o.Fits s (cells ++ opened)) slots top')
    (htransition : Transition r (.proceed ⟨s, top' ++ bottom, r.env, k.value, r.dump⟩)) :
    Progresses o r closures (cells ++ opened) := by
  refine ⟨_, htransition, .proceed ?_⟩
  intro _
  rw [Registers.closures_of_plain hnext hop, Registers.pending_of_plain hnext hop]
  exact ⟨⟨k, top', bottom, cells, opened, depth, ending, home, rfl, h.advance hs hk top',
    .code hcode hslots⟩, fun f hf => (hclosures f hf).extends hs⟩

/-- The machine progresses with a plain instruction that pushes a value, or refuses its operands,
and goes on with typed code. -/
theorem progresses_of_pushes (h : Running o r c top bottom cells opened depth ending home)
    (hclosures : ∀ f ∈ closures, o.IsClosure r.store (cells ++ opened) f) {op : Opcode}
    {operands : List Value} (hnext : r.Next op operands k.value) (hop : op.isPlain = true)
    (hk : o.store.Holds k) {rest : List Value}
    (hcode : Typed o.outer o.sites depth cells.length (.value :: slots) ending k)
    (hslots : List.Forall₂ (o.Fits r.store (cells ++ opened)) slots rest) {e : Effect}
    (htransition : Transition r e) (hpushes : e.Pushes r (rest ++ bottom) k.value) :
    Progresses o r closures (cells ++ opened) := by
  cases hpushes with
  | fault hf => exact progresses_of_fault htransition hf
  | @proceed s v hs =>
    have hfits : List.Forall₂ (o.Fits s (cells ++ opened)) (.value :: slots) (v :: rest) :=
      .cons trivial (Origin.fits_passes hslots (o.passes_of_extends hs _))
    exact h.progresses hclosures hnext hop hk hs hcode hfits htransition

/-! ### Variables, constants and closures -/

/-- The frame that `LD` asks for is there. -/
theorem exists_nth (h : Running o r c top bottom cells opened depth ending home) {index : Nat}
    (hdepth : index < depth + o.outer) : ∃ frame, r.store.nth r.env index = .ok frame := by
  rcases Nat.lt_or_ge index depth with hlt | hle
  · obtain ⟨c, hframe, -⟩ := h.inside.exists_nth hlt
    exact ⟨_, hframe⟩
  · obtain ⟨outerIndex, rfl⟩ := Nat.exists_eq_add_of_le hle
    obtain ⟨frame, hframe, -⟩ := h.loaded h.base outerIndex (by omega)
    exact ⟨frame, h.inside.nth_eq (by omega) hframe⟩

/-- `LD` finds a frame for its address. -/
theorem progresses_ld (h : Running o r c top bottom cells opened depth ending home)
    (hclosures : ∀ f ∈ closures, o.IsClosure r.store (cells ++ opened) f) {operand : Sexp}
    {a : Address} (hcode : c.Begins [Opcode.ld.sexp, operand] k) (hoperand : operand.IsAddress a)
    (hdepth : a.frame < depth + o.outer)
    (hrest : Typed o.outer o.sites depth cells.length (.value :: slots) ending k)
    (hslots : List.Forall₂ (o.Fits r.store (cells ++ opened)) slots top) :
    Progresses o r closures (cells ++ opened) := by
  obtain ⟨hnext, hk, hoperands⟩ := h.next hcode
  have haddress := ((hoperands _ List.mem_cons_self).extends h.base).ofValue_eq hoperand
  obtain ⟨frame, hframe⟩ := h.exists_nth hdepth
  cases hpending : frame.isPending with
  | true =>
    have hop : r.opcode? = some .ld := Registers.opcode?_of_next hnext
    exact ⟨_, .ldPending hnext haddress hframe hpending, .fault ⟨rfl, fun _ => hop, nofun⟩ nofun⟩
  | false =>
    cases hslot : r.store.nth frame a.slot with
    | error e =>
      exact ⟨_, .ldNoSlot hnext haddress hframe hpending hslot,
        .fault ⟨rfl, nofun, fun _ => ⟨a, frame, e, rfl, hframe, hslot⟩⟩ nofun⟩
    | ok v =>
      have htransition := Transition.ld hnext haddress hframe hpending hslot
      rw [h.stack] at htransition
      have hfits : List.Forall₂ (o.Fits r.store (cells ++ opened)) (.value :: slots) (v :: top) :=
        .cons trivial hslots
      exact h.progresses hclosures hnext rfl hk (.refl _) hrest hfits htransition

/-- `LD` finds a callable in an outer frame. -/
theorem progresses_callee (h : Running o r c top bottom cells opened depth ending home)
    (hclosures : ∀ f ∈ closures, o.IsClosure r.store (cells ++ opened) f) {operand : Sexp}
    {a : Address} {p : Primitive} (hcode : c.Begins [Opcode.ld.sexp, operand] k)
    (hoperand : operand.IsAddress a) (houter : depth ≤ a.frame) (hdepth : a.frame < depth + o.outer)
    (hp : Primitive.all[a.slot]? = some p)
    (hrest : Typed o.outer o.sites depth cells.length (.callee p :: slots) ending k)
    (hslots : List.Forall₂ (o.Fits r.store (cells ++ opened)) slots top) :
    Progresses o r closures (cells ++ opened) := by
  obtain ⟨hnext, hk, hoperands⟩ := h.next hcode
  have haddress := ((hoperands _ List.mem_cons_self).extends h.base).ofValue_eq hoperand
  obtain ⟨index, hindex⟩ := Nat.exists_eq_add_of_le houter
  obtain ⟨frame, hframe, hpending, hcallables⟩ := h.loaded h.base index (by omega)
  obtain ⟨identity, hslot⟩ := hcallables a.slot p hp
  have hframe := hindex ▸ h.inside.nth_eq (by omega) hframe
  have htransition := Transition.ld hnext haddress hframe hpending hslot
  rw [h.stack] at htransition
  have hfits : List.Forall₂ (o.Fits r.store (cells ++ opened)) (.callee p :: slots)
      (.callable ⟨identity, p.name, p.arity, p⟩ :: top) := .cons ⟨identity, rfl⟩ hslots
  exact h.progresses hclosures hnext rfl hk (.refl _) hrest hfits htransition

/-- `LDC` pushes a constant. -/
theorem progresses_ldc (h : Running o r c top bottom cells opened depth ending home)
    (hclosures : ∀ f ∈ closures, o.IsClosure r.store (cells ++ opened) f) {value : Sexp}
    {slot : Slot} (hcode : c.Begins [Opcode.ldc.sexp, value] k)
    (hrest : Typed o.outer o.sites depth cells.length (slot :: slots) ending k)
    (hslot : o.Fits r.store (cells ++ opened) slot value.value)
    (hslots : List.Forall₂ (o.Fits r.store (cells ++ opened)) slots top) :
    Progresses o r closures (cells ++ opened) := by
  obtain ⟨hnext, hk, -⟩ := h.next hcode
  have htransition := Transition.ldc hnext
  rw [h.stack] at htransition
  have hfits : List.Forall₂ (o.Fits r.store (cells ++ opened)) (slot :: slots)
      (value.value :: top) := .cons hslot hslots
  exact h.progresses hclosures hnext rfl hk (.refl _) hrest hfits htransition

/-- `LDF` pushes a closure. -/
theorem progresses_ldf (h : Running o r c top bottom cells opened depth ending home)
    (hclosures : ∀ f ∈ closures, o.IsClosure r.store (cells ++ opened) f) {block : Sexp}
    (hcode : c.Begins [Opcode.ldf.sexp, block] k)
    (hblock : Typed o.outer o.sites (depth + 1) 0 [] .rtn block)
    (hrest : Typed o.outer o.sites depth cells.length (.value :: slots) ending k)
    (hslots : List.Forall₂ (o.Fits r.store (cells ++ opened)) slots top) :
    Progresses o r closures (cells ++ opened) := by
  obtain ⟨hnext, hk, hoperands⟩ := h.next hcode
  have hheld := hoperands _ List.mem_cons_self
  have htransition := Transition.ldf hnext
  rw [h.stack] at htransition
  have hs := Store.extends_cons r.store block.value r.env
  refine ⟨_, htransition, .proceed ?_⟩
  intro _
  rw [show r.pending (cells ++ opened) = cells ++ opened by
    rw [Registers.pending, Registers.opcode?_of_next hnext]]
  exact ⟨⟨k, _, bottom, cells, opened, depth, ending, home, rfl,
    h.advance hs hk (.pair r.store.size :: top),
    .code hrest (.cons trivial (Origin.fits_passes hslots (o.passes_of_extends hs _)))⟩,
    isClosure_of_ldf hclosures hnext hheld hblock h.inside⟩

/-! ### Calls and returns -/

/-- A closure is entered with its own environment, and the running function is suspended. -/
theorem wellFormed_call (h : Running o r c top bottom cells opened depth ending home)
    {s : Store} {pending : List Nat} (hs : o.Passes r.store (cells ++ opened) s pending)
    (hbase : o.store.Extends s) (hclosures : ∀ f ∈ closures, o.IsClosure s pending f)
    {env callerEnv : Value} {rest : List Value} {callerCells : List Nat} {callerDepth d : Nat}
    {block : Sexp} (hk : o.store.Holds k)
    (hrest : Typed o.outer o.sites callerDepth callerCells.length (.value :: slots) ending k)
    (hslots : List.Forall₂ (o.Fits r.store (cells ++ opened)) slots rest)
    (hopened : s.Opened callerEnv callerCells home)
    (hcaller : o.Inside s pending callerDepth callerEnv) (hheld : o.store.Holds block)
    (hblock : Typed o.outer o.sites d 0 [] .rtn block) (hinside : o.Inside s pending d env)
    (hpending : callerCells ++ opened = pending) (hsub : pending.Sublist (cells ++ opened)) :
    WellFormed o ⟨s, [], env, block.value, r.dump.push (.call (rest ++ bottom) callerEnv k.value)⟩
      closures pending := by
  subst hpending
  refine ⟨⟨block, [], [], [], callerCells ++ opened, d, .rtn, env, rfl, ?_, .code hblock .nil⟩,
    hclosures⟩
  exact {
    loaded := h.loaded
    base := hbase
    control := rfl
    held := hheld
    stack := rfl
    env := rfl
    inside := hinside
    dump := .call rfl hk hrest (Origin.fits_passes hslots hs) hopened hcaller
      (h.dump.passes hs fun _ => List.mem_append_right _)
    distinct := h.distinct.sublist hsub
    fresh := fun d hd => h.fresh d (hsub.mem hd) }

/-- `AP` finds a closure, a host callable, or an atom that is no function. -/
theorem progresses_ap (h : Running o r c top bottom cells opened depth ending home)
    (hclosures : ∀ f ∈ closures, o.IsClosure r.store (cells ++ opened) f)
    {args : Slot} {count : Nat} (hcode : c.Begins [Opcode.ap.sexp] k)
    (hsite : ⟨c, none, count⟩ ∈ o.sites) (hargs : args.IsArgs)
    (hrest : Typed o.outer o.sites depth cells.length (.value :: slots) ending k)
    (hslots : List.Forall₂ (o.Fits r.store (cells ++ opened)) (.value :: args :: slots) top) :
    Progresses o r closures (cells ++ opened) := by
  obtain ⟨hnext, hk, -⟩ := h.next hcode
  obtain _ | @⟨_, v, _, _, -, _ | @⟨_, list, _, rest, hlist, hslots⟩⟩ := hslots
  have hstack : r.stack = v :: list :: (rest ++ bottom) := h.stack
  cases v with
  | pair f =>
    refine ⟨_, .apClosure hnext hstack, .proceed ?_⟩
    intro happly
    have hf : f ∈ closures := happly (Registers.opcode?_of_next hnext) f _ hstack
    obtain ⟨hlt, block, d, hhead, hheld, hblock, hinside⟩ := hclosures f hf
    have hs := Store.extends_cons r.store list (r.store.cell f).tail
    have hpasses := o.passes_of_extends hs (cells ++ opened)
    have hnew : r.store.size ∉ cells ++ opened := fun hmem => Nat.lt_irrefl _ (h.lt_size _ hmem)
    rw [Registers.closures_of_plain hnext rfl, Registers.pending_of_plain hnext rfl, hhead]
    refine h.wellFormed_call hpasses (h.base.trans hs) (fun f hf => (hclosures f hf).extends hs) hk
      hrest hslots (h.env.extends hs) (h.inside.passes hpasses) hheld hblock
      ⟨r.store.size, rfl, ?_, .inr ?_, ?_⟩ rfl (List.Sublist.refl _)
    · rw [Store.size_cons]
      omega
    · rw [Store.cell_cons_size]
      exact (hlist.isFrame hargs).passes hpasses
    · rw [Store.cell_cons_size]
      exact hinside.passes hpasses
  | atom a =>
    obtain ⟨e, htransition, hpushes | ⟨name, expected, got, rfl⟩⟩ :=
      exists_transition_ap hnext hstack
    · exact h.progresses_of_pushes hclosures hnext rfl hk hrest hslots htransition hpushes
    · exact ⟨_, htransition, .fault ⟨rfl, nofun, nofun⟩ fun _ _ _ => ⟨_, hsite, rfl, h.control⟩⟩

/-- The `AP` of a call by the name of a callable finds the callable, and as many arguments as it
takes. -/
theorem progresses_call (h : Running o r c top bottom cells opened depth ending home)
    (hclosures : ∀ f ∈ closures, o.IsClosure r.store (cells ++ opened) f) {p : Primitive}
    (hcode : c.Begins [Opcode.ap.sexp] k)
    (hrest : Typed o.outer o.sites depth cells.length (.value :: slots) ending k)
    (hslots : List.Forall₂ (o.Fits r.store (cells ++ opened))
      (.callee p :: .items p.arity :: slots) top) :
    Progresses o r closures (cells ++ opened) := by
  obtain ⟨hnext, hk, -⟩ := h.next hcode
  obtain _ | @⟨_, _, _, _, ⟨identity, rfl⟩, _ | @⟨_, list, _, rest, hlist, hslots⟩⟩ := hslots
  obtain ⟨items, hitems, harity⟩ := hlist.exists_toList
  obtain ⟨e, htransition, hpushes⟩ := exists_transition_host hnext h.stack hitems harity
  exact h.progresses_of_pushes hclosures hnext rfl hk hrest hslots htransition hpushes

/-- `RTN` finds the registers of the caller on the dump, and these fit the code of the caller. -/
theorem progresses_rtn (h : Running o r c top bottom cells opened depth .rtn home)
    (hclosures : ∀ f ∈ closures, o.IsClosure r.store (cells ++ opened) f)
    (hcells : cells.length = 0) (hcode : c.Begins [Opcode.rtn.sexp] .nil)
    (hslots : List.Forall₂ (o.Fits r.store (cells ++ opened)) [.value] top) :
    Progresses o r closures (cells ++ opened) := by
  obtain ⟨hnext, -, -⟩ := h.next hcode
  obtain _ | @⟨_, v, _, _, -, _ | _⟩ := hslots
  obtain rfl := List.length_eq_zero_iff.1 hcells
  obtain ⟨loaded, base, control, held, stack, env, inside, dump, distinct, fresh⟩ := h
  cases dump with
  | @call _ rest k callerTop callerBottom callerEnv callerHome _ callerCells callerOpened
      callerEnding callerDepth slots hdump hheld hcaller hslots hopened hinside hrest =>
    refine ⟨_, .rtn hnext stack hdump, .proceed ?_⟩
    intro _
    rw [Registers.closures_of_plain hnext rfl, Registers.pending_of_plain hnext rfl]
    refine ⟨⟨k, v :: callerTop, callerBottom, callerCells, callerOpened, callerDepth, callerEnding,
      callerHome, rfl, ?_, .code hcaller (.cons trivial hslots)⟩, hclosures⟩
    exact ⟨loaded, base, rfl, hheld, rfl, hopened, hinside, hrest, distinct, fresh⟩

/-! ### Recursive bindings -/

/-- `DUM` opens a cell. -/
theorem progresses_dum (h : Running o r c top bottom cells opened depth ending home)
    (hclosures : ∀ f ∈ closures, o.IsClosure r.store (cells ++ opened) f)
    (hcode : c.Begins [Opcode.dum.sexp] k)
    (hrest : Typed o.outer o.sites (depth + 1) (cells.length + 1) slots ending k)
    (hslots : List.Forall₂ (o.Fits r.store (cells ++ opened)) slots top) :
    Progresses o r closures (cells ++ opened) := by
  obtain ⟨hnext, hk, -⟩ := h.next hcode
  have hs := Store.extends_cons r.store .pending r.env
  have hpasses := o.passes_cons r.store (cells ++ opened) .pending r.env
  have hlt : r.store.size < (r.store.cons .pending r.env).2.size := by
    rw [Store.size_cons]
    omega
  refine ⟨_, .dum hnext, .proceed ?_⟩
  intro _
  rw [Registers.closures, Registers.pending, Registers.opcode?_of_next hnext, if_neg nofun]
  refine ⟨⟨k, top, bottom, r.store.size :: cells, opened, depth + 1, ending, home, rfl, ?_,
    .code hrest (Origin.fits_passes hslots hpasses)⟩, ?_⟩
  · refine {
      loaded := h.loaded
      base := h.base.trans hs
      control := rfl
      held := hk
      stack := h.stack
      env := ⟨rfl, hlt, ?_, ?_⟩
      inside := ⟨r.store.size, rfl, hlt, .inl List.mem_cons_self, ?_⟩
      dump := h.dump.passes hpasses fun c hc =>
        List.mem_cons_of_mem _ (List.mem_append_right _ hc)
      distinct := List.nodup_cons.2 ⟨fun hmem => Nat.lt_irrefl _ (h.lt_size _ hmem), h.distinct⟩
      fresh := List.forall_mem_cons.2 ⟨h.base.size_le, h.fresh⟩ }
    · rw [Store.cell_cons_size]
      rfl
    · rw [Store.cell_cons_size]
      exact h.env.extends hs
    · rw [Store.cell_cons_size]
      exact h.inside.passes hpasses
  · intro f hf
    exact (hclosures f hf).passes hpasses fun hf => hf.2 (List.mem_cons_of_mem _ hf.1)

/-- The `LDF` before a `RAP` pushes the closure that this applies. -/
theorem progresses_ldf_rap (h : Running o r c top bottom cells opened (depth + 1) ending home)
    (hclosures : ∀ f ∈ closures, o.IsClosure r.store (cells ++ opened) f) {block d : Sexp}
    {n count : Nat} (hcells : cells.length = n + 1)
    (hcode : c.Begins [Opcode.ldf.sexp, block] d) (hrap : d.Begins [Opcode.rap.sexp] k)
    (hblock : Typed o.outer o.sites (depth + 1) 0 [] .rtn block)
    (hrest : Typed o.outer o.sites depth n (.value :: slots) ending k)
    (hslots : List.Forall₂ (o.Fits r.store (cells ++ opened)) (.items count :: slots) top) :
    Progresses o r closures (cells ++ opened) := by
  obtain ⟨hnext, hd, hoperands⟩ := h.next hcode
  have hheld := hoperands _ List.mem_cons_self
  obtain _ | @⟨_, args, _, rest, hargs, hslots⟩ := hslots
  have htransition := Transition.ldf hnext
  have hs := Store.extends_cons r.store block.value r.env
  have hpasses := o.passes_of_extends hs (cells ++ opened)
  have hafter := h.advance hs hd (.pair r.store.size :: args :: rest)
  have hready : Ready o (r.store.cons block.value r.env).2 (cells ++ opened) r.env (depth + 1)
      cells.length (.pair r.store.size :: args :: rest) ending d := by
    rw [hcells]
    exact .rap hrap (Store.cell_cons_size _ _ _) hheld hblock (hargs.passes hpasses)
      (Origin.fits_passes hslots hpasses) hrest
  have hstack : .pair r.store.size :: r.stack = (.pair r.store.size :: args :: rest) ++ bottom := by
    rw [h.stack]
    rfl
  rcases Nat.eq_zero_or_pos o.outer with houter | houter
  · refine ⟨_, htransition, .proceed ?_⟩
    intro _
    rw [hstack, show r.pending (cells ++ opened) = cells ++ opened by
      rw [Registers.pending, Registers.opcode?_of_next hnext]]
    exact ⟨⟨d, _, bottom, cells, opened, depth + 1, ending, home, rfl, hafter, hready⟩,
      isClosure_of_ldf hclosures hnext hheld hblock (h.inside.of_succ houter)⟩
  · refine ⟨_, htransition, .loop houter hnext rfl ?_ ?_⟩
    · exact Registers.opcode?_of_next (hafter.next hrap).1
    · rw [hstack]
      exact ⟨⟨d, _, bottom, cells, opened, depth + 1, ending, home, rfl, hafter, hready⟩,
        fun f hf => (hclosures f hf).extends hs⟩

/-- `RAP` finds its pending cell at the head of the environment, and closes it. -/
theorem progresses_rap (h : Running o r c top bottom cells opened (depth + 1) ending home)
    (hclosures : ∀ f ∈ closures, o.IsClosure r.store (cells ++ opened) f) {f n count : Nat}
    {args : Value} {rest : List Value} {block : Sexp} (htop : top = .pair f :: args :: rest)
    (hcells : cells.length = n + 1) (hcode : c.Begins [Opcode.rap.sexp] k)
    (hclosure : r.store.cell f = ⟨block.value, r.env⟩) (hheld : o.store.Holds block)
    (hblock : Typed o.outer o.sites (depth + 1) 0 [] .rtn block)
    (hargs : r.store.IsList (cells ++ opened) count args)
    (hslots : List.Forall₂ (o.Fits r.store (cells ++ opened)) slots rest)
    (hrest : Typed o.outer o.sites depth n (.value :: slots) ending k) :
    Progresses o r closures (cells ++ opened) := by
  obtain ⟨hnext, hk, -⟩ := h.next hcode
  subst htop
  obtain ⟨e, cells, rfl⟩ := List.exists_cons_of_length_eq_add_one hcells
  obtain rfl : cells.length = n := Nat.succ.inj hcells
  obtain ⟨henv, hlt, hpending, hopened⟩ := h.env
  have hdistinct : e ∉ cells ++ opened := (List.nodup_cons.1 h.distinct).1
  have hs := Store.evolves_setHead r.store e args
  have hpasses := o.passes_setHead hlt hdistinct hargs
  have hbase : o.store.Extends (r.store.setHead e args) := by
    refine h.base.trans_evolves hs ?_
    intro d hd heq
    have hle : o.store.size ≤ e := h.fresh e List.mem_cons_self
    omega
  have hcaptured : (r.store.cell f).tail = .pair e := by rw [hclosure, henv]
  have htransition := Transition.rap hnext h.stack henv hpending hcaptured
  rw [hclosure] at htransition
  have hinside : o.Inside (r.store.setHead e args) (cells ++ opened) (depth + 1) (.pair e) :=
    henv ▸ h.inside.passes hpasses
  have hclosures' : ∀ g ∈ closures, o.IsClosure (r.store.setHead e args) (cells ++ opened) g := by
    intro g hg
    refine (hclosures g hg).passes hpasses ?_
    rintro ⟨hmem, hnew⟩
    obtain rfl : g = e := (List.mem_cons.1 hmem).resolve_right hnew
    rw [(hclosures g hg).not_pending] at hpending
    cases hpending
  have hafter : r.pending (e :: cells ++ opened) = cells ++ opened := by
    rw [Registers.pending, Registers.opcode?_of_next hnext, henv]
    exact List.erase_cons_head e (cells ++ opened)
  refine ⟨_, htransition, .proceed ?_⟩
  intro _
  rw [show r.closures closures = closures by
    rw [Registers.closures, Registers.opcode?_of_next hnext, if_neg nofun], hafter]
  refine h.wellFormed_call hpasses hbase hclosures' hk hrest hslots (hopened.evolves hs ?_) ?_ hheld
    hblock hinside rfl (List.sublist_cons_self _ _)
  · rintro d hd rfl
    exact hdistinct (List.mem_append_left _ hd)
  · obtain ⟨e', he', -, -, htail⟩ := hinside
    obtain rfl := Value.pair.inj he'
    rw [Store.tail_cell_setHead] at htail
    exact htail

/-! ### Conditionals -/

/-- `SEL` goes on with one of the branches. -/
theorem progresses_sel (h : Running o r c top bottom cells opened depth ending home)
    (hclosures : ∀ f ∈ closures, o.IsClosure r.store (cells ++ opened) f) {yes no : Sexp}
    (hcode : c.Begins [Opcode.sel.sexp, yes, no] k)
    (hyes : Typed o.outer o.sites depth cells.length slots
      (.join depth cells.length (.value :: slots)) yes)
    (hno : Typed o.outer o.sites depth cells.length slots
      (.join depth cells.length (.value :: slots)) no)
    (hrest : Typed o.outer o.sites depth cells.length (.value :: slots) ending k)
    (hslots : List.Forall₂ (o.Fits r.store (cells ++ opened)) (.value :: slots) top) :
    Progresses o r closures (cells ++ opened) := by
  obtain ⟨hnext, hk, hoperands⟩ := h.next hcode
  obtain ⟨hheldYes, hheldNo⟩ := List.forall_mem_cons.1 hoperands
  obtain _ | @⟨_, test, _, rest, -, hslots⟩ := hslots
  obtain ⟨branch, hbranch, hheld, hcode⟩ : ∃ branch,
      (if test.isTrue then yes.value else no.value) = branch.value ∧ o.store.Holds branch ∧
        Typed o.outer o.sites depth cells.length slots
          (.join depth cells.length (.value :: slots)) branch := by
    cases test.isTrue with
    | true => exact ⟨yes, rfl, hheldYes, hyes⟩
    | false => exact ⟨no, rfl, hheldNo _ List.mem_cons_self, hno⟩
  have htransition := Transition.sel hnext h.stack
  rw [hbranch] at htransition
  refine ⟨_, htransition, .proceed ?_⟩
  intro _
  rw [Registers.closures_of_plain hnext rfl, Registers.pending_of_plain hnext rfl]
  refine ⟨⟨branch, rest, bottom, cells, opened, depth, _, home, rfl, ?_, .code hcode hslots⟩,
    hclosures⟩
  exact {
    loaded := h.loaded
    base := h.base
    control := rfl
    held := hheld
    stack := rfl
    env := h.env
    inside := h.inside
    dump := .join rfl hk hrest h.dump
    distinct := h.distinct
    fresh := h.fresh }

/-- `JOIN` goes on after the conditional. -/
theorem progresses_join
    (h : Running o r c top bottom cells opened depth (.join depth cells.length slots) home)
    (hclosures : ∀ f ∈ closures, o.IsClosure r.store (cells ++ opened) f)
    (hcode : c.Begins [Opcode.join.sexp] .nil)
    (hslots : List.Forall₂ (o.Fits r.store (cells ++ opened)) slots top) :
    Progresses o r closures (cells ++ opened) := by
  obtain ⟨hnext, -, -⟩ := h.next hcode
  obtain ⟨loaded, base, control, held, stack, env, inside, dump, distinct, fresh⟩ := h
  cases dump with
  | @join _ rest k _ _ _ ending _ _ _ hdump hheld hrest hdumpRest =>
    refine ⟨_, .join hnext hdump, .proceed ?_⟩
    intro _
    rw [Registers.closures_of_plain hnext rfl, Registers.pending_of_plain hnext rfl]
    refine ⟨⟨k, top, bottom, cells, opened, depth, ending, home, rfl, ?_, .code hrest hslots⟩,
      hclosures⟩
    exact ⟨loaded, base, rfl, hheld, stack, env, inside, hdumpRest, distinct, fresh⟩

/-! ### Operations -/

/-- An operation with one operand replaces the top of the stack. -/
theorem progresses_unary (h : Running o r c top bottom cells opened depth ending home)
    (hclosures : ∀ f ∈ closures, o.IsClosure r.store (cells ++ opened) f) {op : Unary}
    (hcode : c.Begins [(Opcode.unary op).sexp] k)
    (hrest : Typed o.outer o.sites depth cells.length (.value :: slots) ending k)
    (hslots : List.Forall₂ (o.Fits r.store (cells ++ opened)) (.value :: slots) top) :
    Progresses o r closures (cells ++ opened) := by
  obtain ⟨hnext, hk, -⟩ := h.next hcode
  obtain _ | @⟨_, v, _, rest, -, hslots⟩ := hslots
  obtain ⟨e, htransition, hpushes⟩ := exists_transition_unary hnext h.stack
  exact h.progresses_of_pushes hclosures hnext rfl hk hrest hslots htransition hpushes

/-- `CONS` puts a value in front of a list. -/
theorem progresses_push (h : Running o r c top bottom cells opened depth ending home)
    (hclosures : ∀ f ∈ closures, o.IsClosure r.store (cells ++ opened) f) {count : Nat}
    (hcode : c.Begins [(Opcode.binary .cons).sexp] k)
    (hrest : Typed o.outer o.sites depth cells.length (.items (count + 1) :: slots) ending k)
    (hslots :
      List.Forall₂ (o.Fits r.store (cells ++ opened)) (.value :: .items count :: slots) top) :
    Progresses o r closures (cells ++ opened) := by
  obtain ⟨hnext, hk, -⟩ := h.next hcode
  obtain _ | @⟨_, v, _, _, -, _ | @⟨_, list, _, rest, hlist, hslots⟩⟩ := hslots
  have hs := Store.extends_cons r.store v list
  have hpasses := o.passes_of_extends hs (cells ++ opened)
  have hnew : r.store.size ∉ cells ++ opened := fun hmem => Nat.lt_irrefl _ (h.lt_size _ hmem)
  have hfits : List.Forall₂ (o.Fits (r.store.cons v list).2 (cells ++ opened))
      (.items (count + 1) :: slots) (.pair r.store.size :: rest) :=
    .cons (hlist.cons hnew v) (Origin.fits_passes hslots hpasses)
  exact h.progresses hclosures hnext rfl hk hs hrest hfits (.cons hnext h.stack)

/-- An operation with two operands replaces the two values at the top of the stack. -/
theorem progresses_binary (h : Running o r c top bottom cells opened depth ending home)
    (hclosures : ∀ f ∈ closures, o.IsClosure r.store (cells ++ opened) f) {op : Binary}
    (hcode : c.Begins [(Opcode.binary op).sexp] k)
    (hrest : Typed o.outer o.sites depth cells.length (.value :: slots) ending k)
    (hslots : List.Forall₂ (o.Fits r.store (cells ++ opened)) (.value :: .value :: slots) top) :
    Progresses o r closures (cells ++ opened) := by
  obtain ⟨hnext, hk, -⟩ := h.next hcode
  obtain _ | @⟨_, v, _, _, -, _ | @⟨_, w, _, rest, -, hslots⟩⟩ := hslots
  obtain ⟨e, htransition, hpushes⟩ := exists_transition_binary hnext h.stack
  exact h.progresses_of_pushes hclosures hnext rfl hk hrest hslots htransition hpushes

/-- `STOP` finds the result alone on the stack of the program, and nothing suspended. -/
theorem progresses_stop (h : Running o r c top bottom cells opened depth .stop home)
    (hcells : cells.length = 0) (hcode : c.Begins [Opcode.stop.sexp] .nil)
    (hslots : List.Forall₂ (o.Fits r.store (cells ++ opened)) [.value] top) :
    Progresses o r closures (cells ++ opened) := by
  obtain ⟨hnext, -, -⟩ := h.next hcode
  obtain _ | @⟨_, v, _, _, -, _ | _⟩ := hslots
  obtain rfl := List.length_eq_zero_iff.1 hcells
  obtain ⟨loaded, base, control, held, stack, env, inside, dump, distinct, fresh⟩ := h
  have htransition := Transition.stop hnext stack
  cases dump with
  | stop hdump =>
    have hfinal : { r with control := Sexp.nil.value } =
        ⟨r.store, v :: o.bottom, o.env, .nil, #[]⟩ := by
      rw [stack, hdump, show r.env = o.env from env]
      rfl
    rw [hfinal] at htransition
    exact ⟨_, htransition, .stop rfl⟩

end Running

/-- A well-formed machine progresses. -/
theorem WellFormed.progresses (h : WellFormed o r closures pending) :
    Progresses o r closures pending := by
  obtain ⟨⟨c, top, bottom, cells, opened, depth, ending, home, rfl, hrunning, hready⟩,
    hclosures⟩ := h
  generalize hcells : cells.length = n at hready
  cases hready with
  | rap hcode hclosure hheld hblock hargs hslots hrest =>
    exact hrunning.progresses_rap hclosures rfl hcells hcode hclosure hheld hblock hargs
      hslots hrest
  | code hcode hslots =>
    cases hcode with
    | ld hcode hoperand hdepth hrest =>
      subst hcells
      exact hrunning.progresses_ld hclosures hcode hoperand hdepth hrest hslots
    | callee hcode hoperand houter hdepth hp hrest =>
      subst hcells
      exact hrunning.progresses_callee hclosures hcode hoperand houter hdepth hp hrest hslots
    | ldc hcode hrest =>
      subst hcells
      exact hrunning.progresses_ldc hclosures hcode hrest trivial hslots
    | nil hcode hrest =>
      subst hcells
      exact hrunning.progresses_ldc hclosures hcode hrest (Store.isList_nil _ _) hslots
    | push hcode hrest =>
      subst hcells
      exact hrunning.progresses_push hclosures hcode hrest hslots
    | ldf hcode hblock hrest =>
      subst hcells
      exact hrunning.progresses_ldf hclosures hcode hblock hrest hslots
    | ap hcode hsite hargs hrest =>
      subst hcells
      exact hrunning.progresses_ap hclosures hcode hsite hargs hrest hslots
    | call hcode hsite hp hrest =>
      subst hcells
      exact hrunning.progresses_call hclosures hcode hrest hslots
    | dum hcode hrest =>
      subst hcells
      exact hrunning.progresses_dum hclosures hcode hrest hslots
    | rap hcode hrap hblock hrest =>
      exact hrunning.progresses_ldf_rap hclosures hcells hcode hrap hblock hrest hslots
    | sel hcode hyes hno hrest =>
      subst hcells
      exact hrunning.progresses_sel hclosures hcode hyes hno hrest hslots
    | unary hcode hrest =>
      subst hcells
      exact hrunning.progresses_unary hclosures hcode hrest hslots
    | binary hcode hrest =>
      subst hcells
      exact hrunning.progresses_binary hclosures hcode hrest hslots
    | stop hcode => exact hrunning.progresses_stop hcells hcode hslots
    | rtn hcode => exact hrunning.progresses_rtn hclosures hcells hcode hslots
    | join hcode =>
      subst hcells
      exact hrunning.progresses_join hclosures hcode hslots

end Secd
