import Secd.Proofs.Machine.Closed
import Secd.Proofs.Semantics.Primitive

/-!
# Instructions on representations

What single instructions do if the values on the stack represent those on which the evaluator works:
an instruction pushes a value that represents the result of the evaluator, or it faults with the
same kind.
-/

namespace Secd

open Evaluation World

/-- The next instruction answers with the result: it leaves a value that represents it on the given
stack, in a store that has at most been extended, or it faults with the kind of the fault. -/
def Answers (base : Store) (w : World) (r : Registers) (stack : List Value) (k : Value) :
    Except Interruption Meaning → Prop
  | .ok x => ∃ s v, w.store.Extends s ∧ Represents base (w.withStore s) v x ∧
      Transition r (.proceed { r with store := s, stack := v :: stack, control := k })
  | .error (.fault kind) => ∃ f, Transition r (.fault f) ∧ f.kind = kind
  | .error _ => True

variable {base : Store} {w : World} {r : Registers} {stack : List Value} {k v u : Value}

/-- An instruction that leaves the store as it is answers with what its result represents. -/
theorem answers_of_push (hstore : r.store = w.store) {x : Meaning}
    (hx : Represents base w v x)
    (h : Transition r (.proceed { r with stack := v :: stack, control := k })) :
    Answers base w r stack k (.ok x) := by
  refine ⟨w.store, v, .refl _, hx, ?_⟩
  rw [← hstore]
  exact h

/-! ### Variables -/

/-- The frame of a variable is at the place in the environment that its address says. -/
theorem LexicalEnv.exists_frame_of_locate? {env : LexicalEnv} {name : String} {a : Address}
    (h : env.scopes.locate? name = some a) :
    ∃ frame, env[a.frame]? = some frame ∧ env.lookup name = read frame.index a.slot := by
  induction env generalizing a with
  | nil => cases h
  | cons frame outer ih =>
    rw [scopes, List.map_cons, Scopes.locate?] at h
    rw [lookup]
    cases hslot : frame.names.idxOf? name with
    | some slot =>
      rw [hslot] at h
      obtain rfl := Option.some.inj h
      exact ⟨frame, rfl, rfl⟩
    | none =>
      rw [hslot] at h
      obtain ⟨b, hb, rfl⟩ := Option.map_eq_some_iff.1 h
      exact ih hb

/-- The machine finds the cell of a frame at its place in the environment. -/
theorem World.Environment.exists_nth {env : LexicalEnv} (h : w.Environment env v) {i : Nat}
    {frame : LexicalFrame} (hframe : env[i]? = some frame) :
    ∃ c, w.places[frame.index]? = some c ∧ w.store.nth v i = .ok (w.store.cell c).head := by
  suffices hfrom : ∀ index, ∃ c, w.places[frame.index]? = some c ∧
      w.store.nthFrom index i v = .ok (w.store.cell c).head from hfrom i
  intro index
  induction env generalizing v i with
  | nil => cases hframe
  | cons first outer ih =>
    obtain ⟨c, rfl, hplace, -, houter⟩ := h
    cases i with
    | zero =>
      obtain rfl := Option.some.inj hframe
      exact ⟨c, hplace, rfl⟩
    | succ i => exact ih houter hframe

/-- `LD` answers with the value in the slot of a frame. -/
theorem answers_ld (hw : w.Sound base) (hstore : r.store = w.store) {env : LexicalEnv}
    (henv : w.Environment env r.env) {operand : Value} {a : Address} {frame : LexicalFrame}
    (hframe : env[a.frame]? = some frame) (hnext : r.Next .ld [operand] k)
    (haddress : Address.ofValue r.store operand = .ok a) :
    Answers base w r r.stack k (w.memory.value frame.index a.slot) := by
  obtain ⟨c, hplace, hnth⟩ := henv.exists_nth hframe
  obtain ⟨-, -, hvalues⟩ := hw.frame _ c hplace
  rw [← hstore] at hnth
  rw [Memory.value]
  rcases hmemory : w.memory[frame.index]? with _ | _ | xs
  · rw [hmemory] at hvalues
    exact hvalues.elim
  · rw [hmemory] at hvalues
    rw [← hstore] at hvalues
    exact ⟨.pendingFrame, .ldPending hnext haddress hnth hvalues, rfl⟩
  · rw [hmemory] at hvalues
    have hvalues : Represents base w (w.store.cell c).head (.list xs) := hvalues
    have hready := hvalues.not_pending
    rw [← hstore] at hready
    dsimp only
    cases hslot : xs[a.slot]? with
    | some x =>
      obtain ⟨u, hu, hx⟩ := hvalues.nth hslot
      rw [← hstore] at hu
      exact answers_of_push hstore hx (.ld hnext haddress hnth hready hu)
    | none =>
      obtain ⟨e, he⟩ := hvalues.nth_error hslot
      rw [← hstore] at he
      exact ⟨.noSlot a.frame a.slot, .ldNoSlot hnext haddress hnth hready he, rfl⟩

/-! ### Operations -/

/-- A value that is no integer interrupts with a fault. -/
theorem Meaning.asInt_eq_of_ne {x : Meaning} (h : ∀ n, x ≠ .int n) :
    x.asInt = .error (.fault (.typeError .int)) := by
  cases x with
  | atom a =>
    cases a with
    | int n => exact absurd rfl (h n)
    | nil | symbol _ | callable _ => rfl
  | pair _ _ | closure _ _ _ => rfl

/-- An operation with one operand answers with its result. -/
theorem answers_unary (hstore : r.store = w.store) {x : Meaning} (hx : Represents base w v x)
    {op : Unary} (hnext : r.Next (.unary op) [] k) (hstack : r.stack = v :: stack) :
    Answers base w r stack k (op.denote x) := by
  cases x with
  | atom a =>
    obtain rfl := hx
    cases op with
    | atom => exact answers_of_push hstore rfl (.atom hnext hstack)
    | car => exact ⟨_, .carAtom hnext hstack, rfl⟩
    | cdr => exact ⟨_, .cdrAtom hnext hstack, rfl⟩
  | pair head tail =>
    obtain ⟨c, rfl, -, -, hhead, htail⟩ := hx
    rw [← hstore] at hhead htail
    cases op with
    | atom => exact answers_of_push hstore rfl (.atom hnext hstack)
    | car => exact answers_of_push hstore hhead (.car hnext hstack)
    | cdr => exact answers_of_push hstore htail (.cdr hnext hstack)
  | closure params body env =>
    obtain ⟨c, rfl, -⟩ := hx
    cases op with
    | atom => exact answers_of_push hstore rfl (.atom hnext hstack)
    | car | cdr => exact trivial

/-- An arithmetic operation answers with its result; its second operand is on top of the stack. -/
theorem answers_arithmetic (hstore : r.store = w.store) {x y : Meaning}
    (hx : Represents base w v x) (hy : Represents base w u y) {op : Arithmetic}
    (hnext : r.Next (.binary (.arithmetic op)) [] k) (hstack : r.stack = u :: v :: stack) :
    Answers base w r stack k (op.denote x y) := by
  rcases hy.int_or with ⟨b, rfl, rfl⟩ | ⟨hy, hu⟩
  · rcases hx.int_or with ⟨a, rfl, rfl⟩ | ⟨hx, hv⟩
    · by_cases hzero : op.divides = true ∧ b = 0
      · have hresult : op.denote (.int a) (.int b) = .error (.fault .zeroDivision) :=
          if_pos hzero
        rw [hresult]
        exact ⟨_, .arithmeticZero hnext hstack hzero, rfl⟩
      · cases hcompute : op.compute? a b with
        | some n =>
          have hresult : op.denote (.int a) (.int b) = .ok (.int n) :=
            (if_neg hzero).trans (by rw [hcompute])
          rw [hresult]
          exact answers_of_push hstore rfl (.arithmetic hnext hstack hzero hcompute)
        | none =>
          have hresult : op.denote (.int a) (.int b) = .error (.fault .overflow) :=
            (if_neg hzero).trans (by rw [hcompute]; rfl)
          rw [hresult]
          exact ⟨_, .arithmeticOverflow hnext hstack hzero hcompute, rfl⟩
    · rw [Arithmetic.denote, Meaning.asInt_eq_of_ne hx]
      exact ⟨_, .arithmeticFirst hnext hstack hv, rfl⟩
  · rw [Arithmetic.denote, Meaning.asInt_eq_of_ne hy]
    exact ⟨_, .arithmeticSecond hnext hstack hu, rfl⟩

/-- Another operation with two operands answers with its result; its first operand is on top of the
stack. -/
theorem answers_binary (hw : w.Sound base) (hstore : r.store = w.store) (hclosed : r.store.Closed)
    {x y : Meaning} (hx : Represents base w v x) (hy : Represents base w u y) {op : Binary}
    (hop : op.leftFirst = false) (hnext : r.Next (.binary op) [] k)
    (hstack : r.stack = v :: u :: stack) : Answers base w r stack k (op.denote x y) := by
  cases op with
  | arithmetic op => cases hop
  | eq =>
    rw [Binary.denote]
    cases hequal : x.equal? y with
    | none => exact trivial
    | some b =>
      rw [hstore] at hclosed
      have hanswer := hx.equal_eq hy hclosed hequal
      refine answers_of_push hstore (v := .truth b) rfl ?_
      rw [← hanswer, ← hstore]
      exact .eq hnext hstack
  | leq =>
    rcases hx.int_or with ⟨a, rfl, rfl⟩ | ⟨hx, hv⟩
    · rcases hy.int_or with ⟨b, rfl, rfl⟩ | ⟨hy, hu⟩
      · exact answers_of_push hstore rfl (.leq hnext hstack)
      · rw [Binary.denote, Meaning.asInt_eq_of_ne hy]
        exact ⟨_, .leqSecond hnext hstack hu, rfl⟩
    · rw [Binary.denote, Meaning.asInt_eq_of_ne hx]
      exact ⟨_, .leqFirst hnext hstack hv, rfl⟩
  | cons =>
    refine ⟨_, _, Store.extends_cons w.store v u, hw.represents_cons hx hy, ?_⟩
    rw [← hstore]
    exact .cons hnext hstack

/-! ### Calls of the host -/

/-- A host callable extends the store at most by its result, which represents what the callable
denotes. -/
theorem World.Sound.represents_call (hw : w.Sound base) {c : Callable} {vs : List Value}
    {xs : List Meaning} (hall : List.Forall₂ (Represents base w) vs xs)
    (harity : vs.length = c.arity) :
    match c.primitive.denote xs with
    | .ok x => ∃ v s, c.call w.store vs = (.ok v, s) ∧ Represents base (w.withStore s) v x
    | .error (.fault kind) =>
      ∃ message s, c.call w.store vs = (.error message, s) ∧ kind = .hostError message
    | .error _ => True := by
  rw [Callable.call, if_pos harity]
  by_cases hlist : c.primitive = .list
  · rw [hlist]
    exact ⟨_, _, rfl, (hw.represents_list hall).2⟩
  · have hcompute := corresponds_compute hlist hall
    have happly : c.primitive.apply w.store vs = (c.primitive.compute w.store vs, w.store) := by
      rw [Primitive.apply.eq_def]
      split
      · next heq => exact absurd heq hlist
      · rfl
    rw [happly]
    revert hcompute
    cases hdenote : c.primitive.denote xs with
    | ok x =>
      cases c.primitive.compute w.store vs with
      | ok v => exact fun hx => ⟨v, _, rfl, hx⟩
      | error message => exact False.elim
    | error interruption =>
      cases interruption with
      | fault kind =>
        cases c.primitive.compute w.store vs with
        | ok v => exact False.elim
        | error message => exact fun hkind => ⟨message, _, rfl, hkind⟩
      | outside | fuel | malformed => exact fun _ => trivial

/-- `AP` answers with the result of a host callable. -/
theorem answers_call (hw : w.Sound base) (hstore : r.store = w.store) {c : Callable}
    {xs : List Meaning} (hargs : Represents base w v (.list xs)) (hnext : r.Next .ap [] k)
    (hstack : r.stack = .callable c :: v :: stack) :
    Answers base w r stack k (c.denote xs) := by
  obtain ⟨vs, hlist, hall⟩ := hargs.exists_list
  rw [← hstore] at hlist
  have hlength : vs.length = xs.length := hall.length_eq
  by_cases harity : vs.length = c.arity
  · have hdenote : c.denote xs = c.primitive.denote xs := if_pos (hlength ▸ harity)
    have hcall := hw.represents_call hall harity
    rw [hdenote]
    revert hcall
    cases c.primitive.denote xs with
    | ok x =>
      rintro ⟨u, s, hcall, hx⟩
      rw [← hstore] at hcall
      exact ⟨s, u, hstore ▸ Store.extends_call hcall, hx,
        .apHost hnext hstack hlist harity hcall⟩
    | error interruption =>
      cases interruption with
      | fault kind =>
        rintro ⟨message, s, hcall, rfl⟩
        rw [← hstore] at hcall
        exact ⟨_, .apHostError hnext hstack hlist harity hcall, rfl⟩
      | outside | fuel | malformed => exact fun _ => trivial
  · have hdenote : c.denote xs = .error (.fault (.arityError c.arity xs.length)) :=
      if_neg fun h => harity (hlength.trans h)
    rw [hdenote, ← hlength]
    exact ⟨_, .apHostArity hnext hstack hlist harity, rfl⟩

end Secd
