import Secd.Proofs.Machine.Reaches
import Secd.Proofs.Semantics.Answers

/-!
# The machine simulates the evaluator

If the evaluator gives a value to an expression, then the machine gets from the beginning of the
code of the expression to its end, and there is one more value on the stack, which represents that
of the evaluator; if the evaluation is interrupted by a fault, then the machine faults with the same
kind. The world in which the machine arrives has grown from that in which it has begun, by the
frames that the evaluator has added to its memory.

The simulation holds of an evaluator with more fuel if it holds of one with less, because the
evaluator treats the parts of an expression with less fuel than the whole. There is one lemma for
each kind of phrase. One unit of fuel corresponds to at most one entry of the dump.
-/

namespace Secd

open Evaluation World

/-- From the registers `r` the machine leads to the result of a computation: to registers with the
property `Q` and a world that has grown from `w`, or to a fault of the same kind. -/
def Leads {α : Type} (base : Store) (bound : Nat) (w : World) (r : Registers)
    (result : Except Interruption (α × Memory)) (Q : α → World → Registers → Prop) : Prop :=
  match result with
  | .ok (a, memory) => ∃ w' r', Reaches bound r r' ∧ w.Grows w' ∧ w'.Sound base ∧
      w'.memory = memory ∧ r'.store = w'.store ∧ Q a w' r'
  | .error (.fault kind) => ∃ r' f, Reaches bound r r' ∧ Transition r' (.fault f) ∧ f.kind = kind
  | .error _ => True

/-- The registers are those of `r` but for the store, the given stack with one more value, which
represents `x`, and the code `k` in the control. -/
def Returns (base : Store) (r : Registers) (stack : List Value) (k : Sexp) (x : Meaning)
    (w : World) (r' : Registers) : Prop :=
  base.Holds k ∧ ∃ v, Represents base w v x ∧ r' = ⟨w.store, v :: stack, r.env, k.value, r.dump⟩

/-- After a value has been returned, the next instruction is the one with which the code begins. -/
theorem Returns.next {base : Store} {r r' : Registers} {stack : List Value} {c k : Sexp}
    {x : Meaning} {w : World} (h : Returns base r stack c x w r') (hw : w.Sound base)
    {op : Opcode} {operands : List Sexp} (hcode : c.Begins (op.sexp :: operands) k) :
    r'.Next op (operands.map Sexp.value) k.value := by
  obtain ⟨hheld, v, -, rfl⟩ := h
  exact (Registers.next_of_begins (r := ⟨w.store, v :: stack, r.env, c.value, r.dump⟩)
    hw.code hheld rfl hcode).1

/-- The machine is in the world, and is about to run code in an environment. -/
structure Aligned (base : Store) (w : World) (r : Registers) (env : LexicalEnv) (c : Sexp) :
    Prop where
  sound : w.Sound base
  store : r.store = w.store
  closed : r.Closed
  held : base.Holds c
  control : r.control = c.value
  env : w.Environment env r.env

variable {α β : Type} {base : Store} {bound fuel : Nat} {w w₁ : World} {r r₁ : Registers}
  {env : LexicalEnv} {c k : Sexp} {stack : List Value} {v : Value}

/-! ### Sequences -/

namespace Leads

variable {result : Except Interruption (α × Memory)} {Q Q' : α → World → Registers → Prop}

/-- Transitions may come before. -/
theorem of_reaches (h : Reaches bound r r₁) (hrest : Leads base bound w r₁ result Q) :
    Leads base bound w r result Q := by
  match result, hrest with
  | .ok (_, _), ⟨w', r', hreaches, hrest⟩ => exact ⟨w', r', h.trans hreaches, hrest⟩
  | .error (.fault _), ⟨r', f, hreaches, hrest⟩ => exact ⟨r', f, h.trans hreaches, hrest⟩
  | .error .outside, _ | .error .fuel, _ | .error .malformed, _ => exact trivial

/-- One transition may come before. -/
theorem of_transition (h : Transition r (.proceed r₁)) (hdump : r₁.dump.size ≤ bound)
    (hrest : Leads base bound w r₁ result Q) : Leads base bound w r result Q :=
  hrest.of_reaches (.step h hdump (.refl r₁))

/-- The world may have grown before. -/
theorem of_grows (hw : w.Grows w₁) (h : Leads base bound w₁ r result Q) :
    Leads base bound w r result Q := by
  match result, h with
  | .ok (_, _), ⟨w', r', hreaches, hgrows, hrest⟩ =>
    exact ⟨w', r', hreaches, hw.trans hgrows, hrest⟩
  | .error (.fault _), h => exact h
  | .error .outside, _ | .error .fuel, _ | .error .malformed, _ => exact trivial

/-- One computation comes after the other. -/
theorem bind {x : Evaluation α} {f : α → Evaluation β} {Q : α → World → Registers → Prop}
    {Q' : β → World → Registers → Prop} (h : Leads base bound w₁ r (x w₁.memory) Q)
    (hrest : ∀ a w' r', Reaches bound r r' → w₁.Grows w' → w'.Sound base → r'.store = w'.store →
      Q a w' r' → Leads base bound w r' (f a w'.memory) Q') :
    Leads base bound w r ((x >>= f) w₁.memory) Q' := by
  have hbind : (x >>= f) w₁.memory =
      match x w₁.memory with
      | .ok (a, memory) => f a memory
      | .error interruption => .error interruption := by
    simp only [Bind.bind, StateT.bind, Except.bind]
    cases x w₁.memory <;> rfl
  rw [hbind]
  match x w₁.memory, h with
  | .ok (a, _), ⟨w', r', hreaches, hgrows, hsound, rfl, hstore, hQ⟩ =>
    exact (hrest a w' r' hreaches hgrows hsound hstore hQ).of_reaches hreaches
  | .error (.fault _), h => exact h
  | .error .outside, _ | .error .fuel, _ | .error .malformed, _ => exact trivial

/-- A last transition comes after the computation. -/
theorem step (h : Leads base bound w r result Q)
    (hstep : ∀ a w' r', w'.Sound base → r'.store = w'.store → Q a w' r' →
      ∃ r'', Transition r' (.proceed r'') ∧ r''.dump.size ≤ bound ∧ r''.store = w'.store ∧
        Q' a w' r'') : Leads base bound w r result Q' := by
  match result, h with
  | .ok (a, _), ⟨w', r', hreaches, hgrows, hsound, hmemory, hstore, hQ⟩ =>
    obtain ⟨r'', htransition, hdump, hstore', hQ'⟩ := hstep a w' r' hsound hstore hQ
    have hlast : Reaches bound r' r'' := .step htransition hdump (.refl r'')
    exact ⟨w', r'', hreaches.trans hlast, hgrows, hsound, hmemory, hstore', hQ'⟩
  | .error (.fault _), h => exact h
  | .error .outside, _ | .error .fuel, _ | .error .malformed, _ => exact trivial

end Leads

/-! ### Instructions -/

namespace Aligned

/-- The next instruction is the one with which the code begins. -/
theorem next (h : Aligned base w r env c) {op : Opcode} {operands : List Sexp}
    (hcode : c.Begins (op.sexp :: operands) k) :
    r.Next op (operands.map Sexp.value) k.value ∧ base.Holds k ∧
      ∀ x ∈ operands, base.Holds x :=
  r.next_of_begins (h.store ▸ h.sound.code) h.held h.control hcode

/-- An instruction that answers with a result leads to it. -/
theorem leads_of_answers (h : Aligned base w r env c) (hk : base.Holds k)
    (hdump : r.dump.size ≤ bound) {result : Except Interruption Meaning}
    (hanswers : Answers base w r stack k.value result) :
    Leads base bound w r (of result w.memory) (Returns base r stack k) := by
  match result, hanswers with
  | .ok x, ⟨s, v, hs, hx, htransition⟩ =>
    exact ⟨w.withStore s, _, .step htransition hdump (.refl _), grows_withStore hs,
      h.sound.withStore hs, rfl, rfl, hk, v, hx, rfl⟩
  | .error (.fault kind), ⟨f, htransition, hkind⟩ => exact ⟨r, f, .refl r, htransition, hkind⟩
  | .error .outside, _ | .error .fuel, _ | .error .malformed, _ => exact trivial

/-- The machine goes on with the code `k` after an instruction that pushes a value. -/
theorem push (h : Aligned base w r env c) (hk : base.Holds k) {s : Store}
    (hs : w.store.Extends s)
    (htransition : Transition r (.proceed ⟨s, v :: stack, r.env, k.value, r.dump⟩)) :
    Aligned base (w.withStore s) ⟨s, v :: stack, r.env, k.value, r.dump⟩ env k where
  sound := h.sound.withStore hs
  store := rfl
  closed := h.closed.of_transition htransition
  held := hk
  control := rfl
  env := h.env.evolves (grows_withStore hs).toEvolves

end Aligned

/-! ### Evaluators -/

/-- The machine simulates the evaluator if the dump has room for as many entries as there is
fuel. -/
def Simulates (base : Store) (bound fuel : Nat) (ev : Evaluator) : Prop :=
  ∀ ⦃w : World⦄ ⦃r : Registers⦄ ⦃env : LexicalEnv⦄ ⦃e : Sexp⦄ ⦃t : Term⦄ ⦃depth : Nat⦄
    ⦃c k : Sexp⦄ ⦃o : Outline⦄, Term.Resolves env.scopes e t →
      Term.Written (Address.Below Address.limit) depth t c k o → Aligned base w r env c →
        r.dump.size + fuel ≤ bound →
          Leads base bound w r (ev env e w.memory) (Returns base r r.stack k)

variable {ev : Evaluator} {e body : Sexp} {t : Term}

/-- The machine goes on after a computation with the value on the stack that this has led to. -/
theorem Aligned.bind (h : Aligned base w r env c) {x : Evaluation α} {m : α → Meaning}
    (hx : Leads base bound w r (x w.memory) fun a => Returns base r stack k (m a))
    {f : α → Evaluation β} {Q : β → World → Registers → Prop}
    (hrest : ∀ a v w', w.Grows w' → Represents base w' v (m a) →
      Aligned base w' ⟨w'.store, v :: stack, r.env, k.value, r.dump⟩ env k →
        Leads base bound w₁ ⟨w'.store, v :: stack, r.env, k.value, r.dump⟩ (f a w'.memory) Q) :
    Leads base bound w₁ r ((x >>= f) w.memory) Q := by
  refine Leads.bind hx ?_
  intro a w' r' hreaches hgrows hsound _ hreturns
  obtain ⟨hk, v, hv, rfl⟩ := hreturns
  refine hrest a v w' hgrows hv ?_
  exact ⟨hsound, rfl, hreaches.closed h.closed, hk, rfl, h.env.evolves hgrows.toEvolves⟩

/-- The machine evaluates expressions, the last one first, and puts their values in front of the
list on top of the stack. -/
theorem Simulates.all (hev : Simulates base bound fuel ev) {es : List Sexp} {ts : List Term}
    (hresolves : Term.ResolvesAll env.scopes es ts) {depth : Nat} {o : Outline}
    (hwritten : Term.WrittenAll (Address.Below Address.limit) depth ts c k o)
    (h : Aligned base w r env c) (hroom : r.dump.size + fuel ≤ bound)
    (hstack : r.stack = .nil :: stack) :
    Leads base bound w r (ev.all env es w.memory)
      fun xs => Returns base r stack k (.list xs) := by
  induction es generalizing ts k o with
  | nil =>
    cases hresolves
    cases hwritten
    refine ⟨w, r, .refl r, .refl w, h.sound, rfl, h.store, h.held, .nil, rfl, ?_⟩
    rw [← h.store, ← hstack, ← h.control]
  | cons e es ih =>
    cases hresolves with
    | cons hfirst hothers =>
      cases hwritten with
      | cons hwrittenOthers hwrittenFirst hcode =>
        refine h.bind (ih hothers hwrittenOthers) ?_
        intro xs l w₁ hgrows₁ hl h₁
        refine .of_grows hgrows₁ ?_
        refine h₁.bind (hev hfirst hwrittenFirst h₁ hroom) ?_
        intro x v w₂ hgrows₂ hx h₂
        refine .of_grows hgrows₂ ?_
        obtain ⟨hnext, hk, -⟩ := h₂.next hcode
        have hlist := h₂.sound.represents_cons hx (hl.evolves hgrows₂.toEvolves)
        have hs := Store.extends_cons w₂.store v l
        exact ⟨_, _, .step (.cons hnext rfl) (by dsimp only; omega) (.refl _), grows_withStore hs,
          h₂.sound.withStore hs, rfl, rfl, hk, _, hlist, rfl⟩

/-! ### Functions -/

/-- A function returns to the code after its call. -/
theorem Leads.rtn {result : Except Interruption (Meaning × Memory)} {blockEnd : Sexp}
    {dump : Array DumpEntry} {callerEnv : Value} (hk : base.Holds k)
    (hdump : r₁.dump = dump.push (.call stack callerEnv k.value)) (hsize : dump.size ≤ bound)
    (hend : blockEnd.Begins [Opcode.rtn.sexp] .nil) (henv : r.env = callerEnv)
    (hcaller : r.dump = dump)
    (h : Leads base bound w r₁ result (Returns base r₁ [] blockEnd)) :
    Leads base bound w r₁ result (Returns base r stack k) := by
  refine h.step ?_
  intro x w' r' hsound _ hreturns
  have hnext := hreturns.next hsound hend
  obtain ⟨-, v, hx, rfl⟩ := hreturns
  refine ⟨_, .rtn hnext rfl hdump, hsize, rfl, hk, v, hx, ?_⟩
  rw [henv, hcaller]

/-- `AP` leads to the result of a closure. -/
theorem Simulates.enter (hev : Simulates base bound fuel ev) {g : Sexp} {lexical : LexicalEnv}
    (h : Aligned base w r lexical g) (hroom : r.dump.size + fuel < bound)
    (hap : g.Begins [Opcode.ap.sexp] k) {f l : Value} {params : List String}
    (hf : Represents base w f (.closure params body env)) {xs : List Meaning}
    (hl : Represents base w l (.list xs)) (hstack : r.stack = f :: l :: stack) :
    Leads base bound w r (ev.enter params body env xs w.memory) (Returns base r stack k) := by
  obtain ⟨hnext, hk, -⟩ := h.next hap
  obtain ⟨c, rfl, -, -,
    ⟨block, blockEnd, t, _, _, hhead, hheld, hresolves, hwritten, hend⟩, henv⟩ := hf
  have htransition := Transition.apClosure hnext hstack
  have hclosed := h.closed.of_transition htransition
  rw [h.store, hhead] at htransition hclosed
  have hsize : (r.dump.push (.call stack r.env k.value)).size = r.dump.size + 1 :=
    Array.size_push _
  have hframe : w.Frame base l (some (some xs)) := hl
  have hbody : Aligned base (w.allocate (some xs) l (w.store.cell c).tail) _
      (⟨params, w.memory.length⟩ :: env) block :=
    ⟨h.sound.allocate hframe _, rfl, hclosed, hheld, rfl,
      h.sound.environment_allocate henv (some xs) l params⟩
  refine .of_transition htransition (by dsimp only; omega) ?_
  refine .of_grows (grows_allocate w (some xs) l (w.store.cell c).tail) ?_
  refine Leads.rtn hk rfl (by omega) hend rfl rfl ?_
  exact hev hresolves hwritten hbody (by dsimp only; omega)

/-- `AP` leads to the result of a function. -/
theorem Simulates.apply (hev : Simulates base bound fuel ev) {g : Sexp}
    (h : Aligned base w r env g) (hroom : r.dump.size + fuel < bound)
    (hap : g.Begins [Opcode.ap.sexp] k) {f l : Value} {function : Meaning}
    (hf : Represents base w f function) {xs : List Meaning}
    (hl : Represents base w l (.list xs)) (hstack : r.stack = f :: l :: stack) :
    Leads base bound w r (ev.apply function xs w.memory) (Returns base r stack k) := by
  cases function with
  | pair _ _ => exact trivial
  | closure params body lexical => exact hev.enter h hroom hap hf hl hstack
  | atom a =>
    obtain rfl := hf
    obtain ⟨hnext, hk, -⟩ := h.next hap
    cases a with
    | callable c =>
      exact h.leads_of_answers hk (by omega) (answers_call h.sound h.store hl hnext hstack)
    | nil | int _ | symbol _ => exact ⟨r, _, .refl r, .apAtom hnext hstack nofun, rfl⟩

end Secd
