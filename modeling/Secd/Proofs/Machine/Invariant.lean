import Secd.Proofs.Machine.Closed
import Secd.Proofs.Machine.Trajectory

/-!
# Invariants of machines

All that a machine puts into a cell or into a register is an atom, a part of a pair, or a new pair
of values that it had. So what holds of a store and of the values in the registers goes on to hold
if it passes from pairs to their parts and from values to new pairs of them. There is one lemma for
each instruction, put together like the instruction itself. Only `RAP` needs a word of its own,
since it writes to a cell that is there already.
-/

namespace Secd

open Store

/-- A property of stores, together with one of values in a store of a given size. The value of an
atom has it, a value keeps it while the store grows, and it passes from a pair to its parts and to
new pairs. -/
structure Invariant where
  Sound : Store → Prop
  Good : (size : Nat) → Value → Prop
  atom (size : Nat) (a : Atom) : Good size (.atom a)
  mono {size size' : Nat} {v : Value} (hv : Good size v) (hsize : size ≤ size') : Good size' v
  parts {s : Store} {c : Nat} (hs : Sound s) (hc : Good s.size (.pair c)) :
    Good s.size (s.cell c).head ∧ Good s.size (s.cell c).tail
  cons {s : Store} {head tail : Value} (hs : Sound s) (hhead : Good s.size head)
    (htail : Good s.size tail) :
    Sound (s.cons head tail).2 ∧ Good (s.cons head tail).2.size (.pair s.size)

/-- The values that an entry of the dump holds. -/
def DumpEntry.values : DumpEntry → List Value
  | .call stack env control => env :: control :: stack
  | .join control => [control]

/-- The values that the registers of a machine hold. -/
def Machine.values (m : Machine) : List Value :=
  m.env :: m.control :: m.stack ++ m.dump.toList.flatMap DumpEntry.values

/-- The store of the machine is sound, and its registers hold good values. -/
structure Machine.Satisfies (I : Invariant) (m : Machine) : Prop where
  store : I.Sound m.store
  stack : ∀ v ∈ m.stack, I.Good m.store.size v
  env : I.Good m.store.size m.env
  control : I.Good m.store.size m.control
  dump : ∀ entry ∈ m.dump, ∀ v ∈ entry.values, I.Good m.store.size v

namespace Invariant

variable {I : Invariant} {s : Store}

/-! ### Lists of good values -/

/-- An item of a good list is good. -/
theorem nth (hs : I.Sound s) {v item : Value} {index : Nat} (hv : I.Good s.size v)
    (h : s.nth v index = .ok item) : I.Good s.size item := by
  suffices hfrom : ∀ steps, s.nthFrom index steps v = .ok item → I.Good s.size item from
    hfrom index h
  clear h
  intro steps hsteps
  induction steps generalizing v with
  | zero =>
    cases v with
    | atom a => cases a <;> cases hsteps
    | pair c =>
      obtain rfl := Except.ok.inj hsteps
      exact (I.parts hs hv).1
  | succ steps ih =>
    cases v with
    | atom a => cases a <;> cases hsteps
    | pair c => exact ih (I.parts hs hv).2 hsteps

/-- All pairs along a good list are good. -/
theorem spineFrom (hs : I.Sound s) {fuel : Nat} {v : Value} (hv : I.Good s.size v) {seen : List Nat}
    (hseen : ∀ c ∈ seen, I.Good s.size (.pair c)) :
    ∀ c ∈ (s.spineFrom fuel v seen).1, I.Good s.size (.pair c) := by
  induction fuel generalizing v seen with
  | zero =>
    intro c hc
    cases v <;> exact hseen c (List.mem_reverse.1 hc)
  | succ fuel ih =>
    cases v with
    | atom a =>
      intro c hc
      exact hseen c (List.mem_reverse.1 hc)
    | pair d => exact ih (I.parts hs hv).2 (List.forall_mem_cons.2 ⟨hv, hseen⟩)

/-- The items of a good list are good. -/
theorem toList (hs : I.Sound s) {v : Value} (hv : I.Good s.size v) {items : List Value}
    (h : s.toList v = .ok items) : ∀ item ∈ items, I.Good s.size item := by
  have hcells : ∀ c ∈ (s.spine v).1, I.Good s.size (.pair c) := spineFrom hs hv (by simp)
  rw [Store.toList, Store.items] at h
  rcases hspine : s.spine v with ⟨cells, ending⟩
  rw [hspine] at h hcells
  cases ending with
  | nil =>
    obtain rfl := Except.ok.inj h
    intro item hitem
    obtain ⟨c, hc, rfl⟩ := List.mem_map.1 hitem
    exact (I.parts hs (hcells c hc)).1
  | _ => cases h

/-- A new list of good values is good. -/
theorem dotted (hs : I.Sound s) {items : List Value} {tail : Value}
    (hitems : ∀ v ∈ items, I.Good s.size v) (htail : I.Good s.size tail) :
    I.Sound (s.dotted items tail).2 ∧
      I.Good (s.dotted items tail).2.size (s.dotted items tail).1 := by
  induction items with
  | nil => exact ⟨hs, htail⟩
  | cons item items ih =>
    obtain ⟨hitem, hitems⟩ := List.forall_mem_cons.1 hitems
    obtain ⟨hsound, hrest⟩ := ih hitems
    have hle : s.size ≤ (s.dotted items tail).2.size := (extends_dotted s items tail).size_le
    rw [Store.dotted]
    exact I.cons hsound (I.mono hitem hle) hrest

/-- A host callable leaves a sound store, and its result for good arguments is good. -/
theorem call (hs : I.Sound s) (c : Callable) {args : List Value}
    (hargs : ∀ arg ∈ args, I.Good s.size arg) :
    I.Sound (c.call s args).2 ∧
      ∀ v, (c.call s args).1 = .ok v → I.Good (c.call s args).2.size v := by
  rw [Callable.call]
  split
  · rw [Primitive.apply.eq_def]
    split
    · obtain ⟨hsound, hlist⟩ := I.dotted hs hargs (I.atom s.size .nil)
      refine ⟨hsound, fun v hv => ?_⟩
      obtain rfl := Except.ok.inj hv
      exact hlist
    · refine ⟨hs, fun v hv => ?_⟩
      obtain ⟨a, -, rfl⟩ := Primitive.exists_atom_of_compute hv
      exact I.atom s.size a
  · exact ⟨hs, fun v hv => by cases hv⟩

end Invariant

namespace Machine

variable {I : Invariant} {m m' m'' : Machine}

/-- All values in the registers of the machine are good. -/
theorem Satisfies.good_of_mem_values (h : m.Satisfies I) {v : Value} (hv : v ∈ m.values) :
    I.Good m.store.size v := by
  rw [values, List.mem_append, List.mem_cons, List.mem_cons, List.mem_flatMap] at hv
  rcases hv with (rfl | rfl | hv) | ⟨entry, hentry, hv⟩
  · exact h.env
  · exact h.control
  · exact h.stack v hv
  · exact h.dump entry (Array.mem_toList_iff.1 hentry) v hv

/-- Good values stay good in a sound store that is no smaller. -/
theorem Satisfies.withStore (h : m.Satisfies I) {s : Store} (hs : I.Sound s)
    (hsize : m.store.size ≤ s.size) : Satisfies I { m with store := s } where
  store := hs
  stack v hv := I.mono (h.stack v hv) hsize
  env := I.mono h.env hsize
  control := I.mono h.control hsize
  dump entry hentry v hv := I.mono (h.dump entry hentry v hv) hsize

/-- The machine `m'` is one that a part of a step may make of `m`: it satisfies the invariant, its
store is no smaller, and it has the same limits. -/
structure Advances (I : Invariant) (m m' : Machine) : Prop where
  satisfies : m'.Satisfies I
  size_le : m.store.size ≤ m'.store.size
  limits_eq : m'.limits = m.limits

/-- One part of a step after the other. -/
theorem Advances.trans (h : Advances I m m') (k : Advances I m' m'') : Advances I m m'' where
  satisfies := k.satisfies
  size_le := Nat.le_trans h.size_le k.size_le
  limits_eq := k.limits_eq.trans h.limits_eq

/-- Nothing needs to happen. -/
theorem Satisfies.advances (h : m.Satisfies I) : Advances I m m := ⟨h, Nat.le_refl _, rfl⟩

end Machine

namespace Action

open Machine

variable {α β : Type} {I : Invariant} {size : Nat} {m : Machine}

/-- What an action makes of a machine: a result, with a property at the new size of the store, or a
fault. The invariant holds in both cases. -/
inductive Results (I : Invariant) (m : Machine) (Q : Nat → α → Prop) :
    EStateM.Result Fault Machine α → Prop where
  | ok {a : α} {m' : Machine} (h : Advances I m m') (ha : Q m'.store.size a) :
      Results I m Q (.ok a m')
  | error {f : Fault} {m' : Machine} (h : Advances I m m') : Results I m Q (.error f m')

/-- The action keeps the invariant in machines whose stores have at least the given size, and its
results have the property. -/
def Keeps (I : Invariant) (size : Nat) (Q : Nat → α → Prop) (x : Action α) : Prop :=
  ∀ m : Machine, m.Satisfies I → size ≤ m.store.size → Results I m Q (x m)

/-- Nothing is said about the result. -/
abbrev Any (_ : Nat) (_ : α) : Prop := True

/-! ### Putting actions together -/

variable {Q : Nat → α → Prop} {R : Nat → β → Prop}

/-- Actions one after the other keep the invariant if each of them does. -/
theorem Keeps.bind {x : Action α} {f : α → Action β} (hx : Keeps I size Q x)
    (hf : ∀ n, size ≤ n → ∀ a, Q n a → Keeps I n R (f a)) : Keeps I size R (x >>= f) := by
  intro m hm hsize
  rw [bind_apply]
  have hfirst := hx m hm hsize
  generalize x m = r at hfirst
  cases hfirst with
  | @ok a m₁ h ha =>
    have hle : size ≤ m₁.store.size := Nat.le_trans hsize h.size_le
    have hsecond := hf _ hle a ha m₁ h.satisfies (Nat.le_refl _)
    dsimp only
    generalize f a m₁ = r at hsecond
    cases hsecond with
    | ok h' hb => exact .ok (h.trans h') hb
    | error h' => exact .error (h.trans h')
  | error h => exact .error h

/-- A known value changes nothing. -/
theorem keeps_pure {a : α} (ha : ∀ n, size ≤ n → Q n a) : Keeps I size Q (pure a) :=
  fun _ hm hsize => .ok hm.advances (ha _ hsize)

/-- A fault changes nothing. -/
theorem keeps_throw (f : Fault) : Keeps I size Q (throw f) := fun _ hm _ => .error hm.advances

/-- Looking at the machine changes nothing. -/
theorem keeps_read {f : Machine → α}
    (hf : ∀ m : Machine, m.Satisfies I → size ≤ m.store.size → Q m.store.size (f m)) :
    Keeps I size Q (read f) :=
  fun m hm hsize => .ok hm.advances (hf m hm hsize)

/-- Work on the store keeps the invariant if the store stays sound and does not shrink. -/
theorem keeps_withStore {f : Store → α × Store}
    (hf : ∀ s, I.Sound s → size ≤ s.size →
      s.size ≤ (f s).2.size ∧ I.Sound (f s).2 ∧ Q (f s).2.size (f s).1) :
    Keeps I size Q (withStore f) := by
  intro m hm hsize
  obtain ⟨hle, hsound, hresult⟩ := hf m.store hm.store hsize
  exact .ok ⟨hm.withStore hsound hle, hle, rfl⟩ hresult

/-! ### Registers -/

/-- The next item of the control is good. -/
theorem keeps_fetch : Keeps I size (fun n v? => ∀ v, v? = some v → I.Good n v) fetch := by
  intro m hm _
  have hcontrol := hm.control
  unfold fetch
  cases hv : m.control with
  | atom a => exact .ok hm.advances (by simp)
  | pair c =>
    rw [hv] at hcontrol
    obtain ⟨hhead, htail⟩ := I.parts hm.store hcontrol
    refine .ok ⟨{ hm with control := htail }, Nat.le_refl _, rfl⟩ ?_
    rintro v hv
    exact Option.some.inj hv ▸ hhead

/-- An operand is good. -/
theorem keeps_operand (op : Opcode) : Keeps I size I.Good (operand op) := by
  refine keeps_fetch.bind fun n _ v? hv => ?_
  cases v? with
  | none => exact keeps_throw _
  | some v => exact keeps_pure fun k hk => I.mono (hv v rfl) hk

/-- Good values may be pushed. -/
theorem keeps_push {v : Value} (hv : I.Good size v) : Keeps I size Any (push v) := by
  intro m hm hsize
  have hstack := List.forall_mem_cons.2 ⟨I.mono hv hsize, hm.stack⟩
  exact .ok ⟨{ hm with stack := hstack }, Nat.le_refl _, rfl⟩ trivial

/-- Atoms may be pushed. -/
theorem keeps_push_atom (a : Atom) : Keeps I size Any (push (.atom a)) := keeps_push (I.atom size a)

/-- The top of the stack is good. -/
theorem keeps_pop : Keeps I size I.Good pop := by
  intro m hm _
  have hstack := hm.stack
  unfold pop
  cases hv : m.stack with
  | nil => exact .error hm.advances
  | cons v rest =>
    rw [hv] at hstack
    obtain ⟨hv, hrest⟩ := List.forall_mem_cons.1 hstack
    exact .ok ⟨{ hm with stack := hrest }, Nat.le_refl _, rfl⟩ hv

/-- Integers may be taken from the stack. -/
theorem keeps_popInt : Keeps I size Any popInt := by
  refine keeps_pop.bind fun n _ v _ => ?_
  cases v.asInt with
  | ok i => exact keeps_pure fun _ _ => trivial
  | error e => exact keeps_throw _

/-- The machine may jump to good code. -/
theorem keeps_jump {v : Value} (hv : I.Good size v) : Keeps I size Any (jump v) :=
  fun _ hm hsize => .ok ⟨{ hm with control := I.mono hv hsize }, Nat.le_refl _, rfl⟩ trivial

/-- The machine may enter a good environment. -/
theorem keeps_enter {v : Value} (hv : I.Good size v) : Keeps I size Any (enter v) :=
  fun _ hm hsize => .ok ⟨{ hm with env := I.mono hv hsize }, Nat.le_refl _, rfl⟩ trivial

/-- The environment is good. -/
theorem keeps_env : Keeps I size I.Good (read Machine.env) := keeps_read fun _ hm _ => hm.env

/-- A new pair of good values is good. -/
theorem keeps_cons {v w : Value} (hv : I.Good size v) (hw : I.Good size w) :
    Keeps I size I.Good (cons v w) := by
  refine keeps_withStore fun s hs hsize => ?_
  obtain ⟨hsound, hpair⟩ := I.cons hs (I.mono hv hsize) (I.mono hw hsize)
  exact ⟨(extends_cons s v w).size_le, hsound, hpair⟩

/-! ### The dump -/

/-- An entry of good values may be saved. -/
theorem keeps_save {entry : DumpEntry} (hentry : ∀ v ∈ entry.values, I.Good size v) :
    Keeps I size Any (save entry) := by
  intro m hm hsize
  by_cases hfull : m.limits.maxDump ≤ m.dump.size
  · rw [save_of_full entry hfull]
    exact .error hm.advances
  · rw [save_of_room entry hfull]
    refine .ok ⟨{ hm with dump := ?_ }, Nat.le_refl _, rfl⟩ trivial
    intro e he v hv
    rcases Array.mem_push.1 he with he | rfl
    · exact hm.dump e he v hv
    · exact I.mono (hentry v hv) hsize

/-- The top of the dump holds good values. -/
theorem keeps_top : Keeps I size (fun n entry => ∀ v ∈ entry.values, I.Good n v) top := by
  intro m hm _
  unfold top
  cases htop : m.dump.back? with
  | none => exact .error hm.advances
  | some entry => exact .ok hm.advances (hm.dump entry (Array.mem_of_back? htop))

/-- The top of the dump may be removed. -/
theorem keeps_drop : Keeps I size Any drop := by
  intro m hm _
  refine .ok ⟨{ hm with dump := ?_ }, Nat.le_refl _, rfl⟩ trivial
  intro entry hentry
  have hmem : entry ∈ m.dump.toList.dropLast := by
    rw [← Array.toList_pop]
    exact Array.mem_toList_iff.2 hentry
  exact hm.dump entry (Array.mem_toList_iff.1 (List.dropLast_subset _ hmem))

/-- What the stack and the control held is good. -/
theorem keeps_release : Keeps I size
    (fun n held => (∀ v ∈ held.1, I.Good n v) ∧ I.Good n held.2) release := by
  intro m hm _
  have hnil : ∀ v ∈ ([] : List Value), I.Good m.store.size v := by simp
  exact .ok ⟨{ hm with stack := hnil, control := I.atom _ _ }, Nat.le_refl _, rfl⟩
    ⟨hm.stack, hm.control⟩

/-- The registers of a caller may be put back. -/
theorem keeps_restore {stack : List Value} {env control : Value}
    (hstack : ∀ v ∈ stack, I.Good size v) (henv : I.Good size env)
    (hcontrol : I.Good size control) :
    Keeps I size Any (restore stack env control) := by
  intro m hm hsize
  refine .ok ⟨{ hm with stack := ?_, env := I.mono henv hsize, control := I.mono hcontrol hsize },
    Nat.le_refl _, rfl⟩ trivial
  exact fun v hv => I.mono (hstack v hv) hsize

/-- Calls may be counted. -/
theorem keeps_openCall : Keeps I size Any openCall :=
  fun _ hm _ => .ok ⟨{ hm with }, Nat.le_refl _, rfl⟩ trivial

/-- Returns may be counted. -/
theorem keeps_closeCall : Keeps I size Any closeCall :=
  fun _ hm _ => .ok ⟨{ hm with }, Nat.le_refl _, rfl⟩ trivial

/-! ### Instructions -/

/-- `LD` pushes a value from the environment. -/
theorem keeps_ld : Keeps I size Any ld := by
  refine (keeps_operand .ld).bind fun n _ v _ => ?_
  have haddress : Keeps I n Any (read fun m => Address.ofValue m.store v) :=
    keeps_read fun _ _ _ => trivial
  refine haddress.bind fun n _ a? _ => ?_
  cases a? with
  | error e => exact keeps_throw _
  | ok a =>
    have hframe : Keeps I n (fun n frame? => ∀ frame, frame? = .ok frame → I.Good n frame)
        (read fun m => m.store.nth m.env a.frame) :=
      keeps_read fun m hm _ frame h => I.nth hm.store hm.env h
    refine hframe.bind fun n _ frame? hframe => ?_
    cases frame? with
    | error e => exact keeps_throw _
    | ok frame =>
      dsimp only
      split
      · exact keeps_throw _
      · have hslot : Keeps I n (fun n v? => ∀ v, v? = .ok v → I.Good n v)
            (read fun m => m.store.nth frame a.slot) :=
          keeps_read fun m hm hsize v h => I.nth hm.store (I.mono (hframe frame rfl) hsize) h
        refine hslot.bind fun n _ v? hv => ?_
        cases v? with
        | error e => exact keeps_throw _
        | ok v => exact keeps_push (hv v rfl)

/-- `LDC` pushes a constant. -/
theorem keeps_ldc : Keeps I size Any ldc := (keeps_operand .ldc).bind fun _ _ _ hv => keeps_push hv

/-- `LDF` makes a closure. -/
theorem keeps_ldf : Keeps I size Any ldf := by
  refine (keeps_operand .ldf).bind fun n _ body hbody => ?_
  refine keeps_env.bind fun n hn env henv => ?_
  exact (keeps_cons (I.mono hbody hn) henv).bind fun _ _ _ hv => keeps_push hv

/-- What a closure consists of is good. -/
theorem keeps_closure {f : Value} (hf : I.Good size f) :
    Keeps I size (fun n parts => I.Good n parts.head ∧ I.Good n parts.tail) (closure f) := by
  cases f with
  | atom a => exact keeps_throw _
  | pair c => exact keeps_read fun m hm hsize => I.parts hm.store (I.mono hf hsize)

/-- A host callable is applied to good arguments. -/
theorem keeps_callHost (c : Callable) {args : Value} (hargs : I.Good size args) :
    Keeps I size Any (callHost c args) := by
  have hlist : Keeps I size
      (fun n items? => ∀ items, items? = .ok items → ∀ item ∈ items, I.Good n item)
      (read fun m => m.store.toList args) :=
    keeps_read fun m hm hsize items h => I.toList hm.store (I.mono hargs hsize) h
  refine hlist.bind fun n _ items? hitems => ?_
  cases items? with
  | error e => exact keeps_throw _
  | ok items =>
    dsimp only
    split
    · have hcall : Keeps I n (fun n result => ∀ v, result = .ok v → I.Good n v)
          (withStore fun s => c.call s items) := by
        refine keeps_withStore fun s hs hsize => ?_
        obtain ⟨hsound, hresult⟩ :=
          I.call hs c fun arg harg => I.mono (hitems items rfl arg harg) hsize
        exact ⟨(extends_call rfl).size_le, hsound, hresult⟩
      refine hcall.bind fun n _ result hresult => ?_
      cases result with
      | error message => exact keeps_throw _
      | ok v => exact keeps_push (hresult v rfl)
    · exact keeps_throw _

/-- `AP` enters a closure, or applies a host callable. -/
theorem keeps_ap : Keeps I size Any ap := by
  refine keeps_pop.bind fun n _ f hf => ?_
  refine keeps_pop.bind fun n hn args hargs => ?_
  replace hf := I.mono hf hn
  have hcall : Keeps I n Any (do
      let parts ← closure f
      let env ← read Machine.env
      let held ← release
      enter .nil
      save (.call held.1 env held.2)
      enter (← cons args parts.tail)
      jump parts.head
      openCall) := by
    refine (keeps_closure hf).bind fun n₁ h₁ parts hparts => ?_
    refine keeps_env.bind fun n₂ h₂ env henv => ?_
    refine keeps_release.bind fun n₃ h₃ held hheld => ?_
    refine (keeps_enter (I.atom _ _)).bind fun n₄ h₄ _ _ => ?_
    have hentry : ∀ v ∈ (DumpEntry.call held.1 env held.2).values, I.Good n₄ v := by
      have hcaller : I.Good n₄ env := I.mono henv (Nat.le_trans h₃ h₄)
      have hrest : ∀ v ∈ held.1, I.Good n₄ v := fun v hv => I.mono (hheld.1 v hv) h₄
      exact List.forall_mem_cons.2 ⟨hcaller, List.forall_mem_cons.2 ⟨I.mono hheld.2 h₄, hrest⟩⟩
    refine (keeps_save hentry).bind fun n₅ h₅ _ _ => ?_
    have hargs' : I.Good n₅ args := I.mono hargs (by omega)
    have henv' : I.Good n₅ parts.tail := I.mono hparts.2 (by omega)
    refine (keeps_cons hargs' henv').bind fun n₆ h₆ frame hframe => ?_
    refine (keeps_enter hframe).bind fun n₇ h₇ _ _ => ?_
    refine (keeps_jump (I.mono hparts.1 (by omega))).bind fun _ _ _ _ => ?_
    exact keeps_openCall
  cases f with
  | pair c => exact hcall
  | atom a =>
    cases a with
    | callable c => exact keeps_callHost c hargs
    | _ => exact hcall

/-- `RTN` restores the registers of the caller. -/
theorem keeps_rtn : Keeps I size Any rtn := by
  refine keeps_pop.bind fun n _ v hv => ?_
  refine keeps_top.bind fun n hn entry hentry => ?_
  cases entry with
  | join _ => exact keeps_throw _
  | call stack env control =>
    obtain ⟨henv, hrest⟩ := List.forall_mem_cons.1 hentry
    obtain ⟨hcontrol, hstack⟩ := List.forall_mem_cons.1 hrest
    refine keeps_drop.bind fun k hk _ _ => ?_
    have hrestored : ∀ w ∈ v :: stack, I.Good k w :=
      List.forall_mem_cons.2 ⟨I.mono hv (Nat.le_trans hn hk), fun w hw => I.mono (hstack w hw) hk⟩
    refine (keeps_restore hrestored (I.mono henv hk) (I.mono hcontrol hk)).bind fun _ _ _ _ => ?_
    exact keeps_closeCall

/-- `DUM` makes a pending frame. -/
theorem keeps_dum : Keeps I size Any dum := by
  refine keeps_env.bind fun n _ env henv => ?_
  exact (keeps_cons (I.atom n _) henv).bind fun _ _ _ hv => keeps_enter hv

/-- `SEL` goes on with one of the branches. -/
theorem keeps_sel : Keeps I size Any sel := by
  refine (keeps_operand .sel).bind fun n _ yes hyes => ?_
  refine (keeps_operand .sel).bind fun n₁ h₁ no hno => ?_
  refine keeps_pop.bind fun n₂ h₂ test _ => ?_
  have hcontrol : Keeps I n₂ I.Good (read Machine.control) := keeps_read fun _ hm _ => hm.control
  refine hcontrol.bind fun n₃ h₃ rest hrest => ?_
  refine (keeps_jump (I.atom _ _)).bind fun n₄ h₄ _ _ => ?_
  have hentry : ∀ v ∈ (DumpEntry.join rest).values, I.Good n₄ v :=
    List.forall_mem_singleton.2 (I.mono hrest h₄)
  refine (keeps_save hentry).bind fun n₅ h₅ _ _ => keeps_jump ?_
  split
  · exact I.mono hyes (by omega)
  · exact I.mono hno (by omega)

/-- `JOIN` goes on with the code after the conditional. -/
theorem keeps_join : Keeps I size Any join := by
  refine keeps_top.bind fun n _ entry hentry => ?_
  cases entry with
  | call _ _ _ => exact keeps_throw _
  | join control =>
    have hcontrol : I.Good n control := List.forall_mem_singleton.1 hentry
    exact keeps_drop.bind fun k hk _ _ => keeps_jump (I.mono hcontrol hk)

/-- A part of a pair takes its place. -/
theorem keeps_part (op : Unary) {select : Store → Value → Except ValueError Value}
    (hselect : ∀ s v w, I.Sound s → I.Good s.size v → select s v = .ok w → I.Good s.size w) :
    Keeps I size Any (part op select) := by
  refine keeps_pop.bind fun n _ v hv => ?_
  have hpart : Keeps I n (fun n w? => ∀ w, w? = .ok w → I.Good n w)
      (read fun m => select m.store v) :=
    keeps_read fun m hm hsize w h => hselect _ _ _ hm.store (I.mono hv hsize) h
  refine hpart.bind fun n _ w? hw => ?_
  cases w? with
  | error e => exact keeps_throw _
  | ok w => exact keeps_push (hw w rfl)

/-- The operations with one operand push a part of it or an atom. -/
theorem keeps_unary (op : Unary) : Keeps I size Any (unary op) := by
  cases op with
  | car =>
    refine keeps_part .car fun s v w hs hv h => ?_
    cases v with
    | atom a => cases h
    | pair c => exact Except.ok.inj h ▸ (I.parts hs hv).1
  | cdr =>
    refine keeps_part .cdr fun s v w hs hv h => ?_
    cases v with
    | atom a => cases h
    | pair c => exact Except.ok.inj h ▸ (I.parts hs hv).2
  | atom => exact keeps_pop.bind fun _ _ _ _ => keeps_push_atom _

/-- The operations on integers push an atom. -/
theorem keeps_arithmetic (op : Arithmetic) : Keeps I size Any (arithmetic op) := by
  refine keeps_popInt.bind fun _ _ b _ => ?_
  refine keeps_popInt.bind fun _ _ a _ => ?_
  split
  · exact keeps_throw _
  · split
    · exact keeps_push_atom _
    · exact keeps_throw _

/-- The other operations push an atom or a new pair of their operands. -/
theorem keeps_binary (op : Binary) : Keeps I size Any (binary op) := by
  cases op with
  | arithmetic op => exact keeps_arithmetic op
  | eq =>
    refine keeps_pop.bind fun _ _ a _ => ?_
    refine keeps_pop.bind fun n _ b _ => ?_
    have hequal : Keeps I n Any (read fun m => m.store.equal a b) := keeps_read fun _ _ _ => trivial
    exact hequal.bind fun _ _ _ _ => keeps_push_atom _
  | leq =>
    refine keeps_popInt.bind fun _ _ _ _ => ?_
    exact keeps_popInt.bind fun _ _ _ _ => keeps_push_atom _
  | cons =>
    refine keeps_pop.bind fun n _ head hhead => ?_
    refine keeps_pop.bind fun n' hn' tail htail => ?_
    exact (keeps_cons (I.mono hhead hn') htail).bind fun _ _ _ hv => keeps_push hv

/-- `STOP` changes nothing. -/
theorem keeps_stop : Keeps I size Any stop := by
  intro m hm _
  unfold stop
  split
  · exact .ok hm.advances trivial
  · exact .error hm.advances

/-- All instructions other than `RAP` keep the invariant. -/
theorem keeps_execute {op : Opcode} (hop : op ≠ .rap) : Keeps I size Any (execute op) := by
  have hproceed {x : Action Unit} (hx : Keeps I size Any x) :
      Keeps I size Any (do x; pure Flow.proceed) :=
    hx.bind fun _ _ _ _ => keeps_pure fun _ _ => trivial
  cases op with
  | stop => exact keeps_stop
  | ld => exact hproceed keeps_ld
  | ldc => exact hproceed keeps_ldc
  | ldf => exact hproceed keeps_ldf
  | ap => exact hproceed keeps_ap
  | rtn => exact hproceed keeps_rtn
  | dum => exact hproceed keeps_dum
  | rap => exact absurd rfl hop
  | sel => exact hproceed keeps_sel
  | join => exact hproceed keeps_join
  | unary op => exact hproceed (keeps_unary op)
  | binary op => exact hproceed (keeps_binary op)

/-- `RAP` keeps the invariant if the store stays sound when the frame that is next in line is
patched. -/
theorem results_rap (hm : m.Satisfies I)
    (hpatch : ∀ f c args stack, m.Awaits f c args stack → I.Sound (m.store.setHead c args)) :
    Results I m Any (rap m) := by
  by_cases hnone : ∀ f c args stack, ¬ m.Awaits f c args stack
  · obtain ⟨fault, k, hrap⟩ := exists_rap_eq_error hnone
    have hrest : ∀ v ∈ m.stack.drop k, I.Good m.store.size v :=
      fun v hv => hm.stack v (List.mem_of_mem_drop hv)
    rw [hrap]
    exact .error ⟨{ hm with stack := hrest }, Nat.le_refl _, rfl⟩
  · push Not at hnone
    obtain ⟨f, c, args, stack, h⟩ := hnone
    have hstack := hm.stack
    rw [h.stack] at hstack
    obtain ⟨hf, hrest⟩ := List.forall_mem_cons.1 hstack
    obtain ⟨-, hrest⟩ := List.forall_mem_cons.1 hrest
    have hc : I.Good m.store.size (.pair c) := h.env ▸ hm.env
    have hsize : m.store.size ≤ (m.store.setHead c args).size :=
      Nat.le_of_eq (size_setHead m.store c args).symm
    have hpatched := hm.withStore (hpatch f c args stack h) hsize
    have hnil : ∀ v ∈ ([] : List Value), I.Good (m.store.setHead c args).size v := by simp
    rw [h.rap_apply]
    split
    · exact .error ⟨{ hpatched with stack := hnil, control := I.atom _ _ }, hsize, rfl⟩
    · have houter : I.Good m.store.size (m.store.cell c).tail := (I.parts hm.store hc).2
      have hbody : I.Good m.store.size (m.store.cell f).head := (I.parts hm.store hf).1
      refine .ok ⟨{ hpatched with
        stack := hnil, control := I.mono hbody hsize, dump := ?_ }, hsize, rfl⟩ trivial
      intro entry hentry v hv
      rcases Array.mem_push.1 hentry with hentry | rfl
      · exact hpatched.dump entry hentry v hv
      · refine I.mono ?_ hsize
        rcases List.mem_cons.1 hv with rfl | hv
        · exact houter
        · rcases List.mem_cons.1 hv with rfl | hv
          · exact hm.control
          · exact hrest v hv

end Action

namespace Machine

open Secd.Action

variable {I : Invariant} {m : Machine}

/-- A step keeps the invariant if the store stays sound when a frame is patched. -/
theorem advances_next (hm : m.Satisfies I)
    (hpatch : ∀ c args, m.Patches c args → I.Good m.store.size (.pair c) →
      I.Good m.store.size args → I.Sound (m.store.setHead c args)) : Advances I m m.next := by
  rcases m.step_cases with ⟨op, k, hcontrol, hopcode, hstep⟩ | ⟨f, hstep⟩ | ⟨f, k, hcontrol, hstep⟩
  · have hrest : I.Good m.store.size (m.store.cell k).tail :=
      (I.parts hm.store (hcontrol ▸ hm.control)).2
    have hfetched : Satisfies I (m.fetched (m.store.cell k).tail) := { hm with control := hrest }
    have hexecute : Results I (m.fetched (m.store.cell k).tail) Any
        (execute op (m.fetched (m.store.cell k).tail)) := by
      by_cases hop : op = .rap
      · subst hop
        have hrap := results_rap hfetched fun f c args stack h => by
          have hstack := hfetched.stack
          rw [h.stack] at hstack
          have hargs := hstack args (List.mem_cons_of_mem _ List.mem_cons_self)
          exact hpatch c args (patches_of_awaits hopcode hstep h) (h.env ▸ hfetched.env) hargs
        rw [execute, bind_apply]
        generalize rap (m.fetched (m.store.cell k).tail) = r at hrap
        cases hrap with
        | ok h _ => exact .ok h trivial
        | error h => exact .error h
      · exact keeps_execute hop _ hfetched (Nat.le_refl _)
    rw [next, hstep]
    generalize execute op (m.fetched (m.store.cell k).tail) = r at hexecute
    cases hexecute with
    | ok h _ => exact ⟨{ h.satisfies with }, h.size_le, h.limits_eq⟩
    | error h => exact ⟨h.satisfies, h.size_le, h.limits_eq⟩
  · rw [next, hstep]
    exact hm.advances
  · have hrest : I.Good m.store.size (m.store.cell k).tail :=
      (I.parts hm.store (hcontrol ▸ hm.control)).2
    rw [next, hstep]
    exact ⟨{ hm with control := hrest }, Nat.le_refl _, rfl⟩

end Machine

end Secd
