import Secd.Machine.Run
import Secd.Proofs.Store.Parallel

/-!
# Machines that run side by side

Two machines that hold linked values in all their registers do the same: every part of a step either
succeeds in both, with linked results, or it faults in both, with the same fault. This holds for
whatever code the machines find, well formed or not. The parts are put together like the actions
themselves, so that there is one lemma for each part and each instruction.
-/

namespace Secd

open Store

/-- The dump entries are of the same sort and hold linked values. -/
inductive DumpEntry.Linked (base : Bases) (size : Nat) : DumpEntry → DumpEntry → Prop where
  | call {stack stack' : List Value} {env env' control control' : Value}
      (hstack : List.Forall₂ (Store.Linked base size) stack stack')
      (henv : Store.Linked base size env env')
      (hcontrol : Store.Linked base size control control') :
      DumpEntry.Linked base size (.call stack env control) (.call stack' env' control')
  | join {control control' : Value} (hcontrol : Store.Linked base size control control') :
      DumpEntry.Linked base size (.join control) (.join control')

/-- Linked entries stay linked while the stores grow. -/
theorem DumpEntry.Linked.mono {base : Bases} {size size' : Nat} {entry entry' : DumpEntry}
    (h : DumpEntry.Linked base size entry entry') (hsize : size ≤ size') :
    DumpEntry.Linked base size' entry entry' := by
  cases h with
  | call hstack henv hcontrol =>
    exact .call (Linked.mono_list hstack hsize) (henv.mono hsize) (hcontrol.mono hsize)
  | join hcontrol => exact .join (hcontrol.mono hsize)

/-- The machines go on alike: both proceed, or both stop with linked results. -/
inductive Flow.Linked (base : Bases) (size : Nat) : Flow → Flow → Prop where
  | proceed : Flow.Linked base size .proceed .proceed
  | stop {v v' : Value} (hv : Store.Linked base size v v') :
      Flow.Linked base size (.stop v) (.stop v')

/-- Linked results stay linked while the stores grow. -/
theorem Flow.Linked.mono {base : Bases} {size size' : Nat} {flow flow' : Flow}
    (h : Flow.Linked base size flow flow') (hsize : size ≤ size') :
    Flow.Linked base size' flow flow' := by
  cases h with
  | proceed => exact .proceed
  | stop hv => exact .stop (hv.mono hsize)

/-- The machines have stores that have grown out of the bases side by side, linked values in their
registers, and the same counters and limits. -/
structure Machine.Parallel (base : Bases) (m m' : Machine) : Prop where
  store : Store.Parallel base m.store m'.store
  stack : List.Forall₂ (Linked base m.store.size) m.stack m'.stack
  env : Linked base m.store.size m.env m'.env
  control : Linked base m.store.size m.control m'.control
  dump : List.Forall₂ (DumpEntry.Linked base m.store.size) m.dump.toList m'.dump.toList
  limits_eq : m'.limits = m.limits
  stats_eq : m'.stats = m.stats
  pendingCalls_eq : m'.pendingCalls = m.pendingCalls

/-- The machines stay side by side if their stores grow side by side. -/
theorem Machine.Parallel.grow {base : Bases} {m m' : Machine} (h : m.Parallel base m')
    {s s' : Store} (hs : Store.Parallel base s s') (hsize : m.store.size ≤ s.size) :
    Machine.Parallel base { m with store := s } { m' with store := s' } where
  store := hs
  stack := Linked.mono_list h.stack hsize
  env := h.env.mono hsize
  control := h.control.mono hsize
  dump := h.dump.imp fun _ _ hentry => hentry.mono hsize
  limits_eq := h.limits_eq
  stats_eq := h.stats_eq
  pendingCalls_eq := h.pendingCalls_eq

/-- Machines side by side have dumps of the same depth. -/
theorem Machine.Parallel.size_dump_eq {base : Bases} {m m' : Machine} (h : m.Parallel base m') :
    m'.dump.size = m.dump.size := h.dump.length_eq.symm

namespace Action

variable {α β γ δ : Type} {base : Bases} {size : Nat}

/-- Two results of an action on machines whose stores have at least the given size: both are values,
related at the new size of the first store, or both are the same fault. The machines are side by
side. -/
inductive Together (base : Bases) (size : Nat) (R : Nat → α → β → Prop) :
    EStateM.Result Fault Machine α → EStateM.Result Fault Machine β → Prop where
  | ok {a : α} {b : β} {m m' : Machine} (hm : m.Parallel base m') (hsize : size ≤ m.store.size)
      (h : R m.store.size a b) : Together base size R (.ok a m) (.ok b m')
  | error {f : Fault} {m m' : Machine} (hm : m.Parallel base m') :
      Together base size R (.error f m) (.error f m')

/-- Results of machines whose stores have at least some size are such results for a smaller size. -/
theorem Together.of_le {R : Nat → α → β → Prop} {n : Nat}
    {r : EStateM.Result Fault Machine α} {r' : EStateM.Result Fault Machine β}
    (h : Together base n R r r') (hle : size ≤ n) : Together base size R r r' := by
  cases h with
  | ok hm hsize h => exact .ok hm (Nat.le_trans hle hsize) h
  | error hm => exact .error hm

/-- The actions agree on machines side by side whose stores have at least the given size. -/
def Agree (base : Bases) (size : Nat) (R : Nat → α → β → Prop) (x : Action α) (y : Action β) :
    Prop :=
  ∀ m m', m.Parallel base m' → size ≤ m.store.size → Together base size R (x m) (y m')

/-- No value is asked for. -/
abbrev Done (_ : Nat) (_ _ : Unit) : Prop := True

/-! ### Putting actions together -/

variable {R : Nat → α → β → Prop} {Q : Nat → γ → δ → Prop}

/-- Actions agree if their first parts agree and what follows agrees on related values. -/
theorem Agree.bind {x : Action α} {y : Action β} {f : α → Action γ} {g : β → Action δ}
    (hxy : Agree base size R x y)
    (hfg : ∀ n, size ≤ n → ∀ a b, R n a b → Agree base n Q (f a) (g b)) :
    Agree base size Q (x >>= f) (y >>= g) := by
  intro m m' hm hsize
  rw [Machine.bind_apply, Machine.bind_apply]
  have hfirst := hxy m m' hm hsize
  generalize x m = r at hfirst
  generalize y m' = r' at hfirst
  cases hfirst with
  | ok hm₁ hle h => exact (hfg _ hle _ _ h _ _ hm₁ (Nat.le_refl _)).of_le hle
  | error hm₁ => exact .error hm₁

/-- A known value agrees with a related one. -/
theorem agree_pure {a : α} {b : β} (h : ∀ n, size ≤ n → R n a b) :
    Agree base size R (pure a) (pure b) := by
  intro m m' hm hsize
  rw [Machine.pure_apply, Machine.pure_apply]
  exact .ok hm hsize (h _ hsize)

/-- The same fault agrees with itself. -/
theorem agree_throw (f : Fault) : Agree base size R (throw f) (throw f) := by
  intro m m' hm hsize
  rw [Machine.throw_apply, Machine.throw_apply]
  exact .error hm

/-- Values computed from the machines agree if they are related. -/
theorem agree_read {f : Machine → α} {g : Machine → β}
    (h : ∀ m m', m.Parallel base m' → size ≤ m.store.size → R m.store.size (f m) (g m')) :
    Agree base size R (read f) (read g) := by
  intro m m' hm hsize
  rw [Machine.read_apply, Machine.read_apply]
  exact .ok hm hsize (h m m' hm hsize)

/-- Work on the stores agrees if the stores go on growing side by side. -/
theorem agree_withStore {f : Store → α × Store} {g : Store → β × Store}
    (h : ∀ s s', Store.Parallel base s s' → size ≤ s.size → s.size ≤ (f s).2.size ∧
      Store.Parallel base (f s).2 (g s').2 ∧ R (f s).2.size (f s).1 (g s').1) :
    Agree base size R (withStore f) (withStore g) := by
  intro m m' hm hsize
  obtain ⟨hle, hs, hresult⟩ := h m.store m'.store hm.store hsize
  rw [Machine.withStore_apply, Machine.withStore_apply]
  exact .ok (hm.grow hs hle) (Nat.le_trans hsize hle) hresult

/-! ### Registers -/

/-- The next items of the controls are linked. -/
theorem agree_fetch : Agree base size (fun n => Option.Rel (Linked base n)) fetch fetch := by
  intro m m' hm hsize
  have hcontrol := hm.control
  unfold fetch
  generalize m.control = v at hcontrol
  generalize m'.control = v' at hcontrol
  rcases hcontrol.atom_or_pair with ⟨a, rfl, rfl⟩ | ⟨c, c', rfl, rfl⟩
  · exact .ok hm hsize .none
  · obtain ⟨hhead, htail⟩ := hm.store.parts hcontrol
    exact .ok { hm with control := htail } hsize (.some hhead)

/-- The operands of an instruction are linked. -/
theorem agree_operand (op : Opcode) : Agree base size (Linked base) (operand op) (operand op) := by
  refine agree_fetch.bind fun n hn v v' hv => ?_
  cases hv with
  | some hv => exact agree_pure fun k hk => hv.mono hk
  | none => exact agree_throw _

/-- Linked values may be pushed. -/
theorem agree_push {v v' : Value} (hv : Linked base size v v') :
    Agree base size Done (push v) (push v') :=
  fun _ _ hm hsize => .ok { hm with stack := .cons (hv.mono hsize) hm.stack } hsize trivial

/-- The tops of the stacks are linked. -/
theorem agree_pop : Agree base size (Linked base) pop pop := by
  intro m m' hm hsize
  have hstack := hm.stack
  unfold pop
  generalize m.stack = vs at hstack
  generalize m'.stack = vs' at hstack
  cases hstack with
  | nil => exact .error hm
  | cons hv hrest => exact .ok { hm with stack := hrest } hsize hv

/-- The integers on top of the stacks are the same. -/
theorem agree_popInt : Agree base size (fun _ => Eq) popInt popInt := by
  refine agree_pop.bind fun n hn v v' hv => ?_
  rw [hv.eq_of_blind Value.asInt fun _ _ => rfl]
  cases v'.asInt with
  | ok i => exact agree_pure fun _ _ => rfl
  | error e => exact agree_throw _

/-- The machines may jump to linked code. -/
theorem agree_jump {v v' : Value} (hv : Linked base size v v') :
    Agree base size Done (jump v) (jump v') :=
  fun _ _ hm hsize => .ok { hm with control := hv.mono hsize } hsize trivial

/-- The machines may enter linked environments. -/
theorem agree_enter {v v' : Value} (hv : Linked base size v v') :
    Agree base size Done (enter v) (enter v') :=
  fun _ _ hm hsize => .ok { hm with env := hv.mono hsize } hsize trivial

/-- The environments are linked. -/
theorem agree_env : Agree base size (Linked base) (read Machine.env) (read Machine.env) :=
  agree_read fun _ _ hm _ => hm.env

/-- New pairs of linked values are linked. -/
theorem agree_cons {v v' w w' : Value} (hv : Linked base size v v') (hw : Linked base size w w') :
    Agree base size (Linked base) (cons v w) (cons v' w') :=
  agree_withStore fun s _ hs hsize =>
    ⟨(extends_cons s v w).size_le, hs.cons (hv.mono hsize) (hw.mono hsize)⟩

/-! ### The dump -/

/-- Linked entries are put on the dumps, or there is no room for them in either. -/
theorem agree_save {entry entry' : DumpEntry} (hentry : DumpEntry.Linked base size entry entry') :
    Agree base size Done (save entry) (save entry') := by
  intro m m' hm hsize
  have hfull : m'.limits.maxDump ≤ m'.dump.size ↔ m.limits.maxDump ≤ m.dump.size := by
    rw [hm.limits_eq, hm.size_dump_eq]
  by_cases h : m.limits.maxDump ≤ m.dump.size
  · rw [Machine.save_of_full entry h, Machine.save_of_full entry' (hfull.2 h)]
    exact .error hm
  · rw [Machine.save_of_room entry h, Machine.save_of_room entry' fun h' => h (hfull.1 h')]
    refine .ok { hm with dump := ?_ } hsize trivial
    rw [Array.toList_push, Array.toList_push]
    exact List.rel_append hm.dump (.cons (hentry.mono hsize) .nil)

/-- The tops of the dumps are linked. -/
theorem agree_top : Agree base size (DumpEntry.Linked base) top top := by
  intro m m' hm hsize
  have hlast : Option.Rel (DumpEntry.Linked base m.store.size) m.dump.back? m'.dump.back? := by
    have hreverse := List.rel_reverse hm.dump
    rw [← Array.getLast?_toList, ← Array.getLast?_toList, List.getLast?_eq_head?_reverse,
      List.getLast?_eq_head?_reverse]
    generalize m.dump.toList.reverse = entries at hreverse
    generalize m'.dump.toList.reverse = entries' at hreverse
    cases hreverse with
    | nil => exact .none
    | cons hentry _ => exact .some hentry
  unfold top
  generalize m.dump.back? = entry at hlast
  generalize m'.dump.back? = entry' at hlast
  cases hlast with
  | none => exact .error hm
  | some hentry => exact .ok hm hsize hentry

/-- The tops of the dumps may be removed. -/
theorem agree_drop : Agree base size Done drop drop := by
  intro m m' hm hsize
  rw [Machine.drop_apply, Machine.drop_apply]
  refine .ok { hm with dump := ?_ } hsize trivial
  rw [Array.toList_pop, Array.toList_pop, List.dropLast_eq_take, List.dropLast_eq_take,
    ← hm.dump.length_eq]
  exact List.forall₂_take _ hm.dump

/-- What the stacks and the controls held is linked. -/
theorem agree_release : Agree base size (fun n held held' =>
    List.Forall₂ (Linked base n) held.1 held'.1 ∧ Linked base n held.2 held'.2)
      release release := by
  intro m m' hm hsize
  rw [Machine.release_apply, Machine.release_apply]
  exact .ok { hm with stack := .nil, control := .atom .nil } hsize ⟨hm.stack, hm.control⟩

/-- Linked registers of a caller may be put back. -/
theorem agree_restore {stack stack' : List Value} {env env' control control' : Value}
    (hstack : List.Forall₂ (Linked base size) stack stack') (henv : Linked base size env env')
    (hcontrol : Linked base size control control') :
    Agree base size Done (restore stack env control) (restore stack' env' control') := by
  intro m m' hm hsize
  refine .ok ?_ hsize trivial
  exact { hm with
    stack := Linked.mono_list hstack hsize
    env := henv.mono hsize
    control := hcontrol.mono hsize }

/-- The same number of calls is open. -/
theorem agree_openCall : Agree base size Done openCall openCall :=
  fun _ _ hm hsize =>
    .ok { hm with pendingCalls_eq := congrArg (· + 1) hm.pendingCalls_eq } hsize trivial

/-- The same number of calls stays open. -/
theorem agree_closeCall : Agree base size Done closeCall closeCall :=
  fun _ _ hm hsize =>
    .ok { hm with pendingCalls_eq := congrArg (· - 1) hm.pendingCalls_eq } hsize trivial

/-! ### Instructions -/

/-- `LD` finds linked values, or fails in the same way. -/
theorem agree_ld : Agree base size Done ld ld := by
  refine (agree_operand .ld).bind fun n hn v v' hv => ?_
  have haddress : Agree base n (fun _ => Eq) (read fun m => Address.ofValue m.store v)
      (read fun m => Address.ofValue m.store v') :=
    agree_read fun m m' hm hsize => hm.store.ofValue_eq (hv.mono hsize)
  refine haddress.bind fun n' hn' a _ ha => ?_
  obtain rfl := ha
  cases a with
  | error e => exact agree_throw _
  | ok a =>
    have hframe : Agree base n' (fun n => SameResult (Linked base n))
        (read fun m => m.store.nth m.env a.frame) (read fun m => m.store.nth m.env a.frame) :=
      agree_read fun m m' hm _ => hm.store.nth hm.env a.frame
    refine hframe.bind fun k hk frame frame' hframe => ?_
    cases hframe with
    | error e => exact agree_throw _
    | @ok frame frame' hframe =>
      dsimp only
      rw [hframe.eq_of_blind Value.isPending fun _ _ => rfl]
      split
      · exact agree_throw _
      · have hslot : Agree base k (fun n => SameResult (Linked base n))
            (read fun m => m.store.nth frame a.slot) (read fun m => m.store.nth frame' a.slot) :=
          agree_read fun m m' hm hsize => hm.store.nth (hframe.mono hsize) a.slot
        refine hslot.bind fun _ _ w w' hw => ?_
        cases hw with
        | error e => exact agree_throw _
        | ok hw => exact agree_push hw

/-- `LDC` pushes linked constants. -/
theorem agree_ldc : Agree base size Done ldc ldc :=
  (agree_operand .ldc).bind fun _ _ _ _ hv => agree_push hv

/-- `LDF` makes linked closures. -/
theorem agree_ldf : Agree base size Done ldf ldf := by
  refine (agree_operand .ldf).bind fun n hn block block' hblock => ?_
  refine agree_env.bind fun n' hn' env env' henv => ?_
  exact (agree_cons (hblock.mono hn') henv).bind fun _ _ _ _ hv => agree_push hv

/-- What linked closures consist of is linked. -/
theorem agree_closure {f f' : Value} (hf : Linked base size f f') :
    Agree base size (fun n parts parts' => Linked base n parts.head parts'.head ∧
      Linked base n parts.tail parts'.tail) (closure f) (closure f') := by
  rcases hf.atom_or_pair with ⟨a, rfl, rfl⟩ | ⟨c, c', rfl, rfl⟩
  · exact agree_throw _
  · exact agree_read fun m m' hm hsize => hm.store.parts (hf.mono hsize)

/-- A host callable gives linked results for linked arguments, or fails in the same way. -/
theorem agree_callHost (c : Callable) {args args' : Value} (hargs : Linked base size args args') :
    Agree base size Done (callHost c args) (callHost c args') := by
  have hlist : Agree base size (fun n => SameResult (List.Forall₂ (Linked base n)))
      (read fun m => m.store.toList args) (read fun m => m.store.toList args') :=
    agree_read fun m m' hm hsize => hm.store.toList (hargs.mono hsize)
  refine hlist.bind fun n hn list list' hlist => ?_
  cases hlist with
  | error e => exact agree_throw _
  | @ok list list' hitems =>
    dsimp only
    rw [hitems.length_eq]
    split
    · have hcall : Agree base n (fun n => SameResult (Linked base n))
          (withStore fun s => c.call s list) (withStore fun s => c.call s list') :=
        agree_withStore fun s s' hs hsize => c.sameResult_call hs (Linked.mono_list hitems hsize)
      refine hcall.bind fun _ _ v v' hv => ?_
      cases hv with
      | ok hv => exact agree_push hv
      | error message => exact agree_throw _
    · exact agree_throw _

/-- `AP` enters linked closures, or applies the same host callable. -/
theorem agree_ap : Agree base size Done ap ap := by
  refine agree_pop.bind fun n hn f f' hf => ?_
  refine agree_pop.bind fun n' hn' args args' hargs => ?_
  replace hf := hf.mono hn'
  have hcall : Agree base n' Done
      (do
        let parts ← closure f
        let env ← read Machine.env
        let held ← release
        enter .nil
        save (.call held.1 env held.2)
        enter (← cons args parts.tail)
        jump parts.head
        openCall)
      (do
        let parts ← closure f'
        let env ← read Machine.env
        let held ← release
        enter .nil
        save (.call held.1 env held.2)
        enter (← cons args' parts.tail)
        jump parts.head
        openCall) := by
    refine (agree_closure hf).bind fun n₁ h₁ parts parts' hparts => ?_
    refine agree_env.bind fun n₂ h₂ env env' henv => ?_
    refine agree_release.bind fun n₃ h₃ held held' hheld => ?_
    refine (agree_enter (.atom .nil)).bind fun n₄ h₄ _ _ _ => ?_
    have hentry := DumpEntry.Linked.call hheld.1 (henv.mono h₃) hheld.2
    refine (agree_save (hentry.mono h₄)).bind fun n₅ h₅ _ _ _ => ?_
    have hle : n₁ ≤ n₅ := by omega
    refine (agree_cons (hargs.mono (by omega)) (hparts.2.mono hle)).bind fun n₆ h₆ v v' hv => ?_
    refine (agree_enter hv).bind fun n₇ h₇ _ _ _ => ?_
    refine (agree_jump (hparts.1.mono (by omega))).bind fun _ _ _ _ _ => ?_
    exact agree_openCall
  rcases hf.atom_or_pair with ⟨a, rfl, rfl⟩ | ⟨c, c', rfl, rfl⟩
  · cases a with
    | callable c => exact agree_callHost c hargs
    | _ => exact hcall
  · exact hcall

/-- `RTN` restores linked registers. -/
theorem agree_rtn : Agree base size Done rtn rtn := by
  refine agree_pop.bind fun n hn v v' hv => ?_
  refine agree_top.bind fun n' hn' entry entry' hentry => ?_
  cases hentry with
  | join _ => exact agree_throw _
  | call hstack henv hcontrol =>
    refine agree_drop.bind fun k hk _ _ _ => ?_
    have hrestored := (List.Forall₂.cons (hv.mono hn') hstack)
    refine (agree_restore (Linked.mono_list hrestored hk) (henv.mono hk) (hcontrol.mono hk)).bind
      fun _ _ _ _ _ => ?_
    exact agree_closeCall

/-- `DUM` makes the same pending frame. -/
theorem agree_dum : Agree base size Done dum dum := by
  refine agree_env.bind fun n hn env env' henv => ?_
  exact (agree_cons (.atom _) henv).bind fun _ _ _ _ hv => agree_enter hv

/-- The pending cells of linked environments are new, and at the same place. -/
theorem pendingCell?_rel {s s' : Store} {env env' captured captured' : Value}
    (hs : Store.Parallel base s s') (henv : Linked base s.size env env')
    (hcaptured : Linked base s.size captured captured') :
    Option.Rel (fun c c' => base.Aligned c c' ∧ c < s.size) (pendingCell? s env captured)
      (pendingCell? s' env' captured') := by
  rcases henv.atom_or_pair with ⟨a, rfl, rfl⟩ | ⟨c, c', rfl, rfl⟩
  · exact .none
  rcases hcaptured.atom_or_pair with ⟨a, rfl, rfl⟩ | ⟨d, d', rfl, rfl⟩
  · exact .none
  have hpending : (s.cell c).head.isPending = (s'.cell c').head.isPending :=
    (hs.parts henv).1.eq_of_blind Value.isPending fun _ _ => rfl
  rw [pendingCell?, pendingCell?, ← hpending]
  by_cases h : (s.cell c).head.isPending = true
  · obtain ⟨hnew, hlt⟩ := hs.aligned_of_isPending henv h
    have hsame : c = d ↔ c' = d' := by
      cases hcaptured with
      | cell hd _ => exact hnew.eq_iff hd
      | tree hd hd' _ _ =>
        have hlt : d < base.first.size := hd.1
        have hlt' : d' < base.second.size := hd'.1
        have hfirst := hnew.new
        have hsecond := hnew.new_second
        omega
    by_cases hd : c = d
    · rw [if_pos ⟨h, hd⟩, if_pos ⟨h, hsame.1 hd⟩]
      exact .some ⟨hnew, hlt⟩
    · rw [if_neg fun hc => hd hc.2, if_neg fun hc => hd (hsame.2 hc.2)]
      exact .none
  · rw [if_neg fun hc => h hc.1, if_neg fun hc => h hc.1]
    exact .none

/-- `RAP` fills cells at the same place, or faults in both machines. -/
theorem agree_rap : Agree base size Done rap rap := by
  refine agree_pop.bind fun n hn f f' hf => ?_
  refine agree_pop.bind fun n₁ h₁ args args' hargs => ?_
  refine (agree_closure (hf.mono h₁)).bind fun n₂ h₂ parts parts' hparts => ?_
  refine agree_env.bind fun n₃ h₃ env env' henv => ?_
  have hcell : Agree base n₃ (fun n => Option.Rel fun c c' => base.Aligned c c' ∧ c < n)
      (read fun m => pendingCell? m.store env parts.tail)
      (read fun m => pendingCell? m.store env' parts'.tail) :=
    agree_read fun m m' hm hsize =>
      pendingCell?_rel hm.store (henv.mono hsize) (hparts.2.mono (Nat.le_trans h₃ hsize))
  refine hcell.bind fun n₄ h₄ cell? cell?' hcell => ?_
  cases hcell with
  | none => exact agree_throw _
  | @some c c' hcell =>
    obtain ⟨hnew, hlt⟩ := hcell
    have hargs := hargs.mono (show n₁ ≤ n₄ by omega)
    have hfill : Agree base n₄ Done (withStore fun s => ((), s.setHead c args))
        (withStore fun s => ((), s.setHead c' args')) := by
      refine agree_withStore fun s s' hs hsize => ⟨?_, ?_, trivial⟩
      · exact Nat.le_of_eq (size_setHead s c args).symm
      · exact hs.setHead hnew (Nat.lt_of_lt_of_le hlt hsize) (hargs.mono hsize)
    refine hfill.bind fun n₅ h₅ _ _ _ => ?_
    have houter : Agree base n₅ (Linked base) (read fun m => (m.store.cell c).tail)
        (read fun m => (m.store.cell c').tail) :=
      agree_read fun m m' hm hsize =>
        (hm.store.parts (.cell hnew (show c < m.store.size by omega))).2
    refine houter.bind fun n₆ h₆ outer outer' houter => ?_
    refine agree_release.bind fun n₇ h₇ held held' hheld => ?_
    have hentry := DumpEntry.Linked.call hheld.1 (houter.mono h₇) hheld.2
    refine (agree_save hentry).bind fun n₈ h₈ _ _ _ => ?_
    refine (agree_enter (hparts.2.mono (by omega))).bind fun n₉ h₉ _ _ _ => ?_
    refine (agree_jump (hparts.1.mono (by omega))).bind fun _ _ _ _ _ => ?_
    exact agree_openCall

/-- `SEL` goes on with linked branches. -/
theorem agree_sel : Agree base size Done sel sel := by
  refine (agree_operand .sel).bind fun n hn yes yes' hyes => ?_
  refine (agree_operand .sel).bind fun n₁ h₁ no no' hno => ?_
  refine agree_pop.bind fun n₂ h₂ test test' htest => ?_
  have hcontrol : Agree base n₂ (Linked base) (read Machine.control) (read Machine.control) :=
    agree_read fun _ _ hm _ => hm.control
  refine hcontrol.bind fun n₃ h₃ rest rest' hrest => ?_
  refine (agree_jump (.atom .nil)).bind fun n₄ h₄ _ _ _ => ?_
  refine (agree_save (.join (hrest.mono h₄))).bind fun n₅ h₅ _ _ _ => agree_jump ?_
  rw [htest.eq_of_blind Value.isTrue fun _ _ => rfl]
  split
  · exact hyes.mono (by omega)
  · exact hno.mono (by omega)

/-- `JOIN` goes on with linked code. -/
theorem agree_join : Agree base size Done join join := by
  refine agree_top.bind fun n hn entry entry' hentry => ?_
  cases hentry with
  | call _ _ _ => exact agree_throw _
  | join hcontrol => exact agree_drop.bind fun n' hn' _ _ _ => agree_jump (hcontrol.mono hn')

/-- The same parts of linked values are linked. -/
theorem agree_part (op : Unary) {select : Store → Value → Except ValueError Value}
    (hselect : ∀ s s' v v', Store.Parallel base s s' → Linked base s.size v v' →
      SameResult (Linked base s.size) (select s v) (select s' v')) :
    Agree base size Done (part op select) (part op select) := by
  refine agree_pop.bind fun n hn v v' hv => ?_
  have hpart : Agree base n (fun n => SameResult (Linked base n))
      (read fun m => select m.store v) (read fun m => select m.store v') :=
    agree_read fun m m' hm hsize => hselect _ _ _ _ hm.store (hv.mono hsize)
  refine hpart.bind fun _ _ w w' hw => ?_
  cases hw with
  | ok hw => exact agree_push hw
  | error e => exact agree_throw _

/-- The operations with one operand agree. -/
theorem agree_unary (op : Unary) : Agree base size Done (unary op) (unary op) := by
  cases op with
  | car => exact agree_part .car fun _ _ _ _ hs hv => hs.sameHead hv
  | cdr => exact agree_part .cdr fun _ _ _ _ hs hv => hs.sameTail hv
  | atom =>
    refine agree_pop.bind fun n hn v v' hv => ?_
    rw [hv.eq_of_blind Value.isPair fun _ _ => rfl]
    exact agree_push (.atom _)

/-- The operations on integers agree. -/
theorem agree_arithmetic (op : Arithmetic) :
    Agree base size Done (arithmetic op) (arithmetic op) := by
  refine agree_popInt.bind fun n hn b _ hb => ?_
  refine agree_popInt.bind fun n' hn' a _ ha => ?_
  obtain rfl := hb
  obtain rfl := ha
  split
  · exact agree_throw _
  · split
    · exact agree_push (.atom _)
    · exact agree_throw _

/-- The operations with two operands agree. -/
theorem agree_binary (hbase : base.Closed) (op : Binary) :
    Agree base size Done (binary op) (binary op) := by
  cases op with
  | arithmetic op => exact agree_arithmetic op
  | eq =>
    refine agree_pop.bind fun n hn a a' ha => ?_
    refine agree_pop.bind fun n' hn' b b' hb => ?_
    have hequal : Agree base n' (fun _ => Eq) (read fun m => m.store.equal a b)
        (read fun m => m.store.equal a' b') :=
      agree_read fun m m' hm hsize =>
        hm.store.equal_eq hbase (ha.mono (Nat.le_trans hn' hsize)) (hb.mono hsize)
    refine hequal.bind fun _ _ answer _ hanswer => ?_
    obtain rfl := hanswer
    exact agree_push (.atom _)
  | leq =>
    refine agree_popInt.bind fun n hn a _ ha => ?_
    refine agree_popInt.bind fun n' hn' b _ hb => ?_
    obtain rfl := ha
    obtain rfl := hb
    exact agree_push (.atom _)
  | cons =>
    refine agree_pop.bind fun n hn head head' hhead => ?_
    refine agree_pop.bind fun n' hn' tail tail' htail => ?_
    exact (agree_cons (hhead.mono hn') htail).bind fun _ _ _ _ hv => agree_push hv

/-- `STOP` shows linked results. -/
theorem agree_stop : Agree base size (Flow.Linked base) stop stop := by
  intro m m' hm hsize
  have hstack := hm.stack
  unfold stop
  generalize hvs : m.stack = vs at hstack
  generalize hvs' : m'.stack = vs' at hstack
  cases hstack with
  | nil => exact .error hm
  | cons hv _ => exact .ok hm hsize (.stop hv)

/-- All instructions agree. -/
theorem agree_execute (hbase : base.Closed) (op : Opcode) :
    Agree base size (Flow.Linked base) (execute op) (execute op) := by
  have hproceed {x : Action Unit} (hx : Agree base size Done x x) :
      Agree base size (Flow.Linked base) (do x; pure .proceed) (do x; pure .proceed) :=
    hx.bind fun _ _ _ _ _ => agree_pure fun _ _ => .proceed
  cases op with
  | stop => exact agree_stop
  | ld => exact hproceed agree_ld
  | ldc => exact hproceed agree_ldc
  | ldf => exact hproceed agree_ldf
  | ap => exact hproceed agree_ap
  | rtn => exact hproceed agree_rtn
  | dum => exact hproceed agree_dum
  | rap => exact hproceed agree_rap
  | sel => exact hproceed agree_sel
  | join => exact hproceed agree_join
  | unary op => exact hproceed (agree_unary op)
  | binary op => exact hproceed (agree_binary hbase op)

/-! ### The step -/

/-- The limits are reached at the same step. -/
theorem agree_checkLimit : Agree base size Done checkLimit checkLimit := by
  intro m m' hm hsize
  rw [checkLimit, checkLimit, hm.limits_eq, hm.stats_eq]
  split
  · split
    · exact .error hm
    · exact .ok hm hsize trivial
  · exact .ok hm hsize trivial

/-- The same instruction is next. -/
theorem agree_decode : Agree base size (fun _ => Eq) decode decode := by
  refine agree_fetch.bind fun n hn v v' hv => ?_
  cases hv with
  | none => exact agree_throw _
  | @some v v' hv =>
    dsimp only
    rw [hv.eq_of_blind Opcode.ofValue? fun _ _ => rfl]
    split
    · exact agree_pure fun _ _ => rfl
    · have htext : Agree base n (fun _ => Eq) (read fun m => m.store.render v)
          (read fun m => m.store.render v') :=
        agree_read fun _ _ hm hsize => hm.store.render_eq (hv.mono hsize)
      refine htext.bind fun _ _ text _ htext => ?_
      obtain rfl := htext
      exact agree_throw _

/-- A step does the same in both machines. -/
theorem agree_step (hbase : base.Closed) :
    Agree base size (Flow.Linked base) Machine.step Machine.step := by
  refine agree_checkLimit.bind fun n hn _ _ _ => ?_
  refine agree_decode.bind fun n₁ h₁ op _ hop => ?_
  obtain rfl := hop
  have hcount : Agree base n₁ Done countStep countStep := fun m m' hm hsize =>
    .ok { hm with stats_eq := by rw [hm.stats_eq] } hsize trivial
  refine hcount.bind fun n₂ h₂ _ _ _ => ?_
  refine (agree_execute hbase op).bind fun n₃ h₃ flow flow' hflow => ?_
  have hdepth : Agree base n₃ Done countDepth countDepth := fun m m' hm hsize =>
    .ok { hm with stats_eq := by rw [hm.stats_eq, hm.size_dump_eq, hm.pendingCalls_eq] }
      hsize trivial
  exact hdepth.bind fun _ _ _ _ _ => agree_pure fun _ hle => hflow.mono (by omega)

end Action

end Secd
