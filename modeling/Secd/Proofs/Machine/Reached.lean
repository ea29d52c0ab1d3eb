import Secd.Proofs.Datum.Held
import Secd.Proofs.Machine.Loading
import Secd.Proofs.Machine.Retired
import Secd.Proofs.Module.CallSites

/-!
# Runs of compiled programs

A machine that is about to run a compiled program is well formed, and stays so from step to step as
long as `AP` only finds pairs that are closures. So no step of such a run faults because code or
registers are out of shape, and the run leaves the registers as it has found them but for the
result.
-/

namespace Secd

namespace Machine

/-- A run that begins with `start` gets to the machine, and the cells in the list are the closures
that `LDF` has made on the way. All pairs that `AP` has applied so far are among them. -/
inductive Reached (start : Machine) : Machine → (closures : List Nat) → Prop where
  | start : Reached start start []
  | step {m m' : Machine} {closures : List Nat} (h : Reached start m closures)
      (happly : m.registers.AppliesKnown closures) (hstep : step.run m = .ok .proceed m') :
      Reached start m' (m.registers.closures closures)

/-- The machine after some steps, with the closures that `LDF` has made, if `AP` has only applied
these. -/
def reach? (start : Machine) : Nat → Option (Machine × List Nat)
  | 0 => some (start, [])
  | n + 1 =>
    match start.reach? n with
    | some (m, closures) =>
      if m.registers.AppliesKnown closures then
        match step.run m with
        | .ok .proceed m' => some (m', m.registers.closures closures)
        | _ => none
      else none
    | none => none

variable {o : Origin} {m m' : Machine} {closures : List Nat}

/-- Such a machine is reached. -/
theorem reached_of_reach? {start : Machine} {n : Nat} (h : start.reach? n = some (m, closures)) :
    Reached start m closures := by
  induction n generalizing m closures with
  | zero =>
    obtain ⟨rfl, rfl⟩ := Prod.mk.inj (Option.some.inj h)
    exact .start
  | succ n ih =>
    rw [reach?] at h
    split at h
    · next m₁ closures₁ hreach =>
      split at h
      · next happly =>
        split at h
        · next m₂ hstep =>
          obtain ⟨rfl, rfl⟩ := Prod.mk.inj (Option.some.inj h)
          exact .step (ih hreach) happly hstep
        · cases h
      · cases h
    · cases h

/-! ### Steps of well-formed machines -/

/-- The machine fits the origin, with these pending cells. Of the closures that `LDF` has made so
far, some are closures for `AP`, and the others are retired. Unless the origin has no frames, the
machine is closed. -/
structure Fits (o : Origin) (m : Machine) (closures pending : List Nat) : Prop where
  wellFormed : ∃ live,
    WellFormed o m.registers live pending ∧ ∀ f ∈ closures, f ∈ live ∨ m.Retired f
  closed : 0 < o.outer → m.registers.Closed

/-- A step of a machine that fits the origin leaves it so. -/
theorem Fits.of_step {pending : List Nat} (h : Fits o m closures pending)
    (happly : m.registers.AppliesKnown closures) (hstep : step.run m = .ok .proceed m') :
    Fits o m' (m.registers.closures closures) (m.registers.pending pending) := by
  obtain ⟨⟨live, hwellFormed, hclosures⟩, hclosed⟩ := h
  obtain ⟨e, htransition, hsafe⟩ := hwellFormed.progresses
  have heffect := effect_of_proceed htransition hstep
  have hclosed' (houter : 0 < o.outer) : m'.registers.Closed :=
    (hclosed houter).of_transition (heffect ▸ htransition)
  generalize hr : m'.registers = r at heffect
  subst heffect
  cases hsafe with
  | proceed hafter =>
    subst hr
    refine ⟨⟨_, hafter ?_, ?_⟩, hclosed'⟩
    · intro hop f stack hstack
      refine (hclosures f (happly hop f stack hstack)).resolve_right fun hretired => ?_
      exact hretired.ne_of_ap hop hstack rfl
    · intro f hf
      rw [Registers.closures] at hf ⊢
      by_cases hop : m.registers.opcode? = some .ldf
      · rw [if_pos hop] at hf ⊢
        rcases List.mem_cons.1 hf with rfl | hf
        · exact .inl List.mem_cons_self
        · exact (hclosures f hf).imp (List.mem_cons_of_mem _) fun hf => hf.of_step hstep
      · rw [if_neg hop] at hf ⊢
        exact (hclosures f hf).imp_right fun hf => hf.of_step hstep
  | loop houter hnext hr' hrap hafter =>
    subst hr
    have hop := Registers.opcode?_of_next hnext
    have hretired := retired_of_ldf (hclosed houter) hnext hr' hrap
    rw [Registers.closures, Registers.pending, hop, if_pos rfl]
    refine ⟨⟨live, hafter, List.forall_mem_cons.2 ⟨.inr hretired, fun f hf => ?_⟩⟩, hclosed'⟩
    exact (hclosures f hf).imp_right fun hf => hf.of_step hstep

variable {live pending : List Nat}

/-- A fault of a well-formed machine is benign, and a wrong number of arguments is that of an
indirect call. -/
theorem isBenign_of_step (h : WellFormed o m.registers live pending) {f : Fault}
    (hstep : step.run m = .error f m') : f.IsBenign m.registers ∧
      ∀ expected got, f.kind = .arityError expected got → o.IsIndirect m.registers := by
  obtain ⟨e, htransition, hsafe⟩ := h.progresses
  rcases effect_of_fault htransition hstep with hcut | rfl
  · cases hcut with
    | steps _ hfault =>
      cases hfault.symm.trans hstep
      exact ⟨⟨rfl, nofun, nofun⟩, nofun⟩
    | dump _ hfault =>
      cases hfault.symm.trans hstep
      exact ⟨⟨rfl, nofun, nofun⟩, nofun⟩
  · cases hsafe with
    | fault hbenign harity => exact ⟨hbenign, harity⟩

/-- A well-formed machine that stops has the result on top of the values with which the run began,
in the environment with which it began. No cell is pending. -/
theorem registers_eq_of_stop (h : WellFormed o m.registers live pending) {v : Value}
    (hstep : step.run m = .ok (.stop v) m') :
    m'.registers = ⟨m'.store, v :: o.bottom, o.env, .nil, #[]⟩ ∧ pending = [] := by
  obtain ⟨e, htransition, hsafe⟩ := h.progresses
  have heffect := effect_of_stop htransition hstep
  have hstore : m'.store = m'.registers.store := rfl
  rw [hstore]
  generalize m'.registers = r at heffect
  subst heffect
  cases hsafe with
  | stop hpending => exact ⟨rfl, hpending⟩

/-- All machines of a run fit the origin if the first one does. -/
theorem Reached.fits {start : Machine} (h : Reached start m closures)
    (hstart : Fits o start [] []) : ∃ pending, Fits o m closures pending := by
  induction h with
  | start => exact ⟨[], hstart⟩
  | step _ happly hstep ih =>
    obtain ⟨pending, hfits⟩ := ih
    exact ⟨_, hfits.of_step happly hstep⟩

/-! ### Compiled programs -/

/-- What is below the values of a program of the given shape, if the machine has been loaded with
these arguments: a program that is applied to the arguments takes them from the stack. -/
def leftover (args : Value) : Shape → List Value
  | .expression => [args]
  | .applied => []

/-- What a run of the module with these arguments starts from, if the last `outer` frames of the
environment are not counted as frames of the program. -/
def origin (m : Module) (args : Value) (limits : Limits) (s : Store) (outer : Nat)
    (sites : List CallSite) : Origin where
  store := (ofModule m args limits s).store
  env := (ofModule m args limits s).env
  bottom := leftover args m.shape
  args := args
  outer := outer
  sites := sites

section

variable {s s₂ : Store} {e : Sexp} {shape : Shape} {prelude : Option Prelude} {program : Module}
  {t : Term} {ending : Sexp} {depth outer : Nat} {sites : List CallSite}

/-- The code of a compiled program is typed. -/
theorem exists_typed_of_sited (h : Term.Admissible s Address.limit (depth + outer) t)
    (hsited : program.Sited depth t sites)
    (hsaturated : 0 < outer → ∀ site ∈ sites, site.Saturated) (o : Origin) :
    ∃ slots top, top ++ leftover o.args program.shape = [o.args] ∧
      Typed outer sites depth 0 slots .stop program.code ∧
        ∀ s pending, List.Forall₂ (o.Fits s pending) slots top := by
  obtain ⟨own, ending, hwritten, hends, rfl⟩ := hsited.written
  have htyped {slots : List Slot}
      (hend : Typed outer (own.sites ++ Module.lastSites program.shape ending) depth 0
        (.value :: slots) .stop ending) :
      Typed outer (own.sites ++ Module.lastSites program.shape ending) depth 0 slots .stop
        program.code :=
    h.typedBefore hsaturated depth rfl hwritten (List.subset_append_left _ _) hend
  cases hshape : program.shape with
  | expression =>
    rw [hshape] at hends htyped
    exact ⟨[], [], rfl, htyped (.stop hends), fun _ _ => .nil⟩
  | applied =>
    rw [hshape] at hends htyped
    obtain ⟨stop, hap, hstop⟩ := Sexp.Begins.append [Opcode.ap.sexp] hends
    have hsite : ⟨ending, none, 0⟩ ∈ own.sites ++ Module.lastSites .applied ending :=
      List.mem_append_right _ List.mem_cons_self
    exact ⟨[.given], [o.args], rfl, htyped (.ap hap hsite .given (.stop hstop)),
      fun _ _ => .cons rfl .nil⟩

/-- A machine that is about to run a compiled program is well formed, whether the frame of the
prelude is counted as one of the program or not. -/
theorem wellFormed_ofModule (h : Module.Compiled s e shape prelude program t ending)
    (hprelude : Prelude.IsStandard prelude) (hs : s.Extends s₂)
    (htotal : (Prelude.scopes prelude).length = depth + outer) (hsplit : depth = 0 ∨ outer = 0)
    (hsited : program.Sited depth t sites)
    (hsaturated : 0 < outer → ∀ site ∈ sites, site.Saturated) (args : Value) (limits : Limits) :
    WellFormed (origin program args limits s₂ outer sites)
      (ofModule program args limits s₂).registers [] [] := by
  obtain ⟨s₃, env, hextends, henv, hregisters⟩ := exists_registers_ofModule program args limits s₂
  have horigin : origin program args limits s₂ outer sites =
      ⟨s₃, env, leftover args program.shape, args, outer, sites⟩ := by
    rw [origin, show (ofModule program args limits s₂).store = s₃ from
      congrArg Registers.store hregisters, show (ofModule program args limits s₂).env = env from
      congrArg Registers.env hregisters]
  rw [horigin, hregisters]
  obtain ⟨slots, top, htop, htyped, hslots⟩ := exists_typed_of_sited (htotal ▸ h.admissible) hsited
    hsaturated ⟨s₃, env, leftover args program.shape, args, outer, sites⟩
  have hheld : 0 < depth + outer → s₃.HoldsPrelude env ∧ depth + outer = 1 := by
    rw [← htotal, hprelude.scopes_eq, ← h.usesPrelude]
    intro hpos
    split at hpos
    · next huses =>
      rw [if_pos huses] at henv ⊢
      exact ⟨henv, rfl⟩
    · cases hpos
  refine ⟨⟨program.code, top, leftover args program.shape, [], [], depth, .stop, env, rfl, ?_,
    .code htyped (hslots _ _)⟩, List.forall_mem_nil _⟩
  exact {
    loaded := by
      intro s' hs' index (hindex : index < outer)
      obtain ⟨hprelude, hone⟩ := hheld (by omega)
      obtain rfl : index = 0 := by omega
      exact hprelude.exists_nth hs'
    base := .refl _
    control := rfl
    held := h.held.extends (hs.trans hextends)
    stack := htop.symm
    env := rfl
    inside := by
      rcases hsplit with rfl | rfl
      · exact fun _ => rfl
      · cases depth with
        | zero => exact fun _ => rfl
        | succ depth =>
          obtain ⟨⟨c, frame, cells, rfl, hc, hcell, hchain, -⟩, hone⟩ := hheld (by omega)
          obtain rfl : depth = 0 := by omega
          refine ⟨c, rfl, hc, .inr (.inr ⟨_, cells, ?_, rfl, fun _ _ => List.not_mem_nil⟩), nofun⟩
          rw [hcell]
          exact hchain
    dump := .stop rfl
    distinct := List.nodup_nil
    fresh := List.forall_mem_nil _ }

end

/-- Compiled code never goes structurally wrong. In every machine that a run of a compiled program
gets to, as long as `AP` only applies pairs that are closures, a fault of the next step is benign;
and if the next step stops, then the dump and the control are empty, the environment is the initial
one, and the stack holds the result on top of the arguments, unless the program was applied to
these. The bound on the height holds of every expression in a store whose addresses are machine
integers (`Store.Holds.height_le_size`). -/
theorem safe_of_compile {e : Sexp} {map : SourceMap} {shape : Shape} {prelude : Option Prelude}
    {program : Module} {s s₁ s₂ : Store} (hprelude : Prelude.IsStandard prelude)
    (he : s.Holds e) (hheight : e.height < Address.limit)
    (hcompile : Module.compile e map shape prelude s = (.ok program, s₁)) (hs : s₁.Extends s₂)
    (args : Value) (limits : Limits) {m : Machine} {closures : List Nat}
    (hreached : Reached (ofModule program args limits s₂) m closures) :
    (∀ f m', step.run m = .error f m' → f.IsBenign m.registers) ∧
      ∀ v m', step.run m = .ok (.stop v) m' →
        m'.dump = #[] ∧ m'.control = .nil ∧
          m'.env = (ofModule program args limits s₂).env ∧
          m'.stack = v :: leftover args shape := by
  -- the frame of the prelude is counted as one of the program, so nothing is asked of the arguments
  obtain ⟨t, ending, sites, hcompiled, rfl, hsited⟩ := Module.exists_sited_of_compile hprelude he
    hheight hcompile (Prelude.scopes prelude).length
  have hstart := wellFormed_ofModule hcompiled hprelude hs rfl (.inr rfl) hsited nofun args limits
  obtain ⟨pending, ⟨live, hwellFormed, -⟩, -⟩ :=
    hreached.fits ⟨⟨[], hstart, List.forall_mem_nil _⟩, nofun⟩
  refine ⟨fun f m' hstep => (isBenign_of_step hwellFormed hstep).1, fun v m' hstep => ?_⟩
  obtain ⟨hregisters, -⟩ := registers_eq_of_stop hwellFormed hstep
  exact ⟨congrArg Registers.dump hregisters, congrArg Registers.control hregisters,
    congrArg Registers.env hregisters, congrArg Registers.stack hregisters⟩

/-- The program `((LAMBDA (X) X) 1)`. -/
def identityCall : Datum :=
  let span : Span := ⟨0, 0⟩
  .list [.list [.symbol "LAMBDA" span, .list [.symbol "X" span] span, .symbol "X" span] span,
    .int 1 span] span

/-- The call of the identity function applies its closure, and leaves the result on top of the
arguments. -/
theorem safe_of_compile_identityCall :
    ∃ program s m closures m',
      Module.compile (identityCall.read .empty).1.expression .empty .expression none
          (identityCall.read .empty).2 = (.ok program, s) ∧
        Reached (ofModule program .nil {} s) m closures ∧ closures.length = 1 ∧
        step.run m = .ok (.stop (.int 1)) m' ∧
        m'.dump = #[] ∧ m'.control = .nil ∧ m'.env = .nil ∧ m'.stack = [.int 1, .nil] := by
  obtain ⟨program, s, hcompile, m, closures, hreached, hclosures, m', hstep⟩ :
      ∃ program s,
        Module.compile (identityCall.read .empty).1.expression .empty .expression none
            (identityCall.read .empty).2 = (.ok program, s) ∧
          ∃ m closures, Reached (ofModule program .nil {} s) m closures ∧
            closures.length = 1 ∧ ∃ m', step.run m = .ok (.stop (.int 1)) m' := by
    refine ⟨_, _, rfl, _, _, .step (.step (.step (.step (.step (.step (.step .start nofun rfl)
      nofun rfl) nofun rfl) nofun rfl) ?_ rfl) nofun rfl) nofun rfl, rfl, _, rfl⟩
    rintro - f stack hstack
    cases hstack
    exact List.mem_cons_self
  have hheight : (identityCall.read .empty).1.expression.height < Address.limit := by decide
  obtain ⟨-, hstop⟩ :=
    safe_of_compile Prelude.isStandard_none (identityCall.builds_read .empty).held
    hheight hcompile (.refl s) .nil {} hreached
  obtain ⟨hdump, hcontrol, henv, hstack⟩ := hstop _ _ hstep
  have hprelude : program.usesPrelude = false := by
    obtain rfl := Except.ok.inj (Prod.mk.inj hcompile).1
    rfl
  rw [ofModule, hprelude] at henv
  exact ⟨program, s, m, closures, m', hcompile, hreached, hclosures, hstep, hdump, hcontrol, henv,
    hstack⟩

end Machine

end Secd
