import Secd.Proofs.Semantics.Simulation

/-!
# The simulation of expressions

For each kind of phrase: the machine simulates the evaluator on it if it simulates the evaluator on
its parts with one unit of fuel less. Induction on the fuel then gives the simulation of the
reference evaluator.
-/

namespace Secd

open Evaluation World

variable {base : Store} {bound fuel : Nat} {w : World} {r : Registers} {env : LexicalEnv}
  {c k : Sexp} {ev : Evaluator} {depth : Nat} {o : Outline}

/-! ### Constants and variables -/

/-- A constant leads to the datum that it is. -/
theorem Aligned.leads_constant (h : Aligned base w r env c) (hroom : r.dump.size ≤ bound)
    {x : Sexp} (hwritten : Term.Written (Address.Below Address.limit) depth (.constant x) c k o) :
    Leads base bound w r (.ok (.ofSexp x, w.memory)) (Returns base r r.stack k) := by
  cases hwritten with
  | constant hcode =>
    obtain ⟨hnext, hk, hoperands⟩ := h.next hcode
    have hx := h.sound.represents_ofSexp (hoperands x List.mem_cons_self)
    exact h.leads_of_answers hk hroom (answers_of_push h.store hx (.ldc hnext))

/-- A variable leads to its value. -/
theorem Aligned.leads_variable (h : Aligned base w r env c) (hroom : r.dump.size ≤ bound)
    {name : String} {a : Address} (hlocate : env.scopes.locate? name = some a)
    (hwritten : Term.Written (Address.Below Address.limit) depth (.variable a) c k o) :
    Leads base bound w r (env.lookup name w.memory) (Returns base r r.stack k) := by
  cases hwritten with
  | «variable» hcode hbelow =>
    obtain ⟨hnext, hk, hoperands⟩ := h.next hcode
    have hheld := (hoperands _ List.mem_cons_self).extends (h.store ▸ h.sound.code)
    obtain ⟨frame, hframe, hlookup⟩ := LexicalEnv.exists_frame_of_locate? hlocate
    have hread := hheld.ofValue_eq (hbelow.isAddress _)
    have hanswers := answers_ld h.sound h.store h.env hframe hnext hread
    rw [hlookup]
    exact h.leads_of_answers hk hroom hanswers

/-- A `LAMBDA` leads to the closure of its function. -/
theorem Aligned.leads_lambda (h : Aligned base w r env c) (hroom : r.dump.size ≤ bound)
    {names : List String} {body : Sexp} {t : Term}
    (hbody : Term.Resolves (names :: env.scopes) body t)
    (hwritten : Term.Written (Address.Below Address.limit) depth (.lambda names t) c k o) :
    Leads base bound w r (.ok (.closure names body env, w.memory))
      (Returns base r r.stack k) := by
  cases hwritten with
  | lambda hcode hblock hend =>
    obtain ⟨hnext, hk, hoperands⟩ := h.next hcode
    have hisBlock : IsBlock base (names :: env.scopes) body _ :=
      ⟨_, _, t, _, _, rfl, hoperands _ List.mem_cons_self, hbody, hblock, hend⟩
    have hclosure := h.sound.represents_closure hisBlock h.env
    have hldf := Transition.ldf hnext
    rw [h.store] at hldf
    have hanswers : Answers base w r r.stack k.value (.ok (.closure names body env)) :=
      ⟨_, _, Store.extends_cons _ _ _, hclosure, hldf⟩
    exact h.leads_of_answers hk hroom hanswers

/-! ### Pending frames -/

/-- `DUM` adds a pending frame, in which the initial values of a `LETREC` are evaluated. -/
theorem Aligned.dum (h : Aligned base w r env c) {d : Sexp}
    (hcode : c.Begins [Opcode.dum.sexp] d) (names : List String) :
    Transition r (.proceed
      ⟨(w.allocate none .pending r.env).store, r.stack, .pair w.store.size, d.value, r.dump⟩) ∧
    Aligned base (w.allocate none .pending r.env)
      ⟨(w.allocate none .pending r.env).store, r.stack, .pair w.store.size, d.value, r.dump⟩
      (⟨names, w.memory.length⟩ :: env) d := by
  obtain ⟨hnext, hd, -⟩ := h.next hcode
  have hstep := Transition.dum hnext
  rw [h.store] at hstep
  have hframe : w.Frame base .pending (some none) := rfl
  exact ⟨hstep, h.sound.allocate hframe r.env, rfl, h.closed.of_transition hstep, hd, rfl,
    h.sound.environment_allocate h.env none .pending names⟩

namespace Simulates

/-! ### Operations -/

/-- An operation with one operand leads to its result. -/
theorem leads_unary (hev : Simulates base bound fuel ev) (h : Aligned base w r env c)
    (hroom : r.dump.size + fuel ≤ bound) {op : Unary} {x : Sexp} {t : Term}
    (hx : Term.Resolves env.scopes x t)
    (hwritten : Term.Written (Address.Below Address.limit) depth (.unary op t) c k o) :
    Leads base bound w r ((do let x ← ev env x; of (op.denote x)) w.memory)
      (Returns base r r.stack k) := by
  cases hwritten with
  | unary ht hcode =>
    refine h.bind (hev hx ht h hroom) ?_
    intro x v w' hgrows hx h'
    refine .of_grows hgrows ?_
    obtain ⟨hnext, hk, -⟩ := h'.next hcode
    exact h'.leads_of_answers hk (by dsimp only; omega) (answers_unary rfl hx hnext rfl)

/-- An arithmetic operation evaluates its operands from left to right. -/
theorem leads_arithmetic (hev : Simulates base bound fuel ev) (h : Aligned base w r env c)
    (hroom : r.dump.size + fuel ≤ bound) {op : Arithmetic} {x y : Sexp} {t u : Term}
    (hx : Term.Resolves env.scopes x t) (hy : Term.Resolves env.scopes y u)
    (hwritten :
      Term.Written (Address.Below Address.limit) depth (.binary (.arithmetic op) t u) c k o) :
    Leads base bound w r
      ((do let x ← ev env x; let y ← ev env y; of (op.denote x y)) w.memory)
      (Returns base r r.stack k) := by
  cases hwritten with
  | binary ht hu hcode =>
    refine h.bind (hev hx ht h hroom) ?_
    intro x v w₁ hgrows₁ hx h₁
    refine .of_grows hgrows₁ ?_
    refine h₁.bind (hev hy hu h₁ hroom) ?_
    intro y v' w₂ hgrows₂ hy h₂
    refine .of_grows hgrows₂ ?_
    obtain ⟨hnext, hk, -⟩ := h₂.next hcode
    have hx := hx.evolves hgrows₂.toEvolves
    exact h₂.leads_of_answers hk (by dsimp only; omega)
      (answers_arithmetic rfl hx hy hnext rfl)

/-- The other operations with two operands evaluate the second one first. -/
theorem leads_binary (hev : Simulates base bound fuel ev) (h : Aligned base w r env c)
    (hroom : r.dump.size + fuel ≤ bound) {op : Binary} (hop : op.leftFirst = false) {x y : Sexp}
    {t u : Term} (hx : Term.Resolves env.scopes x t) (hy : Term.Resolves env.scopes y u)
    (hwritten : Term.Written (Address.Below Address.limit) depth (.binary op u t) c k o) :
    Leads base bound w r
      ((do let y ← ev env y; let x ← ev env x; of (op.denote x y)) w.memory)
      (Returns base r r.stack k) := by
  cases hwritten with
  | binary hu ht hcode =>
    refine h.bind (hev hy hu h hroom) ?_
    intro y v w₁ hgrows₁ hy h₁
    refine .of_grows hgrows₁ ?_
    refine h₁.bind (hev hx ht h₁ hroom) ?_
    intro x v' w₂ hgrows₂ hx h₂
    refine .of_grows hgrows₂ ?_
    obtain ⟨hnext, hk, -⟩ := h₂.next hcode
    have hy := hy.evolves hgrows₂.toEvolves
    exact h₂.leads_of_answers hk (by dsimp only; omega)
      (answers_binary h₂.sound rfl h₂.closed.store hx hy hop hnext rfl)

/-! ### Conditionals -/

/-- A branch leads to its value after the conditional. -/
theorem leads_branch (hev : Simulates base bound fuel ev) {branch branchEnd : Sexp} {x : Sexp}
    {t : Term} (hx : Term.Resolves env.scopes x t)
    (hwritten : Term.Written (Address.Below Address.limit) depth t branch branchEnd o)
    (hend : branchEnd.Begins [Opcode.join.sexp] .nil) (hk : base.Holds k)
    {dump : Array DumpEntry} (hdump : r.dump = dump.push (.join k.value))
    (h : Aligned base w r env branch) (hroom : r.dump.size + fuel ≤ bound) :
    Leads base bound w r (ev env x w.memory)
      (Returns base { r with dump := dump } r.stack k) := by
  refine (hev hx hwritten h hroom).step ?_
  intro x w' r' hsound _ hreturns
  have hnext := hreturns.next hsound hend
  obtain ⟨-, v, hx, rfl⟩ := hreturns
  have hsize : r.dump.size = dump.size + 1 := by rw [hdump, Array.size_push]
  exact ⟨_, .join hnext hdump, by dsimp only; omega, rfl, hk, v, hx, rfl⟩

/-- A conditional leads to the value of one of its branches. -/
theorem leads_conditional (hev : Simulates base bound fuel ev) (h : Aligned base w r env c)
    (hroom : r.dump.size + fuel < bound) {test yes no : Sexp} {t u v : Term}
    (htest : Term.Resolves env.scopes test t) (hyes : Term.Resolves env.scopes yes u)
    (hno : Term.Resolves env.scopes no v)
    (hwritten : Term.Written (Address.Below Address.limit) depth (.conditional t u v) c k o) :
    Leads base bound w r
      ((do let test ← ev env test; if test.isTrue then ev env yes else ev env no) w.memory)
      (Returns base r r.stack k) := by
  cases hwritten with
  | @conditional _ _ _ _ _ d _ yesCode noCode yesEnd noEnd _ _ _ hwrittenTest hcode hwrittenYes
      hyesEnd hwrittenNo hnoEnd =>
    refine h.bind (hev htest hwrittenTest h (by omega)) ?_
    intro x b w₁ hgrows hx h₁
    refine .of_grows hgrows ?_
    obtain ⟨hnext, hk, hoperands⟩ := h₁.next hcode
    obtain ⟨hheldYes, hheldNo⟩ := List.forall_mem_cons.1 hoperands
    obtain ⟨branch, branchEnd, e, t, _, hcontrol, heval, hheld, hresolves, hwritten, hend⟩ :
        ∃ branch branchEnd e t o,
          (if x.isTrue then yesCode.value else noCode.value) = branch.value ∧
            (if x.isTrue then ev env yes else ev env no) = ev env e ∧ base.Holds branch ∧
              Term.Resolves env.scopes e t ∧
                Term.Written (Address.Below Address.limit) depth t branch branchEnd o ∧
                branchEnd.Begins [Opcode.join.sexp] .nil := by
      cases x.isTrue with
      | true => exact ⟨_, _, _, _, _, rfl, rfl, hheldYes, hyes, hwrittenYes, hyesEnd⟩
      | false =>
        exact ⟨_, _, _, _, _, rfl, rfl, hheldNo _ List.mem_cons_self, hno, hwrittenNo, hnoEnd⟩
    have hsel := Transition.sel hnext rfl
    rw [hx.isTrue_eq, hcontrol] at hsel
    have hsize : (r.dump.push (.join k.value)).size = r.dump.size + 1 := Array.size_push _
    have hbranch : Aligned base w₁ _ env branch :=
      ⟨h₁.sound, rfl, h₁.closed.of_transition hsel, hheld, rfl, h₁.env⟩
    rw [heval]
    refine .of_transition hsel (by dsimp only; omega) ?_
    exact hev.leads_branch hresolves hwritten hend hk rfl hbranch (by dsimp only; omega)

/-! ### Calls and bindings -/

/-- The values of arguments are put in front of the empty list. -/
theorem leads_args (hev : Simulates base bound fuel ev) (h : Aligned base w r env c)
    (hroom : r.dump.size + fuel ≤ bound) {d : Sexp} {es : List Sexp} {ts : List Term}
    (hresolves : Term.ResolvesAll env.scopes es ts)
    (hcode : c.Begins [Opcode.ldc.sexp, .nil] d)
    (hwritten : Term.WrittenAll (Address.Below Address.limit) depth ts d k o) :
    Leads base bound w r (ev.all env es w.memory)
      fun xs => Returns base r r.stack k (.list xs) := by
  obtain ⟨hnext, hd, -⟩ := h.next hcode
  have hldc := Transition.ldc hnext
  have h₁ : Aligned base w ⟨r.store, .nil :: r.stack, r.env, d.value, r.dump⟩ env d :=
    ⟨h.sound, h.store, h.closed.of_transition hldc, hd, rfl, h.env⟩
  exact .of_transition hldc (by dsimp only; omega) (hev.all hresolves hwritten h₁ hroom rfl)

/-- A call leads to the result of its function. -/
theorem leads_call (hev : Simulates base bound fuel ev) (h : Aligned base w r env c)
    (hroom : r.dump.size + fuel < bound) {function : Sexp} {args : List Sexp} {f : Term}
    {ts : List Term} (hfunction : Term.Resolves env.scopes function f)
    (hargs : Term.ResolvesAll env.scopes args ts)
    (hwritten : Term.Written (Address.Below Address.limit) depth (.apply f ts) c k o) :
    Leads base bound w r
      ((do let xs ← ev.all env args; let f ← ev env function; ev.apply f xs) w.memory)
      (Returns base r r.stack k) := by
  cases hwritten with
  | apply hcode hwrittenArgs hwrittenF hap =>
    have hroom' : r.dump.size + fuel ≤ bound := by omega
    refine h.bind (hev.leads_args h hroom' hargs hcode hwrittenArgs) ?_
    intro xs l w₁ hgrows₁ hl h₁
    refine .of_grows hgrows₁ ?_
    refine h₁.bind (hev hfunction hwrittenF h₁ hroom') ?_
    intro x v w₂ hgrows₂ hx h₂
    refine .of_grows hgrows₂ ?_
    have hl := hl.evolves hgrows₂.toEvolves
    exact hev.apply h₂ (by dsimp only; omega) hap hx hl rfl

/-- A `LET` leads to the value of its body. -/
theorem leads_let (hev : Simulates base bound fuel ev) (h : Aligned base w r env c)
    (hroom : r.dump.size + fuel < bound) {names : List String} {inits : List Sexp} {body : Sexp}
    {t : Term} {ts : List Term} (hinits : Term.ResolvesAll env.scopes inits ts)
    (hbody : Term.Resolves (names :: env.scopes) body t)
    (hwritten :
      Term.Written (Address.Below Address.limit) depth (.apply (.lambda names t) ts) c k o) :
    Leads base bound w r
      ((do let xs ← ev.all env inits; ev.enter names body env xs) w.memory)
      (Returns base r r.stack k) := by
  cases hwritten with
  | apply hcode hwrittenInits hwrittenF hap =>
    cases hwrittenF with
    | @lambda _ _ _ _ _ block _ _ hldf hblock hend =>
      refine h.bind (hev.leads_args h (by omega) hinits hcode hwrittenInits) ?_
      intro xs l w₁ hgrows hl h₁
      refine .of_grows hgrows ?_
      obtain ⟨hnext, hg, hoperands⟩ := h₁.next hldf
      have hisBlock : IsBlock base (names :: env.scopes) body block.value :=
        ⟨_, _, t, _, _, rfl, hoperands _ List.mem_cons_self, hbody, hblock, hend⟩
      have hclosure := h₁.sound.represents_closure hisBlock h₁.env
      have hs := Store.extends_cons w₁.store block.value r.env
      have h₂ := h₁.push hg hs (.ldf hnext)
      have hl := hl.evolves (grows_withStore hs).toEvolves
      refine .of_transition (.ldf hnext) (by dsimp only; omega) ?_
      refine .of_grows (grows_withStore hs) ?_
      exact hev.enter h₂ (by dsimp only; omega) hap hclosure hl rfl

/-- `LDF` and `RAP` give the values of a `LETREC` to its frame and lead to the value of its body.
The growth of the world is counted from before the frame was added, because a memory does not extend
itself when one of its frames gets its values. -/
theorem leads_rap (hev : Simulates base bound fuel ev) (hw : w.Sound base)
    (hroom : r.dump.size + fuel < bound) {w₁ : World}
    (hgrows : (w.allocate none .pending r.env).Grows w₁) {names : List String} {e g : Sexp}
    {l : Value} (h : Aligned base w₁
      ⟨w₁.store, l :: r.stack, .pair w.store.size, e.value, r.dump⟩
      (⟨names, w.memory.length⟩ :: env) e)
    {xs : List Meaning} (hl : Represents base w₁ l (.list xs)) {body block blockEnd : Sexp}
    {t : Term} (hldf : e.Begins [Opcode.ldf.sexp, block] g)
    (hrap : g.Begins [Opcode.rap.sexp] k) (hbody : Term.Resolves (names :: env.scopes) body t)
    (hblock : Term.Written (Address.Below Address.limit) depth t block blockEnd o)
    (hend : blockEnd.Begins [Opcode.rtn.sexp] .nil) :
    Leads base bound w ⟨w₁.store, l :: r.stack, .pair w.store.size, e.value, r.dump⟩
      (ev (⟨names, w.memory.length⟩ :: env) body (w₁.memory.set w.memory.length (some xs)))
      (Returns base r r.stack k) := by
  obtain ⟨hnextLdf, hg, hoperands⟩ := h.next hldf
  have hs := Store.extends_cons w₁.store block.value (.pair w.store.size)
  have h₂ := h.push hg hs (.ldf hnextLdf)
  have hgrows₂ := hgrows.trans (grows_withStore hs)
  obtain ⟨hnextRap, hk, -⟩ := h₂.next hrap
  have hplace := hgrows₂.getElem?_places (hw.places_allocate none .pending r.env)
  have hmemory := hgrows₂.getElem?_memory (World.getElem?_memory_allocate w none .pending r.env)
  obtain ⟨-, -, hpending⟩ := h₂.sound.frame _ _ hplace
  rw [hmemory] at hpending
  have hclosure : (w₁.store.cons block.value (.pair w.store.size)).2.cell w₁.store.size =
      ⟨block.value, .pair w.store.size⟩ := Store.cell_cons_size _ _ _
  have houter : ((w₁.store.cons block.value (.pair w.store.size)).2.cell w.store.size).tail =
      r.env := hgrows₂.tail_allocate
  have hstep := Transition.rap hnextRap rfl rfl hpending (by rw [hclosure])
  rw [hclosure, houter] at hstep
  have hl := hl.evolves (grows_withStore hs).toEvolves
  have hsize : (r.dump.push (.call r.stack r.env k.value)).size = r.dump.size + 1 :=
    Array.size_push _
  have h₃ : Aligned base _ _ (⟨names, w.memory.length⟩ :: env) block :=
    ⟨h₂.sound.fill hplace hl, rfl, h₂.closed.of_transition hstep,
      hoperands _ List.mem_cons_self, rfl, h₂.env.evolves (evolves_fill hplace xs l)⟩
  have hgrows₃ := ((grows_allocate w none .pending r.env).trans hgrows₂).fill hplace xs l
  have hdump : r.dump.size ≤ bound := by omega
  refine .of_transition (.ldf hnextLdf) hdump ?_
  refine .of_transition hstep (by dsimp only; omega) (.of_grows hgrows₃ ?_)
  refine Leads.rtn hk rfl (by omega) hend rfl rfl ?_
  exact hev hbody hblock h₃ (by dsimp only; omega)

/-- A `LETREC` leads to the value of its body, which is evaluated after the frame of the `LETREC`
has got its values. -/
theorem leads_letrec (hev : Simulates base bound fuel ev) (h : Aligned base w r env c)
    (hroom : r.dump.size + fuel < bound) {names : List String} {inits : List Sexp} {body : Sexp}
    {t : Term} {ts : List Term} (hinits : Term.ResolvesAll (names :: env.scopes) inits ts)
    (hbody : Term.Resolves (names :: env.scopes) body t)
    (hlength : names.length = inits.length)
    (hwritten : Term.Written (Address.Below Address.limit) depth (.letrec names ts t) c k o) :
    Leads base bound w r
      ((do
        let index ← allocate none
        let xs ← ev.all (⟨names, index⟩ :: env) inits
        fill index xs
        ev (⟨names, index⟩ :: env) body) w.memory)
      (Returns base r r.stack k) := by
  cases hwritten with
  | letrec hdum hldc hwrittenArms hldf hrap hblock hend =>
    obtain ⟨_, hwrittenInits, -⟩ :=
      hwrittenArms.exists_writtenAll (hlength.trans hinits.length_eq)
    obtain ⟨hstep, h₁⟩ := h.dum hdum names
    refine .of_transition hstep (by dsimp only; omega) ?_
    change Leads base bound w _
      ((ev.all (⟨names, w.memory.length⟩ :: env) inits >>= fun xs => do
        fill w.memory.length xs
        ev (⟨names, w.memory.length⟩ :: env) body) (w.allocate none .pending r.env).memory) _
    refine h₁.bind (hev.leads_args h₁ (by dsimp only; omega) hinits hldc hwrittenInits) ?_
    intro xs l w₁ hgrows hl h₂
    exact hev.leads_rap h.sound hroom hgrows h₂ hl hldf hrap hbody hblock hend

end Simulates

/-! ### Expressions -/

/-- The machine simulates an evaluator with one more unit of fuel than one that it simulates. -/
theorem Simulates.phrase (hev : Simulates base bound fuel ev) :
    Simulates base bound (fuel + 1) fun env e => ev.phrase env e.phrase := by
  intro w r env e t depth c k o hresolves hwritten h hroom
  have hlt : r.dump.size + fuel < bound := hroom
  have hle : r.dump.size + fuel ≤ bound := Nat.le_of_lt hlt
  have hdump : r.dump.size ≤ bound := by omega
  dsimp only
  cases hresolves with
  | constant hphrase =>
    rw [hphrase]
    exact h.leads_constant hdump hwritten
  | «variable» hphrase hlocate =>
    rw [hphrase]
    exact h.leads_variable hdump hlocate hwritten
  | quote hphrase =>
    rw [hphrase]
    exact h.leads_constant hdump hwritten
  | unary hphrase hx =>
    rw [hphrase]
    exact hev.leads_unary h hle hx hwritten
  | @leftFirst _ _ _ _ op _ _ hphrase hop hx hy =>
    rw [hphrase]
    cases op with
    | arithmetic op => exact hev.leads_arithmetic h hle hx hy hwritten
    | eq | leq | cons => cases hop
  | @rightFirst _ _ _ _ op _ _ hphrase hop hx hy =>
    rw [hphrase]
    cases op with
    | arithmetic op => cases hop
    | eq | leq | cons => exact hev.leads_binary h hle hop hx hy hwritten
  | conditional hphrase htest hyes hno =>
    rw [hphrase]
    exact hev.leads_conditional h hlt htest hyes hno hwritten
  | lambda hphrase hparams hbody =>
    rw [hphrase, Evaluator.phrase, Evaluator.form, hparams]
    exact h.leads_lambda hdump hbody hwritten
  | «let» hphrase harms hinits hbody =>
    rw [hphrase, Evaluator.phrase, Evaluator.form, harms]
    exact hev.leads_let h hlt hinits hbody hwritten
  | letrec hphrase harms hinits hbody =>
    rw [hphrase, Evaluator.phrase, Evaluator.form, harms]
    exact hev.leads_letrec h hlt hinits hbody (by simp) hwritten
  | call hphrase hfunction hargs =>
    rw [hphrase]
    exact hev.leads_call h hlt hfunction hargs hwritten

/-- The machine simulates the reference evaluator with any fuel. -/
theorem simulates_withFuel (base : Store) (bound fuel : Nat) :
    Simulates base bound fuel (Evaluator.withFuel fuel) := by
  induction fuel with
  | zero =>
    intro w r env e t depth c k o _ _ _ _
    exact trivial
  | succ fuel ih => exact ih.phrase

end Secd
