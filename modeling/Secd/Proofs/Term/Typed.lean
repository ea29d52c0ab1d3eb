import Secd.Primitive
import Secd.Proofs.Term.Written

/-!
# Typed code

What code expects to find when it is run, and how it ends. The judgement counts the frames that the
program has put into the environment, and those among them that the running function has opened by
`DUM` and not closed yet. It lists what is known of the values that the function has pushed: a list
that is being built has so many items, and the function of a call by the name of a callable is that
callable. Blocks are typed on their own: the block of a function starts with one more frame than
there are where the function is made, and the branches of a conditional end where the conditional
began, with one value more.

Instructions are typed in the order in which they are executed. The closure that `RAP` applies has
to be the one that the instruction before it pushes, so these two are typed together. Every `AP` is
at one of the call sites of the program.
-/

namespace Secd

/-- What is known of a value on the stack. -/
inductive Slot where
  | value
  /-- A list that has been built out of so many values. -/
  | items (count : Nat)
  /-- The list of arguments with which the program is run. -/
  | given
  /-- A callable of the primitive. -/
  | callee (p : Primitive)

/-- The slot is for a list of arguments. -/
inductive Slot.IsArgs : Slot → Prop where
  | items {count : Nat} : IsArgs (.items count)
  | given : IsArgs .given

/-- How a block of code ends. -/
inductive Ending where
  | stop
  | rtn
  /-- A branch ends with so many frames and open frames, and with these values. -/
  | join (depth opened : Nat) (slots : List Slot)

/-- The code can be run if the program has put `depth` frames on top of the `outer` ones in the
environment, the first `opened` of them pending, and has pushed values for the slots. Its calls are
among the given call sites. -/
inductive Typed (outer : Nat) (sites : List CallSite) :
    (depth opened : Nat) → (slots : List Slot) → Ending → Sexp → Prop where
  | ld {depth opened : Nat} {slots : List Slot} {ending : Ending} {c operand k : Sexp} {a : Address}
      (hcode : c.Begins [Opcode.ld.sexp, operand] k) (hoperand : operand.IsAddress a)
      (hdepth : a.frame < depth + outer)
      (hrest : Typed outer sites depth opened (.value :: slots) ending k) :
      Typed outer sites depth opened slots ending c
  | callee {depth opened : Nat} {slots : List Slot} {ending : Ending} {c operand k : Sexp}
      {a : Address} {p : Primitive} (hcode : c.Begins [Opcode.ld.sexp, operand] k)
      (hoperand : operand.IsAddress a) (houter : depth ≤ a.frame) (hdepth : a.frame < depth + outer)
      (hp : Primitive.all[a.slot]? = some p)
      (hrest : Typed outer sites depth opened (.callee p :: slots) ending k) :
      Typed outer sites depth opened slots ending c
  | ldc {depth opened : Nat} {slots : List Slot} {ending : Ending} {c value k : Sexp}
      (hcode : c.Begins [Opcode.ldc.sexp, value] k)
      (hrest : Typed outer sites depth opened (.value :: slots) ending k) :
      Typed outer sites depth opened slots ending c
  | nil {depth opened : Nat} {slots : List Slot} {ending : Ending} {c k : Sexp}
      (hcode : c.Begins [Opcode.ldc.sexp, .nil] k)
      (hrest : Typed outer sites depth opened (.items 0 :: slots) ending k) :
      Typed outer sites depth opened slots ending c
  | push {depth opened count : Nat} {slots : List Slot} {ending : Ending} {c k : Sexp}
      (hcode : c.Begins [(Opcode.binary .cons).sexp] k)
      (hrest : Typed outer sites depth opened (.items (count + 1) :: slots) ending k) :
      Typed outer sites depth opened (.value :: .items count :: slots) ending c
  | ldf {depth opened : Nat} {slots : List Slot} {ending : Ending} {c block k : Sexp}
      (hcode : c.Begins [Opcode.ldf.sexp, block] k)
      (hblock : Typed outer sites (depth + 1) 0 [] .rtn block)
      (hrest : Typed outer sites depth opened (.value :: slots) ending k) :
      Typed outer sites depth opened slots ending c
  | ap {depth opened count : Nat} {args : Slot} {slots : List Slot} {ending : Ending} {c k : Sexp}
      (hcode : c.Begins [Opcode.ap.sexp] k) (hsite : ⟨c, none, count⟩ ∈ sites) (hargs : args.IsArgs)
      (hrest : Typed outer sites depth opened (.value :: slots) ending k) :
      Typed outer sites depth opened (.value :: args :: slots) ending c
  | call {depth opened slot count : Nat} {p : Primitive} {slots : List Slot} {ending : Ending}
      {c k : Sexp} (hcode : c.Begins [Opcode.ap.sexp] k) (hsite : ⟨c, some slot, count⟩ ∈ sites)
      (hp : Primitive.all[slot]? = some p)
      (hrest : Typed outer sites depth opened (.value :: slots) ending k) :
      Typed outer sites depth opened (.callee p :: .items p.arity :: slots) ending c
  | dum {depth opened : Nat} {slots : List Slot} {ending : Ending} {c k : Sexp}
      (hcode : c.Begins [Opcode.dum.sexp] k)
      (hrest : Typed outer sites (depth + 1) (opened + 1) slots ending k) :
      Typed outer sites depth opened slots ending c
  | rap {depth opened count : Nat} {slots : List Slot} {ending : Ending} {c block d k : Sexp}
      (hcode : c.Begins [Opcode.ldf.sexp, block] d) (hrap : d.Begins [Opcode.rap.sexp] k)
      (hblock : Typed outer sites (depth + 1) 0 [] .rtn block)
      (hrest : Typed outer sites depth opened (.value :: slots) ending k) :
      Typed outer sites (depth + 1) (opened + 1) (.items count :: slots) ending c
  | sel {depth opened : Nat} {slots : List Slot} {ending : Ending} {c yes no k : Sexp}
      (hcode : c.Begins [Opcode.sel.sexp, yes, no] k)
      (hyes : Typed outer sites depth opened slots (.join depth opened (.value :: slots)) yes)
      (hno : Typed outer sites depth opened slots (.join depth opened (.value :: slots)) no)
      (hrest : Typed outer sites depth opened (.value :: slots) ending k) :
      Typed outer sites depth opened (.value :: slots) ending c
  | unary {depth opened : Nat} {slots : List Slot} {ending : Ending} {op : Unary} {c k : Sexp}
      (hcode : c.Begins [(Opcode.unary op).sexp] k)
      (hrest : Typed outer sites depth opened (.value :: slots) ending k) :
      Typed outer sites depth opened (.value :: slots) ending c
  | binary {depth opened : Nat} {slots : List Slot} {ending : Ending} {op : Binary} {c k : Sexp}
      (hcode : c.Begins [(Opcode.binary op).sexp] k)
      (hrest : Typed outer sites depth opened (.value :: slots) ending k) :
      Typed outer sites depth opened (.value :: .value :: slots) ending c
  | stop {depth : Nat} {c : Sexp} (hcode : c.Begins [Opcode.stop.sexp] .nil) :
      Typed outer sites depth 0 [.value] .stop c
  | rtn {depth : Nat} {c : Sexp} (hcode : c.Begins [Opcode.rtn.sexp] .nil) :
      Typed outer sites depth 0 [.value] .rtn c
  | join {depth opened : Nat} {slots : List Slot} {c : Sexp}
      (hcode : c.Begins [Opcode.join.sexp] .nil) :
      Typed outer sites depth opened slots (.join depth opened slots) c

/-- If the function of the call is a variable of an outer frame, its slot is that of a primitive
with as many parameters as the call has arguments. -/
def CallSite.Saturated (site : CallSite) : Prop :=
  ∀ slot, site.callee = some slot → ∃ p, Primitive.all[slot]? = some p ∧ p.arity = site.args

namespace Term

variable {s : Store} {limit outer : Nat} {sites : List CallSite}

/-- The code of a term is typed if what comes after it is typed with one more value on the stack. -/
def TypedBefore (outer : Nat) (sites : List CallSite) (t : Term) (depth : Nat) : Prop :=
  ∀ ⦃c k : Sexp⦄ ⦃o : Outline⦄ ⦃opened : Nat⦄ ⦃slots : List Slot⦄ ⦃ending : Ending⦄,
    Written (Address.Below Address.limit) depth t c k o → o.sites ⊆ sites →
      Typed outer sites depth opened (.value :: slots) ending k →
        Typed outer sites depth opened slots ending c

/-- The code that puts the values of terms in front of a list is typed if what comes after it is
typed with the longer list on the stack. -/
theorem typed_of_writtenAll {ts : List Term} {depth opened count : Nat} {slots : List Slot}
    {ending : Ending} {c k : Sexp} {o : Outline}
    (hts : ∀ t ∈ ts, t.TypedBefore outer sites depth)
    (h : WrittenAll (Address.Below Address.limit) depth ts c k o) (hsites : o.sites ⊆ sites)
    (hk : Typed outer sites depth opened (.items (count + ts.length) :: slots) ending k) :
    Typed outer sites depth opened (.items count :: slots) ending c := by
  induction ts generalizing c k o with
  | nil => cases h; exact hk
  | cons t ts ih =>
    obtain ⟨ht, hts⟩ := List.forall_mem_cons.1 hts
    cases h with
    | cons hothers hfirst hcode =>
      obtain ⟨hsites, hsites'⟩ := List.append_subset.1 hsites
      exact ih hts hothers hsites (ht hfirst hsites' (.push hcode hk))

/-- The block of a function is typed if the code of its body is. -/
theorem TypedBefore.block {body : Term} {depth : Nat} {block blockEnd : Sexp} {o : Outline}
    (h : body.TypedBefore outer sites depth)
    (hbody : Written (Address.Below Address.limit) depth body block blockEnd o)
    (hsites : o.sites ⊆ sites) (hend : blockEnd.Begins [Opcode.rtn.sexp] .nil) :
    Typed outer sites depth 0 [] .rtn block :=
  h hbody hsites (.rtn hend)

/-- A call is typed if its function and its arguments are. If the function is a callable that is
called by its name, the call has as many arguments as it takes. -/
theorem typedBefore_apply {f : Term} {args : List Term} {depth : Nat}
    (hsaturated : 0 < outer → ∀ site ∈ sites, site.Saturated)
    (houter : ∀ a, f = .variable a → a.frame < depth + outer)
    (hf : f.TypedBefore outer sites depth)
    (hargs : ∀ arg ∈ args, arg.TypedBefore outer sites depth) :
    (Term.apply f args).TypedBefore outer sites depth := by
  intro c k o opened slots ending hwritten hsites hk
  cases hwritten with
  | apply hcode hwrittenArgs hwrittenF hap =>
    obtain ⟨hsites, hsite⟩ := List.append_subset.1 hsites
    obtain ⟨hsitesArgs, hsitesF⟩ := List.append_subset.1 hsites
    have hsite := hsite List.mem_cons_self
    refine .nil hcode (typed_of_writtenAll hargs hwrittenArgs hsitesArgs ?_)
    rw [Nat.zero_add]
    cases hcallee : f.outerSlot? depth with
    | none =>
      rw [hcallee] at hsite
      exact hf hwrittenF hsitesF (.ap hap hsite .items hk)
    | some slot =>
      rw [hcallee] at hsite
      cases hwrittenF with
      | @«variable» _ cell a _ _ hld hbelow =>
        rw [outerSlot?] at hcallee
        split at hcallee
        · next hframe =>
          obtain rfl := Option.some.inj hcallee
          have hlt : a.frame < depth + outer := houter a rfl
          obtain ⟨p, hp, (harity : p.arity = args.length)⟩ :=
            hsaturated (by omega) _ hsite a.slot rfl
          refine .callee hld (hbelow.isAddress cell) hframe hlt hp ?_
          rw [← harity]
          exact .call hap hsite hp hk
        · cases hcallee
      | _ => cases hcallee

/-- The code of an admissible term is typed. -/
theorem Admissible.typedBefore (hsaturated : 0 < outer → ∀ site ∈ sites, site.Saturated)
    {total : Nat} {t : Term} (ht : Admissible s limit total t) :
    ∀ depth, total = depth + outer → t.TypedBefore outer sites depth := by
  induction ht with
  | constant _ =>
    intro depth _ c k o opened slots ending hwritten _ hk
    cases hwritten with
    | constant hcode => exact .ldc hcode hk
  | «variable» hdepth _ _ =>
    intro depth htotal c k o opened slots ending hwritten _ hk
    cases hwritten with
    | «variable» hcode hbelow => exact .ld hcode (hbelow.isAddress _) (htotal ▸ hdepth) hk
  | unary _ ih =>
    intro depth htotal c k o opened slots ending hwritten hsites hk
    cases hwritten with
    | unary ht hcode => exact ih depth htotal ht hsites (.unary hcode hk)
  | binary _ _ iht ihu =>
    intro depth htotal c k o opened slots ending hwritten hsites hk
    cases hwritten with
    | binary ht hu hcode =>
      obtain ⟨hfirst, hsecond⟩ := List.append_subset.1 hsites
      exact iht depth htotal ht hfirst (ihu depth htotal hu hsecond (.binary hcode hk))
  | conditional _ _ _ ihtest ihyes ihno =>
    intro depth htotal c k o opened slots ending hwritten hsites hk
    cases hwritten with
    | conditional htest hcode hyes hyesEnd hno hnoEnd =>
      obtain ⟨htestSites, hsites⟩ := List.append_subset.1 hsites
      obtain ⟨hyesSites, hnoSites⟩ := List.append_subset.1 hsites
      exact ihtest depth htotal htest htestSites
        (.sel hcode (ihyes depth htotal hyes hyesSites (.join hyesEnd))
          (ihno depth htotal hno hnoSites (.join hnoEnd)) hk)
  | lambda _ ih =>
    intro depth htotal c k o opened slots ending hwritten hsites hk
    cases hwritten with
    | lambda hcode hbody hend =>
      exact .ldf hcode ((ih (depth + 1) (by omega)).block hbody hsites hend) hk
  | apply hf _ ihf ihargs =>
    intro depth htotal
    refine typedBefore_apply hsaturated ?_ (ihf depth htotal) fun t ht => ihargs t ht depth htotal
    rintro a rfl
    cases hf with
    | «variable» hdepth _ _ => exact htotal ▸ hdepth
  | letrec hlength _ _ ihinits ihbody =>
    intro depth htotal c k o opened slots ending hwritten hsites hk
    cases hwritten with
    | letrec hdum hnil hinits hldf hrap hbody hend =>
      obtain ⟨hinitSites, hbodySites⟩ := List.append_subset.1 hsites
      obtain ⟨_, hinits, heq⟩ := hinits.exists_writtenAll hlength
      have hblock := (ihbody (depth + 1) (by omega)).block hbody hbodySites hend
      refine .dum hdum (.nil hnil (typed_of_writtenAll ?_ hinits (heq ▸ hinitSites)
        (.rap hldf hrap hblock hk)))
      exact fun t ht => ihinits t ht (depth + 1) (by omega)

end Term

end Secd
