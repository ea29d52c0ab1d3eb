import Secd.Proofs.Machine.Closed
import Secd.Proofs.Machine.Code
import Secd.Proofs.Term.Typed

/-!
# Well-formed machines

A machine that runs compiled code is well formed: the control is typed code, and every entry of the
dump is typed against the rest of the code of the caller or the conditional that is suspended there.
For each function that has not returned, the registers have to fit the type of its code. Its
environment has exactly the frames that the program has put there, on top of the environment with
which the run began. It begins with the pending cells that the function has opened by `DUM`, and
goes on with the environment in which the function was entered; and the stack holds the values that
the type says above those that were there before.

A cell is *pending* from the `DUM` that makes it to the `RAP` that closes it. The pending cells of
all functions are different, which is why a `RAP` leaves those of the callers pending. No list that
the code builds for a call runs through a pending cell.

The run starts from an `Origin`, and the code is held by the store of the origin, of which no cell
is ever written to.
-/

namespace Secd

/-- What a run starts from: the store that holds the code, the environment, the values that are on
the stack below those of the program, the list of arguments, how many frames the environment has,
and the call sites of the program. -/
structure Origin where
  store : Store
  env : Value
  bottom : List Value
  args : Value
  outer : Nat
  sites : List CallSite

/-- In the environment of the origin every frame is that of a standard prelude. -/
def Origin.IsLoaded (o : Origin) : Prop :=
  ∀ ⦃s : Store⦄, o.store.Extends s → ∀ index < o.outer, ∃ frame, s.nth o.env index = .ok frame ∧
    frame.isPending = false ∧ ∀ slot p, Primitive.all[slot]? = some p →
      ∃ identity, s.nth frame slot = .ok (.callable ⟨identity, p.name, p.arity, p⟩)

namespace Store

/-- The environment begins with the given pending cells, and `home` comes after them. -/
def Opened (s : Store) : (env : Value) → (cells : List Nat) → (home : Value) → Prop
  | env, [], home => env = home
  | env, c :: cells, home =>
    env = .pair c ∧ c < s.size ∧ (s.cell c).head.isPending = true ∧
      s.Opened (s.cell c).tail cells home

variable {P : Nat → Prop} {s s' : Store}

/-- Open cells are allocated. -/
theorem Opened.lt_size {env home : Value} {cells : List Nat} (h : s.Opened env cells home) :
    ∀ c ∈ cells, c < s.size := by
  induction cells generalizing env with
  | nil => simp
  | cons c cells ih =>
    obtain ⟨-, hc, -, htail⟩ := h
    exact List.forall_mem_cons.2 ⟨hc, ih htail⟩

/-- Open cells stay open if they are not written to. -/
theorem Opened.evolves {env home : Value} {cells : List Nat} (h : s.Opened env cells home)
    (hs : s.Evolves P s') (hP : ∀ c ∈ cells, ¬ P c) : s'.Opened env cells home := by
  induction cells generalizing env with
  | nil => exact h
  | cons c cells ih =>
    obtain ⟨rfl, hc, hpending, htail⟩ := h
    obtain ⟨hPc, hP⟩ := List.forall_mem_cons.1 hP
    refine ⟨rfl, Nat.lt_of_lt_of_le hc hs.size_le, ?_, ?_⟩
    · rw [hs.head_eq c hc hPc]
      exact hpending
    · rw [hs.tail_eq c hc]
      exact ih htail hP

/-- Open cells stay open in every store that extends theirs. -/
theorem Opened.extends {env home : Value} {cells : List Nat} (h : s.Opened env cells home)
    (hs : s.Extends s') : s'.Opened env cells home :=
  h.evolves (P := fun _ => False) hs.evolves fun _ _ => not_false

/-- The value is a list of so many items, in cells none of which is pending. -/
def IsList (s : Store) (pending : List Nat) (count : Nat) (v : Value) : Prop :=
  ∃ cells, s.Chain v cells .nil ∧ cells.length = count ∧ ∀ c ∈ cells, c ∉ pending

end Store

/-- The frame of a function is a list of arguments that the code has built, or that of the
origin. -/
def Origin.IsFrame (o : Origin) (s : Store) (pending : List Nat) (v : Value) : Prop :=
  v = o.args ∨ ∃ count, s.IsList pending count v

/-- The environment has `depth` frames, each of them pending or a list of arguments, and that of the
origin comes after them. What comes after them is left open if the origin has no frames. -/
def Origin.Inside (o : Origin) (s : Store) (pending : List Nat) :
    (depth : Nat) → (env : Value) → Prop
  | 0, env => 0 < o.outer → env = o.env
  | depth + 1, env => ∃ c, env = .pair c ∧ c < s.size ∧
      (c ∈ pending ∨ o.IsFrame s pending (s.cell c).head) ∧
        o.Inside s pending depth (s.cell c).tail

/-- The value fits the slot. -/
def Origin.Fits (o : Origin) (s : Store) (pending : List Nat) : Slot → Value → Prop
  | .value, _ => True
  | .items count, v => s.IsList pending count v
  | .given, v => v = o.args
  | .callee p, v => ∃ identity, v = .callable ⟨identity, p.name, p.arity, p⟩

/-- The dump is that of suspended functions and conditionals, the last of which goes on after code
with the given ending. It is entered with the environment `home` and with the values `bottom` on the
stack. The cells `opened` are open in suspended functions, and `pending` in any function. -/
inductive Suspended (o : Origin) (s : Store) (pending : List Nat) :
    Array DumpEntry → Ending → (home : Value) → (bottom : List Value) → (opened : List Nat) →
      Prop where
  | stop {dump : Array DumpEntry} (hdump : dump = #[]) :
      Suspended o s pending dump .stop o.env o.bottom []
  | call {dump rest : Array DumpEntry} {k : Sexp} {top bottom : List Value}
      {env home entered : Value} {cells opened : List Nat} {ending : Ending} {depth : Nat}
      {slots : List Slot} (hdump : dump = rest.push (.call (top ++ bottom) env k.value))
      (hheld : o.store.Holds k)
      (hcode : Typed o.outer o.sites depth cells.length (.value :: slots) ending k)
      (hslots : List.Forall₂ (o.Fits s pending) slots top) (hopened : s.Opened env cells home)
      (hinside : o.Inside s pending depth env)
      (hrest : Suspended o s pending rest ending home bottom opened) :
      Suspended o s pending dump .rtn entered [] (cells ++ opened)
  | join {dump rest : Array DumpEntry} {k : Sexp} {bottom : List Value} {home : Value}
      {opened : List Nat} {ending : Ending} {depth open' : Nat} {slots : List Slot}
      (hdump : dump = rest.push (.join k.value)) (hheld : o.store.Holds k)
      (hcode : Typed o.outer o.sites depth open' slots ending k)
      (hrest : Suspended o s pending rest ending home bottom opened) :
      Suspended o s pending dump (.join depth open' slots) home bottom opened

/-- The cell is a closure: a typed block, and an environment that has the frames for it. -/
def Origin.IsClosure (o : Origin) (s : Store) (pending : List Nat) (f : Nat) : Prop :=
  f < s.size ∧ ∃ block depth, (s.cell f).head = block.value ∧ o.store.Holds block ∧
    Typed o.outer o.sites (depth + 1) 0 [] .rtn block ∧ o.Inside s pending depth (s.cell f).tail

/-- The code `c` is ready to be run with the values `top` on the stack. It is either typed code, or
the `RAP` after the instruction that has pushed its closure. -/
inductive Ready (o : Origin) (s : Store) (pending : List Nat) (env : Value) :
    (depth opened : Nat) → (top : List Value) → Ending → (c : Sexp) → Prop where
  | code {depth opened : Nat} {slots : List Slot} {top : List Value} {ending : Ending} {c : Sexp}
      (hcode : Typed o.outer o.sites depth opened slots ending c)
      (hslots : List.Forall₂ (o.Fits s pending) slots top) :
      Ready o s pending env depth opened top ending c
  | rap {depth opened f count : Nat} {args : Value} {slots : List Slot} {top : List Value}
      {ending : Ending} {c k block : Sexp} (hcode : c.Begins [Opcode.rap.sexp] k)
      (hclosure : s.cell f = ⟨block.value, env⟩) (hheld : o.store.Holds block)
      (hblock : Typed o.outer o.sites (depth + 1) 0 [] .rtn block)
      (hargs : s.IsList pending count args) (hslots : List.Forall₂ (o.Fits s pending) slots top)
      (hrest : Typed o.outer o.sites depth opened (.value :: slots) ending k) :
      Ready o s pending env (depth + 1) (opened + 1) (.pair f :: args :: top) ending c

/-- The registers are those of a running function with code `c`, the values `top` that it has pushed
on top of the values `bottom`, and the cells `cells` that it has opened. -/
structure Running (o : Origin) (r : Registers) (c : Sexp) (top bottom : List Value)
    (cells opened : List Nat) (depth : Nat) (ending : Ending) (home : Value) : Prop where
  loaded : o.IsLoaded
  base : o.store.Extends r.store
  control : r.control = c.value
  held : o.store.Holds c
  stack : r.stack = top ++ bottom
  env : r.store.Opened r.env cells home
  inside : o.Inside r.store (cells ++ opened) depth r.env
  dump : Suspended o r.store (cells ++ opened) r.dump ending home bottom opened
  distinct : (cells ++ opened).Nodup
  fresh : ∀ d ∈ cells ++ opened, o.store.size ≤ d

/-- The registers fit the code, the given cells are closures, and those in `pending` are the pending
ones. -/
def WellFormed (o : Origin) (r : Registers) (closures pending : List Nat) : Prop :=
  (∃ c top bottom cells opened depth ending home, cells ++ opened = pending ∧
    Running o r c top bottom cells opened depth ending home ∧
      Ready o r.store pending r.env depth cells.length top ending c) ∧
  ∀ f ∈ closures, o.IsClosure r.store pending f

variable {o : Origin} {P : Nat → Prop} {s s' : Store} {pending pending' : List Nat}

/-! ### While the store evolves -/

/-- The store `s` evolves into `s'` while the pending cells change: only cells that are closed are
written to, their new heads are frames, and cells that become pending are new. -/
structure Origin.Passes (o : Origin) (s : Store) (pending : List Nat) (s' : Store)
    (pending' : List Nat) : Prop where
  evolves : s.Evolves (fun c => c ∈ pending ∧ c ∉ pending') s'
  keeps : ∀ c < s.size, c ∉ pending → c ∉ pending'
  closes : ∀ c ∈ pending, c ∉ pending' → o.IsFrame s' pending' (s'.cell c).head

/-- Nothing happens to pending cells if only new cells are added. -/
theorem Origin.passes_of_extends (o : Origin) (hs : s.Extends s') (pending : List Nat) :
    o.Passes s pending s' pending where
  evolves := hs.evolves
  keeps _ _ h := h
  closes _ h h' := absurd h h'

/-- A new cell may become pending. -/
theorem Origin.passes_cons (o : Origin) (s : Store) (pending : List Nat) (head tail : Value) :
    o.Passes s pending (s.cons head tail).2 (s.size :: pending) where
  evolves := (Store.extends_cons s head tail).evolves
  keeps _ hc h := List.not_mem_cons_of_ne_of_not_mem (Nat.ne_of_lt hc) h
  closes _ h h' := absurd (List.mem_cons_of_mem _ h) h'

/-- A pending cell is closed by writing a frame to its head. -/
theorem Origin.passes_setHead {e count : Nat} {args : Value} (o : Origin) (he : e < s.size)
    (hdistinct : e ∉ pending) (hargs : s.IsList (e :: pending) count args) :
    o.Passes s (e :: pending) (s.setHead e args) pending where
  evolves := by
    have hs := Store.evolves_setHead s e args
    refine ⟨hs.size_le, hs.tail_eq, fun c hc hP => hs.head_eq c hc ?_⟩
    rintro rfl
    exact hP ⟨List.mem_cons_self, hdistinct⟩
  keeps _ _ h := List.not_mem_of_not_mem_cons h
  closes c h h' := by
    obtain rfl : c = e := (List.mem_cons.1 h).resolve_right h'
    rw [Store.cell_setHead_self s args he]
    obtain ⟨cells, hchain, hlength, havoid⟩ := hargs
    refine .inr ⟨count, cells, hchain.evolves (Store.evolves_setHead s c args), hlength, ?_⟩
    exact fun d hd => List.not_mem_of_not_mem_cons (havoid d hd)

/-- A list that runs through no pending cell stays one. -/
theorem Store.IsList.passes {count : Nat} {v : Value} (h : s.IsList pending count v)
    (hs : o.Passes s pending s' pending') : s'.IsList pending' count v := by
  obtain ⟨cells, hchain, hlength, havoid⟩ := h
  refine ⟨cells, hchain.evolves hs.evolves, hlength, fun c hc => ?_⟩
  exact hs.keeps c (hchain.lt_size hc) (havoid c hc)

/-- A frame stays one. -/
theorem Origin.IsFrame.passes {v : Value} (h : o.IsFrame s pending v)
    (hs : o.Passes s pending s' pending') : o.IsFrame s' pending' v := by
  rcases h with h | ⟨count, h⟩
  · exact .inl h
  · exact .inr ⟨count, h.passes hs⟩

/-- An environment keeps its frames. -/
theorem Origin.Inside.passes {depth : Nat} {env : Value} (h : o.Inside s pending depth env)
    (hs : o.Passes s pending s' pending') : o.Inside s' pending' depth env := by
  induction depth generalizing env with
  | zero => exact h
  | succ depth ih =>
    obtain ⟨c, rfl, hc, hframe, htail⟩ := h
    refine ⟨c, rfl, Nat.lt_of_lt_of_le hc hs.evolves.size_le, ?_, ?_⟩
    · by_cases hnew : c ∈ pending'
      · exact .inl hnew
      · refine .inr ?_
        by_cases hold : c ∈ pending
        · exact hs.closes c hold hnew
        · rw [hs.evolves.head_eq c hc fun hP => hold hP.1]
          exact (hframe.resolve_left hold).passes hs
    · rw [hs.evolves.tail_eq c hc]
      exact ih htail

/-- Values fit their slots for good. -/
theorem Origin.Fits.passes {slot : Slot} {v : Value} (h : o.Fits s pending slot v)
    (hs : o.Passes s pending s' pending') : o.Fits s' pending' slot v := by
  cases slot with
  | value => exact trivial
  | items count => exact Store.IsList.passes h hs
  | given => exact h
  | callee p => exact h

/-- The values on a stack fit their slots for good. -/
theorem Origin.fits_passes {slots : List Slot} {top : List Value}
    (h : List.Forall₂ (o.Fits s pending) slots top) (hs : o.Passes s pending s' pending') :
    List.Forall₂ (o.Fits s' pending') slots top :=
  h.imp fun _ _ hv => hv.passes hs

/-- The open cells of suspended functions are allocated. -/
theorem Suspended.lt_size {dump : Array DumpEntry} {ending : Ending} {home : Value}
    {bottom : List Value} {opened : List Nat}
    (h : Suspended o s pending dump ending home bottom opened) : ∀ c ∈ opened, c < s.size := by
  induction h with
  | stop _ => simp
  | call _ _ _ _ hopened _ _ ih =>
    intro c hc
    rcases List.mem_append.1 hc with hc | hc
    · exact hopened.lt_size c hc
    · exact ih c hc
  | join _ _ _ _ ih => exact ih

/-- Suspended functions are not affected if their open cells stay pending. -/
theorem Suspended.passes {dump : Array DumpEntry} {ending : Ending} {home : Value}
    {bottom : List Value} {opened : List Nat}
    (h : Suspended o s pending dump ending home bottom opened)
    (hs : o.Passes s pending s' pending') (hopen : ∀ c ∈ opened, c ∈ pending') :
    Suspended o s' pending' dump ending home bottom opened := by
  induction h with
  | stop hdump => exact .stop hdump
  | call hdump hheld hcode hslots hopened hinside _ ih =>
    have hcells := fun c hc => hopen c (List.mem_append_left _ hc)
    have hrest := fun c hc => hopen c (List.mem_append_right _ hc)
    exact .call hdump hheld hcode (Origin.fits_passes hslots hs)
      (hopened.evolves hs.evolves fun c hc hP => hP.2 (hcells c hc)) (hinside.passes hs) (ih hrest)
  | join hdump hheld hcode _ ih => exact .join hdump hheld hcode (ih hopen)

/-- A closure stays one if it is not written to. -/
theorem Origin.IsClosure.passes {f : Nat} (h : o.IsClosure s pending f)
    (hs : o.Passes s pending s' pending') (hf : ¬ (f ∈ pending ∧ f ∉ pending')) :
    o.IsClosure s' pending' f := by
  obtain ⟨hlt, block, depth, hhead, hheld, hblock, hinside⟩ := h
  have hcell := hs.evolves.cell_eq hlt hf
  refine ⟨Nat.lt_of_lt_of_le hlt hs.evolves.size_le, block, depth, ?_, hheld, hblock, ?_⟩
  · rw [hcell]
    exact hhead
  · rw [hcell]
    exact hinside.passes hs

/-- A closure stays one if cells are added to the store. -/
theorem Origin.IsClosure.extends {f : Nat} (h : o.IsClosure s pending f) (hs : s.Extends s') :
    o.IsClosure s' pending f :=
  h.passes (o.passes_of_extends hs pending) fun hf => hf.2 hf.1

/-! ### What is in place -/

/-- The empty list has no items. -/
theorem Store.isList_nil (s : Store) (pending : List Nat) : s.IsList pending 0 .nil :=
  ⟨[], rfl, rfl, List.forall_mem_nil _⟩

/-- A new cell that is not pending makes a list longer. -/
theorem Store.IsList.cons {count : Nat} {v : Value} (h : s.IsList pending count v)
    (hnew : s.size ∉ pending) (item : Value) :
    (s.cons item v).2.IsList pending (count + 1) (.pair s.size) := by
  obtain ⟨cells, hchain, rfl, havoid⟩ := h
  refine ⟨s.size :: cells, ⟨rfl, ?_, ?_⟩, rfl, List.forall_mem_cons.2 ⟨hnew, havoid⟩⟩
  · rw [Store.size_cons]
    omega
  · rw [Store.cell_cons_size]
    exact hchain.evolves (Store.extends_cons s item v).evolves (P := fun _ => False)

/-- A list can be read, and has so many items. -/
theorem Store.IsList.exists_toList {count : Nat} {v : Value} (h : s.IsList pending count v) :
    ∃ items, s.toList v = .ok items ∧ items.length = count := by
  obtain ⟨cells, hchain, rfl, -⟩ := h
  exact ⟨_, hchain.toList_eq, List.length_map _⟩

/-- A list of arguments can be a frame. -/
theorem Origin.Fits.isFrame {slot : Slot} {v : Value} (h : o.Fits s pending slot v)
    (hslot : slot.IsArgs) : o.IsFrame s pending v := by
  cases hslot with
  | items => exact .inr ⟨_, h⟩
  | given => exact .inl h

/-- The value of typed code is a pair. -/
theorem Typed.exists_pair {outer : Nat} {sites : List CallSite} {depth opened : Nat}
    {slots : List Slot} {ending : Ending} {c : Sexp}
    (h : Typed outer sites depth opened slots ending c) :
    ∃ cell head tail, c = .pair cell head tail := by
  cases h with
  | ld hcode _ _ _ | callee hcode _ _ _ _ _ | ldc hcode _ | nil hcode _ | push hcode _
  | ldf hcode _ _ | ap hcode _ _ _ | call hcode _ _ _ | dum hcode _ | rap hcode _ _ _
  | sel hcode _ _ _ | unary hcode _ | binary hcode _ | stop hcode | rtn hcode | join hcode =>
    obtain ⟨cell, tail, rfl, -⟩ := hcode
    exact ⟨cell, _, tail, rfl⟩

/-- A closure does not have a pending head. -/
theorem Origin.IsClosure.not_pending {f : Nat} (h : o.IsClosure s pending f) :
    (s.cell f).head.isPending = false := by
  obtain ⟨-, block, depth, hhead, -, hblock, -⟩ := h
  obtain ⟨cell, head, tail, rfl⟩ := hblock.exists_pair
  rw [hhead]
  rfl

/-- If the origin has no frames, frames may be left out of account. -/
theorem Origin.Inside.of_succ {depth : Nat} {env : Value} (h : o.Inside s pending (depth + 1) env)
    (houter : o.outer = 0) : o.Inside s pending depth env := by
  induction depth generalizing env with
  | zero => exact fun hpos => absurd houter (Nat.ne_of_gt hpos)
  | succ depth ih =>
    obtain ⟨c, rfl, hc, hframe, htail⟩ := h
    exact ⟨c, rfl, hc, hframe, ih htail⟩

/-- A frame of the program is found at its index. -/
theorem Origin.Inside.exists_nth {depth : Nat} {env : Value} (h : o.Inside s pending depth env)
    {index : Nat} (hindex : index < depth) : ∃ c, s.nth env index = .ok (s.cell c).head ∧
      (c ∈ pending ∨ o.IsFrame s pending (s.cell c).head) := by
  suffices hfrom : ∀ steps < depth, ∃ c, s.nthFrom index steps env = .ok (s.cell c).head ∧
      (c ∈ pending ∨ o.IsFrame s pending (s.cell c).head) from hfrom index hindex
  clear hindex
  induction depth generalizing env with
  | zero => exact fun steps hsteps => absurd hsteps (Nat.not_lt_zero steps)
  | succ depth ih =>
    obtain ⟨c, rfl, -, hframe, htail⟩ := h
    intro steps hsteps
    cases steps with
    | zero => exact ⟨c, rfl, hframe⟩
    | succ steps => exact ih htail steps (Nat.lt_of_succ_lt_succ hsteps)

/-- The frames of the origin come after those of the program. -/
theorem Origin.Inside.nth_eq {depth : Nat} {env : Value} (h : o.Inside s pending depth env)
    (houter : 0 < o.outer) {index : Nat} {frame : Value}
    (hframe : s.nth o.env index = .ok frame) : s.nth env (depth + index) = .ok frame := by
  suffices hfrom : s.nthFrom index (depth + index) env = .ok frame from Store.nthFrom_eq_ok hfrom
  induction depth generalizing env with
  | zero =>
    rw [h houter, Nat.zero_add]
    exact hframe
  | succ depth ih =>
    obtain ⟨c, rfl, -, -, htail⟩ := h
    rw [Nat.add_right_comm]
    exact ih htail

namespace Running

variable {r : Registers} {c : Sexp} {top bottom : List Value} {cells opened : List Nat}
  {depth : Nat} {ending : Ending} {home : Value}

/-- The next instruction is the one with which the code begins. -/
theorem next (h : Running o r c top bottom cells opened depth ending home) {op : Opcode}
    {operands : List Sexp} {k : Sexp} (hcode : c.Begins (op.sexp :: operands) k) :
    r.Next op (operands.map Sexp.value) k.value ∧ o.store.Holds k ∧
      ∀ x ∈ operands, o.store.Holds x :=
  r.next_of_begins h.base h.held h.control hcode

/-- The function goes on with the code `k` and other values, after cells have been added to the
store. -/
theorem advance (h : Running o r c top bottom cells opened depth ending home) {s : Store}
    (hs : r.store.Extends s) {k : Sexp} (hk : o.store.Holds k) (top' : List Value) :
    Running o ⟨s, top' ++ bottom, r.env, k.value, r.dump⟩ k top' bottom cells opened depth ending
      home where
  loaded := h.loaded
  base := h.base.trans hs
  control := rfl
  held := hk
  stack := rfl
  env := h.env.extends hs
  inside := h.inside.passes (o.passes_of_extends hs _)
  dump := h.dump.passes (o.passes_of_extends hs _) fun _ => List.mem_append_right _
  distinct := h.distinct
  fresh := h.fresh

end Running

end Secd
