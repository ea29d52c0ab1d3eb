import Secd.Proofs.Term.Constants
import Secd.Proofs.Term.Instructions

/-!
# Writing code

Compiling a term writes code of the term: the cells of its blocks and of its call sites are new, and
the store holds the code if it holds the constants of the term and what comes after it. Which items
are written, and which blocks are noted, depends on how many cells the store has already, and not on
the code that comes after: nothing is ever looked at in it. No other module opens the functions that
write the code of terms to prove what they write.
-/

namespace Secd

/-! ### New cells -/

/-- The cells are different from one another, and their addresses are from `low` up to `high`. -/
structure Fresh (low high : Nat) (cells : List (Option Nat)) : Prop where
  nodup : cells.Nodup
  range : ∀ x ∈ cells, ∃ c, x = some c ∧ low ≤ c ∧ c < high

namespace Fresh

variable {low middle high : Nat} {cells cells' : List (Option Nat)}

/-- No cells are new. -/
theorem nil : Fresh low high [] := ⟨List.nodup_nil, by simp⟩

/-- Some of the new cells are new, in any order. -/
theorem subperm (h : Fresh low high cells) (hsub : cells'.Subperm cells) :
    Fresh low high cells' := by
  obtain ⟨all, hperm, hsub⟩ := hsub
  exact ⟨hperm.nodup_iff.1 (h.nodup.sublist hsub),
    fun x hx => h.range x (hsub.subset (hperm.mem_iff.2 hx))⟩

/-- Cells that are new after others are different from these. -/
theorem append (h : Fresh low middle cells) (h' : Fresh middle high cells') (hlow : low ≤ middle)
    (hhigh : middle ≤ high) : Fresh low high (cells' ++ cells) := by
  constructor
  · refine List.nodup_append.2 ⟨h'.nodup, h.nodup, ?_⟩
    rintro x hx y hy rfl
    obtain ⟨c, rfl, hle, -⟩ := h'.range x hx
    obtain ⟨d, hd, -, hlt⟩ := h.range _ hy
    obtain rfl := Option.some.inj hd
    omega
  · intro x hx
    rcases List.mem_append.1 hx with hx | hx
    · obtain ⟨c, rfl, hle, hlt⟩ := h'.range x hx
      exact ⟨c, rfl, Nat.le_trans hlow hle, hlt⟩
    · obtain ⟨c, rfl, hle, hlt⟩ := h.range x hx
      exact ⟨c, rfl, hle, Nat.lt_of_lt_of_le hlt hhigh⟩

end Fresh

open Sexp

/-! ### Writers -/

/-- What is written in front of code, the blocks that are noted, the last one first, and the size of
the store afterwards. -/
structure Draft where
  items : List (Nat × Sexp)
  noted : List NamedBlock
  high : Nat

/-- In front of any code, the items have an outline, if they are written into a store of the size
`low`. -/
structure Draft.Depicts (d : Draft) (R : (c k : Sexp) → Outline → Prop) (low : Nat) : Prop where
  le_high : low ≤ d.high
  exists_outline : ∀ k, ∃ o, R (before d.items k) k o ∧ o.noted = d.noted ∧
    Fresh low d.high o.cells

/-- From the assembly `a` to the assembly `b`, the draft has been written in front of the code `k`.
The store holds the code if it has held the operands. -/
structure Assembly.Writes (a b : Assembly) (d : Draft) (operands : List Sexp) (k : Sexp) :
    Prop where
  prepends : a.Prepends b d.items d.noted k
  size_eq : b.store.size = d.high
  held (h : ∀ e ∈ operands, a.store.Holds e) (hk : a.store.Holds k) :
    b.store.Holds (before d.items k)
  closed (h : ∀ e ∈ operands, a.store.Holds e) (hk : a.store.Holds k) (ha : a.store.Closed) :
    b.store.Closed

/-- From the assembly `a` to the assembly `b`, the code `c` has been written in front of the code
`k`. The instructions of the outline are in new cells, its blocks have been noted, and the store
holds the code if it has held the operands. -/
structure Assembly.Produces (a b : Assembly) (operands : List Sexp) (c k : Sexp) (o : Outline) :
    Prop where
  named : b.named = o.noted ++ a.named
  extends_store : a.store.Extends b.store
  fresh : Fresh a.store.size b.store.size o.cells
  held (h : ∀ e ∈ operands, a.store.Holds e) (hk : a.store.Holds k) : b.store.Holds c
  closed (h : ∀ e ∈ operands, a.store.Holds e) (hk : a.store.Holds k) (ha : a.store.Closed) :
    b.store.Closed

namespace Assembler

/-- What is written in turn. -/
theorem run_bind {a b b' : Assembly} {c d : Sexp} {x : Assembler Sexp} {f : Sexp → Assembler Sexp}
    (hx : x.run a = (c, b)) (hf : (f c).run b = (d, b')) : (x >>= f).run a = (d, b') := by
  simp only [StateT.run_bind, hx]
  exact hf

/-- In front of whatever code, something is written that has an outline. It is settled by the size
of the store. -/
def Puts (x : Sexp → Assembler Sexp) (operands : List Sexp)
    (R : (c k : Sexp) → Outline → Prop) : Prop :=
  ∀ low, ∃ d : Draft, d.Depicts R low ∧ ∀ a : Assembly, a.store.size = low → ∀ k, ∃ b,
    (x k).run a = (before d.items k, b) ∧ a.Writes b d operands k

variable {x y : Sexp → Assembler Sexp} {xs ys : List Sexp} {R S : (c k : Sexp) → Outline → Prop}

/-- Something that has an outline is written. -/
theorem Puts.exists_run (hx : Puts x xs R) (a : Assembly) (k : Sexp) : ∃ c b o,
    (x k).run a = (c, b) ∧ R c k o ∧ a.Produces b xs c k o := by
  obtain ⟨d, hd, hrun⟩ := hx a.store.size
  obtain ⟨b, hrun, hwrites⟩ := hrun a rfl k
  obtain ⟨o, hR, hnoted, hfresh⟩ := hd.exists_outline k
  rw [← hwrites.size_eq] at hfresh
  exact ⟨_, b, o, hrun, hR, hnoted ▸ hwrites.prepends.named, hwrites.prepends.extends_store, hfresh,
    hwrites.held, hwrites.closed⟩

/-- Nothing is written in front of the code. -/
theorem puts_pure : Puts pure [] fun c k o => c = k ∧ o = .empty := by
  intro low
  refine ⟨⟨[], [], low⟩, ⟨Nat.le_refl _, fun k => ?_⟩, fun a ha k => ?_⟩
  · exact ⟨.empty, ⟨rfl, rfl⟩, rfl, .nil⟩
  · exact ⟨a, rfl, .refl a k, ha, fun _ hk => hk, fun _ _ ha => ha⟩

/-- What is written may have another outline, with fewer cells. -/
theorem Puts.redraw (hx : Puts x xs R)
    (hRS : ∀ c k o, R c k o → ∃ o', S c k o' ∧ o'.noted = o.noted ∧ o'.cells.Subperm o.cells) :
    Puts x xs S := by
  intro low
  obtain ⟨d, hd, hrun⟩ := hx low
  refine ⟨d, ⟨hd.le_high, fun k => ?_⟩, hrun⟩
  obtain ⟨o, hR, hnoted, hfresh⟩ := hd.exists_outline k
  obtain ⟨o', hS, hnoted', hcells⟩ := hRS _ _ _ hR
  exact ⟨o', hS, hnoted'.trans hnoted, hfresh.subperm hcells⟩

/-- What is written may be described in another way. -/
theorem Puts.imp (hx : Puts x xs R) (hRS : ∀ c k o, R c k o → S c k o) : Puts x xs S :=
  hx.redraw fun c k o h => ⟨o, hRS c k o h, rfl, (List.Perm.refl _).subperm⟩

/-- More may be asked of the store. -/
theorem Puts.mono (hx : Puts x xs R)
    (h : ∀ s : Store, (∀ e ∈ ys, s.Holds e) → ∀ e ∈ xs, s.Holds e) : Puts x ys R := by
  intro low
  obtain ⟨d, hd, hrun⟩ := hx low
  refine ⟨d, hd, fun a ha k => ?_⟩
  obtain ⟨b, hrun, hwrites⟩ := hrun a ha k
  exact ⟨b, hrun, hwrites.prepends, hwrites.size_eq, fun hys => hwrites.held (h _ hys),
    fun hys => hwrites.closed (h _ hys)⟩

/-- The operands may be among others, in any order. -/
theorem Puts.of_subset (hx : Puts x xs R) (h : xs ⊆ ys) : Puts x ys R :=
  hx.mono fun _ hys _ he => hys _ (h he)

/-- Something is written in front of code, and something else in front of that. -/
theorem Puts.bind (hx : Puts x xs R) (hy : Puts y ys S) :
    Puts (fun k => x k >>= y) (xs ++ ys) fun c k o =>
      ∃ d front back, S c d front ∧ R d k back ∧ o = front ++ back := by
  intro low
  obtain ⟨d, hd, hback⟩ := hx low
  obtain ⟨d', hd', hfront⟩ := hy d.high
  refine ⟨⟨d'.items ++ d.items, d'.noted ++ d.noted, d'.high⟩,
    ⟨Nat.le_trans hd.le_high hd'.le_high, fun k => ?_⟩, fun a ha k => ?_⟩
  · obtain ⟨o, hR, hnoted, hfresh⟩ := hd.exists_outline k
    obtain ⟨o', hS, hnoted', hfresh'⟩ := hd'.exists_outline (before d.items k)
    rw [← before_append] at hS
    exact ⟨o' ++ o, ⟨_, o', o, hS, hR, rfl⟩, congrArg₂ (· ++ ·) hnoted' hnoted,
      hfresh.append hfresh' hd.le_high hd'.le_high⟩
  · obtain ⟨b, hrun, hwrites⟩ := hback a ha k
    obtain ⟨b', hrun', hwrites'⟩ := hfront b hwrites.size_eq (before d.items k)
    have hlater (hs : ∀ e ∈ xs ++ ys, a.store.Holds e) : ∀ e ∈ ys, b.store.Holds e := fun e he =>
      (hs e (List.mem_append_right _ he)).extends hwrites.prepends.extends_store
    have hfirst (hs : ∀ e ∈ xs ++ ys, a.store.Holds e) : ∀ e ∈ xs, a.store.Holds e := fun e he =>
      hs e (List.mem_append_left _ he)
    rw [← before_append] at hrun'
    refine ⟨b', run_bind hrun hrun', hwrites.prepends.trans hwrites'.prepends, hwrites'.size_eq,
      fun hs hk => ?_, fun hs hk ha => ?_⟩
    · rw [before_append]
      exact hwrites'.held (hlater hs) (hwrites.held (hfirst hs) hk)
    · exact hwrites'.closed (hlater hs) (hwrites.held (hfirst hs) hk)
        (hwrites.closed (hfirst hs) hk ha)

/-- An operand is written in front of an atom, and then something with it. -/
theorem Puts.operand {f : Sexp → Sexp → Assembler Sexp} {e : Atom}
    {S : Sexp → (c k : Sexp) → Outline → Prop} (hx : Puts x xs R)
    (hf : ∀ operand o, R operand (.atom e) o → Puts (f operand) (operand :: ys) (S operand)) :
    Puts (fun k => x (.atom e) >>= fun operand => f operand k) (xs ++ ys) fun c k o =>
      ∃ operand inner outer, R operand (.atom e) inner ∧ S operand c k outer ∧
        o = outer ++ inner := by
  intro low
  obtain ⟨d, hd, hinner⟩ := hx low
  obtain ⟨o, hR, hnoted, hfresh⟩ := hd.exists_outline (.atom e)
  obtain ⟨d', hd', houter⟩ := hf _ o hR d.high
  refine ⟨⟨d'.items, d'.noted ++ d.noted, d'.high⟩,
    ⟨Nat.le_trans hd.le_high hd'.le_high, fun k => ?_⟩, fun a ha k => ?_⟩
  · obtain ⟨o', hS, hnoted', hfresh'⟩ := hd'.exists_outline k
    exact ⟨o' ++ o, ⟨_, o, o', hR, hS, rfl⟩, congrArg₂ (· ++ ·) hnoted' hnoted,
      hfresh.append hfresh' hd.le_high hd'.le_high⟩
  · obtain ⟨b, hrun, hwrites⟩ := hinner a ha (.atom e)
    obtain ⟨b', hrun', hwrites'⟩ := houter b hwrites.size_eq k
    have hs := hwrites.prepends.extends_store
    have hatom : a.store.Holds (.atom e) := trivial
    have hlater (h : ∀ e ∈ xs ++ ys, a.store.Holds e) :
        ∀ x ∈ before d.items (.atom e) :: ys, b.store.Holds x := by
      obtain ⟨hfirst, hothers⟩ := List.forall_mem_append.1 h
      exact List.forall_mem_cons.2
        ⟨hwrites.held hfirst hatom, fun x hx => (hothers x hx).extends hs⟩
    refine ⟨b', run_bind hrun hrun', hwrites'.prepends.after hwrites.prepends, hwrites'.size_eq,
      fun h hk => hwrites'.held (hlater h) (hk.extends hs), fun h hk ha => ?_⟩
    exact hwrites'.closed (hlater h) (hk.extends hs)
      (hwrites.closed (List.forall_mem_append.1 h).1 hatom ha)

/-- An item is written in front of code. -/
theorem puts_cons (item : Sexp) :
    Puts (cons item) [item] fun c k o => c.Begins [item] k ∧ o = Outline.empty.mark c := by
  intro low
  refine ⟨⟨[(low, item)], [], low + 1⟩, ⟨Nat.le_succ _, fun k => ?_⟩, fun a ha k => ?_⟩
  · refine ⟨_, ⟨begins_before _ _, rfl⟩, rfl, List.pairwise_singleton _ _, ?_⟩
    exact List.forall_mem_singleton.2 ⟨low, rfl, Nat.le_refl _, Nat.lt_succ_self _⟩
  · subst ha
    have hsize := Store.size_cons a.store item.value k.value
    refine ⟨⟨(a.store.cons item.value k.value).2, a.named⟩, rfl, ⟨rfl, ?_, ?_, ?_⟩, hsize, ?_, ?_⟩
    · exact Store.extends_cons _ _ _
    · refine List.forall_mem_singleton.2 ⟨Nat.le_refl _, ?_⟩
      exact Nat.lt_of_lt_of_eq (Nat.lt_succ_self _) hsize.symm
    · exact ⟨Store.cell_cons_size _ _ _, trivial⟩
    · exact fun h hk => Store.holds_consTree (h item List.mem_cons_self) hk
    · exact fun h hk ha => ha.cons (h item List.mem_cons_self).contains hk.contains

/-- A list of items is written in front of code. -/
theorem puts_prepend (items : List Sexp) :
    Puts (prepend items) items fun c k o => c.Begins items k ∧ o = .empty := by
  induction items with
  | nil => exact puts_pure
  | cons item items ih =>
    refine ((ih.bind (puts_cons item)).of_subset ?_).redraw fun c k o h => ?_
    · exact List.perm_append_comm.subset
    · obtain ⟨d, front, back, ⟨hitem, rfl⟩, ⟨hitems, rfl⟩, rfl⟩ := h
      exact ⟨.empty, ⟨hitem.cons hitems, rfl⟩, rfl, List.nil_subperm⟩

/-- An instruction is written in front of code. -/
theorem puts_instruction (op : Opcode) (operands : List Sexp) :
    Puts (instruction op operands) operands fun c k o =>
      c.Begins (op.sexp :: operands) k ∧ o = Outline.empty.mark c := by
  refine (((puts_prepend operands).bind (puts_cons op.sexp)).mono fun s h => ?_).imp
    fun c k o h => ?_
  · exact List.forall_mem_append.2 ⟨h, List.forall_mem_singleton.2 trivial⟩
  · obtain ⟨d, front, back, ⟨hitem, rfl⟩, ⟨hitems, rfl⟩, rfl⟩ := h
    exact ⟨hitem.cons hitems, rfl⟩

/-- The block that code loads first is noted under the name. -/
def noteBlock (name : String) : (c : Sexp) → Assembler Sexp
  | .pair i head (.pair j block rest) => do
    record name block
    pure (.pair i head (.pair j block rest))
  | c => pure c

end Assembler

namespace Term

open Assembler

/-! ### The code of arms -/

/-- The code of a function loads its block. -/
theorem exists_block (params : List String) (body : Term) (k : Sexp) (a : Assembly) :
    ∃ i j block, (((Term.lambda params body).code k).run a).1 =
      .pair i Opcode.ldf.sexp (.pair j block k) :=
  ⟨_, _, _, rfl⟩

/-- The block of an arm that is a function is noted after the arm has been written. -/
theorem codeArms_lambda (name : String) (names params : List String) (body : Term)
    (ts : List Term) (k : Sexp) :
    codeArms (name :: names) (.lambda params body :: ts) k =
      instruction (.binary .cons) [] k >>= fun c =>
        ((Term.lambda params body).code c >>= noteBlock name) >>= codeArms names ts := by
  rw [codeArms]
  refine bind_congr fun c => ?_
  rw [bind_assoc]
  refine bind_congr fun d => ?_
  rcases d with a | ⟨i, head, a | ⟨j, block, rest⟩⟩ <;> rfl

/-- Nothing is noted after the code of an arm that is no function. -/
theorem codeArms_of_ne {t : Term} {name : String} {names : List String} {ts : List Term}
    (ht : ∀ params body, t ≠ .lambda params body) (k : Sexp) :
    codeArms (name :: names) (t :: ts) k =
      instruction (.binary .cons) [] k >>= fun c => t.code c >>= fun c => codeArms names ts c := by
  cases t with
  | lambda params body => exact absurd rfl (ht params body)
  | _ => rfl

/-- The code of an operation is that of its operands, the earlier one first, and the instruction. -/
theorem exists_run_binary {op : Binary} {t u : Term} {c k : Sexp} {a b : Assembly}
    (h : ((Term.binary op t u).code k).run a = (c, b)) :
    ∃ d g a₁ a₂, (u.code g).run a₁ = (d, a₂) ∧ (t.code d).run a₂ = (c, b) ∧
      g.Begins [(Opcode.binary op).sexp] k := by
  obtain ⟨g, a₁, _, hop, ⟨hcode, -⟩, -⟩ := (puts_instruction (.binary op) []).exists_run a k
  have hrun : ((Term.binary op t u).code k).run a =
      (t.code ((u.code g).run a₁).1).run ((u.code g).run a₁).2 := run_bind hop (run_bind rfl rfl)
  exact ⟨_, g, a₁, _, rfl, hrun.symm.trans h, hcode⟩

variable {P : Address → Prop} {depth : Nat}

/-- The code of a function loads a block of which there is an outline. -/
theorem Written.exists_load {params : List String} {body : Term} {c k : Sexp} {o : Outline}
    (h : Written P depth (.lambda params body) c k o) :
    ∃ (block : Sexp) (o' : Outline), c.Begins [Opcode.ldf.sexp, block] k ∧ o = o'.load c block := by
  cases h with
  | lambda hcode _ _ => exact ⟨_, _, hcode, rfl⟩

/-- After a function has been written, its block is noted. -/
theorem puts_note {x : Sexp → Assembler Sexp} {xs : List Sexp} {params : List String} {body : Term}
    (hx : Puts x xs (Written P depth (.lambda params body))) (name : String) :
    Puts (fun k => x k >>= noteBlock name) xs fun c k o => ∃ (block : Sexp) (o' : Outline),
      Written P depth (.lambda params body) c k (o'.load c block) ∧ o = o'.arm name c block := by
  intro low
  obtain ⟨d, hd, hrun⟩ := hx low
  -- the items are those of the `LDF` and its block, whatever comes after them
  obtain ⟨o, hwritten, -⟩ := hd.exists_outline .nil
  obtain ⟨block, -, hcode, -⟩ := hwritten.exists_load
  obtain ⟨own, hown, heq⟩ := hcode.exists_eq_before
  have hitems : d.items = own := before_inj heq
  obtain ⟨⟨i, head⟩, rest, rfl, rfl, hrest⟩ := List.map_eq_cons_iff.1 hown
  obtain ⟨⟨j, inner⟩, last, rfl, rfl, hlast⟩ := List.map_eq_cons_iff.1 hrest
  obtain rfl := List.map_eq_nil_iff.1 hlast
  refine ⟨⟨d.items, ⟨name, inner⟩ :: d.noted, d.high⟩, ⟨hd.le_high, fun k => ?_⟩, fun a ha k => ?_⟩
  · obtain ⟨o, hwritten, hnoted, hfresh⟩ := hd.exists_outline k
    obtain ⟨block, o, hcode, rfl⟩ := hwritten.exists_load
    have hblock : inner = block := by
      obtain ⟨_, _, hfirst, _, _, hnext, -⟩ := hcode
      rw [hitems] at hfirst
      cases hfirst
      cases hnext
      rfl
    subst hblock
    have hnoted' : (o.arm name (before d.items k) inner).noted = ⟨name, inner⟩ :: d.noted :=
      congrArg (_ :: ·) hnoted
    exact ⟨_, ⟨inner, o, hwritten, rfl⟩, hnoted', hfresh⟩
  · obtain ⟨b, hrun, hwrites⟩ := hrun a ha k
    refine ⟨⟨b.store, ⟨name, inner⟩ :: b.named⟩, run_bind hrun ?_,
      hwrites.prepends.note ⟨name, inner⟩, hwrites.size_eq, hwrites.held, hwrites.closed⟩
    rw [hitems]
    rfl

/-! ### The code of terms -/

section

variable {t u : Term} {ts : List Term} {names : List String}

/-- A term is written in front of an instruction. -/
theorem puts_after (ht : Puts t.code t.constants (Written P depth t)) (op : Opcode)
    (operands : List Sexp) :
    Puts (fun k => instruction op operands k >>= t.code) (operands ++ t.constants) fun c k o =>
      ∃ d, Written P depth t c d o ∧ d.Begins (op.sexp :: operands) k := by
  refine ((puts_instruction op operands).bind ht).redraw fun c k o h => ?_
  obtain ⟨d, front, back, hwritten, ⟨hcode, rfl⟩, rfl⟩ := h
  exact ⟨front, ⟨d, hwritten, hcode⟩, (List.append_nil _).symm,
    (List.sublist_append_left _ _).subperm⟩

/-- A term is written as a block, with an instruction that ends it, and then something with the
block. -/
theorem puts_block (ht : Puts t.code t.constants (Written P depth t)) (op : Opcode)
    {f : Sexp → Sexp → Assembler Sexp} {xs : List Sexp} {S : Sexp → (c k : Sexp) → Outline → Prop}
    (hf : ∀ block, Puts (f block) (block :: xs) (S block)) :
    Puts (fun k => do f (← t.code (← instruction op [] .nil)) k) (t.constants ++ xs) fun c k o =>
      ∃ block blockEnd inner outer, Written P depth t block blockEnd inner ∧
        blockEnd.Begins [op.sexp] .nil ∧ S block c k outer ∧ o = outer ++ inner := by
  refine ((puts_after ht op []).operand fun block _ _ => hf block).imp fun c k o h => ?_
  obtain ⟨block, inner, outer, ⟨blockEnd, hwritten, hend⟩, hS, rfl⟩ := h
  exact ⟨block, blockEnd, inner, outer, hwritten, hend, hS, rfl⟩

/-- The second branch of a conditional is written, and then the test. -/
theorem puts_branches (ht : Puts t.code t.constants (Written P depth t))
    (hu : Puts u.code u.constants (Written P depth u)) (yes : Sexp) :
    Puts (fun k => do
      let no ← u.code (← instruction .join [] .nil)
      t.code (← instruction .sel [yes, no] k)) (yes :: (u.constants ++ t.constants)) fun c k o =>
        ∃ no noEnd d inner outer, Written P depth u no noEnd inner ∧
          noEnd.Begins [Opcode.join.sexp] .nil ∧ Written P depth t c d outer ∧
            d.Begins [Opcode.sel.sexp, yes, no] k ∧ o = outer ++ inner := by
  refine ((puts_block hu .join fun no => (puts_after ht .sel [yes, no]).of_subset
    (List.Perm.swap _ _ _).subset).of_subset List.perm_middle.subset).imp fun c k o h => ?_
  obtain ⟨no, noEnd, inner, outer, hno, hend, ⟨d, hwritten, hcode⟩, rfl⟩ := h
  exact ⟨no, noEnd, d, inner, outer, hno, hend, hwritten, hcode, rfl⟩

/-- The initial values of a `LETREC` are written between what opens its frame and what runs its
block. -/
theorem puts_frame
    (hts : Puts (codeArms names ts) (constantsAll ts) (WrittenArms P depth names ts))
    (block : Sexp) :
    Puts (fun k => do
      let c ← instruction .ldf [block] (← instruction .rap [] k)
      let c ← codeArms names ts c
      instruction .dum [] (← instruction .ldc [.nil] c)) (block :: constantsAll ts) fun c k o =>
        ∃ l d e g inits, c.Begins [Opcode.dum.sexp] l ∧ l.Begins [Opcode.ldc.sexp, .nil] d ∧
          WrittenArms P depth names ts d e inits ∧ e.Begins [Opcode.ldf.sexp, block] g ∧
            g.Begins [Opcode.rap.sexp] k ∧ o = (inits ++ Outline.empty.mark e).mark c := by
  refine (((puts_instruction .rap []).bind ((puts_instruction .ldf [block]).bind
    (hts.bind ((puts_instruction .ldc [.nil]).bind (puts_instruction .dum []))))).mono ?_).redraw
      fun c k o h => ?_
  · intro s h
    simpa [or_imp, forall_and] using h
  · obtain ⟨g, _, last, ⟨e, _, load, ⟨d, _, inits,
      ⟨l, first, second, ⟨hdum, rfl⟩, ⟨hnil, rfl⟩, rfl⟩, hinits, rfl⟩, ⟨hldf, rfl⟩, rfl⟩,
      ⟨hrap, rfl⟩, rfl⟩ := h
    refine ⟨_, ⟨l, d, e, g, inits, hdum, hnil, hinits, hldf, hrap, rfl⟩,
      (List.append_nil _).symm, ?_⟩
    exact ((List.sublist_cons_self _ _).trans (List.sublist_append_left _ [g.cell?])).cons_cons _
      |>.subperm

end

mutual

/-- Compiling a term writes code of the term. -/
theorem puts_code (depth : Nat) : (t : Term) → (∀ a ∈ Instruction.addresses t.instructions, P a) →
    Puts t.code t.constants (Written P depth t)
  | .constant value, _ => (puts_instruction .ldc [value]).imp fun c k o h => by
    obtain ⟨hcode, rfl⟩ := h
    exact .constant hcode
  | .variable a, h => by
    have ha : P a := h a List.mem_cons_self
    refine (((puts_cons _).operand (f := fun operand => instruction .ld [operand])
      fun operand _ _ => puts_instruction .ld [operand]).mono ?_).redraw fun c k o h => ?_
    · exact fun s _ => List.forall_mem_singleton.2 trivial
    · obtain ⟨operand, inner, outer, ⟨hoperand, rfl⟩, ⟨hcode, rfl⟩, rfl⟩ := h
      obtain ⟨cell, _, rfl, rfl⟩ := hoperand
      exact ⟨_, .variable hcode ha, rfl, (List.sublist_append_left _ _).subperm⟩
  | .unary op t, h => by
    simp only [instructions, Instruction.addresses_append, List.forall_mem_append] at h
    refine (puts_after (puts_code depth t h.1) (.unary op) []).imp fun c k o h => ?_
    obtain ⟨d, hwritten, hcode⟩ := h
    exact .unary hwritten hcode
  | .binary op t u, h => by
    simp only [instructions, Instruction.addresses_append, List.forall_mem_append] at h
    obtain ⟨⟨ht, hu⟩, -⟩ := h
    refine (((puts_after (puts_code depth u hu) (.binary op) []).bind
      (puts_code depth t ht)).of_subset ?_).imp fun c k o h => ?_
    · simp [constants]
    · obtain ⟨d, front, back, ht, ⟨e, hu, hcode⟩, rfl⟩ := h
      exact .binary ht hu hcode
  | .conditional test yes no, h => by
    simp only [instructions, Instruction.addresses_append, List.forall_mem_append,
      Instruction.addresses, Instruction.addressesOf] at h
    obtain ⟨htest, ⟨⟨hyes, -⟩, hno, -⟩, -⟩ := h
    refine ((puts_block (puts_code depth yes hyes) .join
      (puts_branches (puts_code depth test htest) (puts_code depth no hno))).of_subset ?_).redraw
        fun c k o h => ?_
    · simp [constants]
    · obtain ⟨yesCode, yesEnd, inner, _, hyes, hyesEnd,
        ⟨noCode, noEnd, d, inner', outer, hno, hnoEnd, htest, hcode, rfl⟩, rfl⟩ := h
      -- the branch that has been written last comes second in the code
      have hcells : (outer.cells ++ (inner.cells ++ inner'.cells)).Perm
          (outer.cells ++ inner'.cells ++ inner.cells) := by
        rw [List.append_assoc]
        exact List.perm_append_comm.append_left _
      exact ⟨_, .conditional htest hcode hyes hyesEnd hno hnoEnd, (List.append_assoc _ _ _).symm,
        hcells.subperm⟩
  | .lambda names body, h => by
    simp only [instructions, Instruction.addresses, Instruction.addressesOf,
      Instruction.addresses_append, List.forall_mem_append] at h
    obtain ⟨⟨hbody, -⟩, -⟩ := h
    refine ((puts_block (puts_code (depth + 1) body hbody) .rtn
      fun block => puts_instruction .ldf [block]).of_subset ?_).redraw fun c k o h => ?_
    · simp [constants]
    · obtain ⟨block, blockEnd, inner, outer, hbody, hend, ⟨hcode, rfl⟩, rfl⟩ := h
      exact ⟨_, .lambda hcode hbody hend, rfl, (List.Perm.refl _).subperm⟩
  | .apply f args, h => by
    simp only [instructions, Instruction.addresses_append, List.forall_mem_append] at h
    obtain ⟨⟨⟨-, hargs⟩, hf⟩, -⟩ := h
    refine (((puts_instruction .ap []).bind ((puts_code depth f hf).bind
      ((puts_codeArgs depth args hargs).bind (puts_instruction .ldc [.nil])))).mono ?_).redraw
        fun c k o h => ?_
    · intro s h
      simpa [constants, or_imp, forall_and] using h
    · obtain ⟨g, _, last, ⟨e, _, middle, ⟨d, first, front, ⟨hcode, rfl⟩, hargs, rfl⟩, hf, rfl⟩,
        ⟨hap, rfl⟩, rfl⟩ := h
      exact ⟨_, .apply hcode hargs hf hap, (List.append_nil _).symm, (List.Perm.refl _).subperm⟩
  | .letrec names inits body, h => by
    simp only [instructions, Instruction.addresses, Instruction.addressesOf,
      Instruction.addresses_append, List.forall_mem_append] at h
    obtain ⟨⟨⟨-, hinits⟩, ⟨hbody, -⟩, -⟩, -⟩ := h
    refine ((puts_block (puts_code (depth + 1) body hbody) .rtn
      (puts_frame (puts_codeArms (depth + 1) names inits hinits))).of_subset ?_).redraw
        fun c k o h => ?_
    · simp [constants]
    · obtain ⟨block, blockEnd, inner, _, hbody, hend,
        ⟨l, d, e, g, inits, hdum, hnil, hinits, hldf, hrap, rfl⟩, rfl⟩ := h
      have hcells : c.cell? :: (inits.cells ++ [e.cell?] ++ inner.cells) =
          c.cell? :: (inits.cells ++ e.cell? :: inner.cells) := by
        rw [List.append_assoc, List.singleton_append]
      exact ⟨_, .letrec hdum hnil hinits hldf hrap hbody hend,
        congrArg (· ++ inner.noted) (List.append_nil inits.noted).symm,
        (List.Perm.of_eq hcells.symm).subperm⟩

/-- Compiling arguments writes code of them. -/
theorem puts_codeArgs (depth : Nat) : (ts : List Term) →
    (∀ a ∈ Instruction.addresses (argInstructions ts), P a) →
      Puts (codeArgs ts) (constantsAll ts) (WrittenAll P depth ts)
  | [], _ => puts_pure.imp fun c k o h => by
    obtain ⟨rfl, rfl⟩ := h
    exact .nil
  | t :: ts, h => by
    simp only [argInstructions, Instruction.addresses_append, List.forall_mem_append] at h
    obtain ⟨⟨hts, ht⟩, -⟩ := h
    refine ((puts_after (puts_code depth t ht) (.binary .cons) []).bind
      (puts_codeArgs depth ts hts)).imp fun c k o h => ?_
    obtain ⟨d, front, back, hothers, ⟨e, hfirst, hcode⟩, rfl⟩ := h
    exact .cons hothers hfirst hcode

/-- Compiling the arms of a `LETREC` writes code of them. -/
theorem puts_codeArms (depth : Nat) : (names : List String) → (ts : List Term) →
    (∀ a ∈ Instruction.addresses (armInstructions names ts), P a) →
      Puts (codeArms names ts) (constantsAll ts) (WrittenArms P depth names ts)
  | [], ts, _ => by
    have hnone : codeArms [] ts = pure := by cases ts <;> rfl
    rw [hnone]
    refine (puts_pure.of_subset (List.nil_subset _)).imp fun c k o h => ?_
    obtain ⟨rfl, rfl⟩ := h
    exact .nil (.inl rfl)
  | _ :: _, [], _ => puts_pure.imp fun c k o h => by
    obtain ⟨rfl, rfl⟩ := h
    exact .nil (.inr rfl)
  | name :: names, t :: ts, h => by
    simp only [armInstructions, Instruction.addresses_append, List.forall_mem_append] at h
    obtain ⟨⟨hts, ht⟩, -⟩ := h
    have hothers := puts_codeArms depth names ts hts
    have hfirst := puts_code depth t ht
    by_cases hlambda : ∃ params body, t = .lambda params body
    · obtain ⟨params, body, rfl⟩ := hlambda
      rw [funext (codeArms_lambda name names params body ts)]
      refine ((puts_instruction _ []).bind ((puts_note hfirst name).bind hothers)).redraw
        fun c k o h => ?_
      obtain ⟨e, _, last, ⟨d, front, _, hothers, ⟨block, o, hfirst, rfl⟩, rfl⟩, ⟨hcode, rfl⟩,
        rfl⟩ := h
      exact ⟨_, .function hothers hfirst hcode, (List.append_nil _).symm,
        (List.sublist_append_left _ _).subperm⟩
    · have hne : ∀ params body, t ≠ .lambda params body := fun params body h =>
        hlambda ⟨params, body, h⟩
      rw [funext (codeArms_of_ne hne)]
      refine ((puts_after hfirst (.binary .cons) []).bind hothers).imp fun c k o h => ?_
      obtain ⟨d, front, back, hothers, ⟨e, hfirst, hcode⟩, rfl⟩ := h
      exact .other hne hothers hfirst hcode

end

end Term

end Secd
