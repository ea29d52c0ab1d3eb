import Secd.Module.Listing
import Secd.Proofs.Module.RoundTrip
import Secd.Proofs.Store.Printer
import Secd.Proofs.Term.Written

/-!
# The blocks of a listing

A listing looks up a name for each block that the code loads, in the order in which the blocks come
in the code. These are the blocks that the compiler has made. Apart from the names, the listing
depends on nothing but the structure of the code: code that is the same has the same listing if the
blocks have the same names.
-/

namespace Secd

namespace Listing

/-- The blocks for which a listing of the code looks up names, in their order. -/
def blocks : Sexp → List Sexp
  | .atom _ => []
  | .pair _ head rest =>
    match Opcode.ofValue? head.value, rest with
    | none, rest => blocks rest
    | some .ldf, .pair _ block rest => block :: (blocks block ++ blocks rest)
    | some .sel, .pair _ yes (.pair _ no rest) => blocks yes ++ (blocks no ++ blocks rest)
    | some .ld, .pair _ _ rest => blocks rest
    | some .ldc, .pair _ _ rest => blocks rest
    | some op, rest => if op.operandCount = 0 then blocks rest else []

/-- The symbol of an instruction stands for the instruction. -/
@[simp] theorem ofValue?_sexp (op : Opcode) : Opcode.ofValue? op.sexp.value = some op :=
  Opcode.ofName?_mnemonic op

/-- A hereditary property of code is one of its blocks. -/
theorem forall_mem_blocks {P : Sexp → Prop} (hP : Sexp.Hereditary P) {c : Sexp} (hc : P c) :
    ∀ block ∈ blocks c, P block := by
  fun_induction blocks c with
  | case1 a => simp
  | case2 cell head rest hop ih => exact ih (hP _ _ _ hc).2
  | case3 cell head cell' block rest hop ihBlock ihRest =>
    have hparts := hP _ _ _ (hP _ _ _ hc).2
    intro b hb
    rcases List.mem_cons.1 hb with rfl | hb
    · exact hparts.1
    · rcases List.mem_append.1 hb with hb | hb
      · exact ihBlock hparts.1 b hb
      · exact ihRest hparts.2 b hb
  | case4 cell head cell' yes cell'' no rest hop ihYes ihNo ihRest =>
    have hyes := hP _ _ _ (hP _ _ _ hc).2
    have hno := hP _ _ _ hyes.2
    intro b hb
    rcases List.mem_append.1 hb with hb | hb
    · exact ihYes hyes.1 b hb
    · rcases List.mem_append.1 hb with hb | hb
      · exact ihNo hno.1 b hb
      · exact ihRest hno.2 b hb
  | case5 cell head cell' operand rest hop ih
  | case6 cell head cell' operand rest hop ih => exact ih (hP _ _ _ (hP _ _ _ hc).2).2
  | case7 cell head rest op _ _ _ _ hcount hop ih => exact ih (hP _ _ _ hc).2
  | case8 cell head rest op _ _ _ _ hcount hop => simp

/-! ### The blocks of compiled code -/

variable {c k : Sexp}

/-- An instruction without operands has no block. -/
theorem blocks_of_begins {op : Opcode} (hcount : op.operandCount = 0)
    (h : c.Begins [op.sexp] k) : blocks c = blocks k := by
  obtain ⟨cell, tail, rfl, rfl⟩ := h
  cases op <;> simp_all [blocks, Opcode.operandCount]

/-- The constant of an `LDC` is no block. -/
theorem blocks_of_begins_ldc {x : Sexp} (h : c.Begins [Opcode.ldc.sexp, x] k) :
    blocks c = blocks k := by
  obtain ⟨cell, _, rfl, cell', _, rfl, rfl⟩ := h
  simp [blocks]

/-- The address of an `LD` is no block. -/
theorem blocks_of_begins_ld {x : Sexp} (h : c.Begins [Opcode.ld.sexp, x] k) :
    blocks c = blocks k := by
  obtain ⟨cell, _, rfl, cell', _, rfl, rfl⟩ := h
  simp [blocks]

/-- The block of an `LDF` comes before the blocks in it. -/
theorem blocks_of_begins_ldf {block : Sexp} (h : c.Begins [Opcode.ldf.sexp, block] k) :
    blocks c = block :: (blocks block ++ blocks k) := by
  obtain ⟨cell, _, rfl, cell', _, rfl, rfl⟩ := h
  simp [blocks]

/-- The branches of a `SEL` are not loaded, but the blocks in them are. -/
theorem blocks_of_begins_sel {yes no : Sexp} (h : c.Begins [Opcode.sel.sexp, yes, no] k) :
    blocks c = blocks yes ++ (blocks no ++ blocks k) := by
  obtain ⟨cell, _, rfl, cell', _, rfl, cell'', _, rfl, rfl⟩ := h
  simp [blocks]

open Term

mutual

/-- The blocks of the code of a term are those that it loads, and those of the code that comes after
it. -/
theorem blocks_of_written {P : Address → Prop} {depth : Nat} {t : Term} {c k : Sexp} {o : Outline} :
    Written P depth t c k o → blocks c = o.loaded.map LoadedBlock.code ++ blocks k
  | .constant hcode => blocks_of_begins_ldc hcode
  | .variable hcode _ => blocks_of_begins_ld hcode
  | .unary ht hcode => by
    rw [blocks_of_written ht, blocks_of_begins rfl hcode]
  | .binary ht hu hcode => by
    rw [blocks_of_written ht, blocks_of_written hu, blocks_of_begins rfl hcode]
    simp
  | .conditional htest hcode hyes hyesEnd hno hnoEnd => by
    rw [blocks_of_written htest, blocks_of_begins_sel hcode, blocks_of_written hyes,
      blocks_of_begins rfl hyesEnd, blocks_of_written hno, blocks_of_begins rfl hnoEnd]
    simp [blocks]
  | .lambda hcode hbody hend => by
    rw [blocks_of_begins_ldf hcode, blocks_of_written hbody, blocks_of_begins rfl hend]
    simp [blocks]
  | .apply hcode hargs hf hap => by
    rw [blocks_of_begins_ldc hcode, blocks_of_writtenAll hargs, blocks_of_written hf,
      blocks_of_begins rfl hap]
    simp
  | .letrec hdum hnil hinits hldf hrap hbody hend => by
    rw [blocks_of_begins rfl hdum, blocks_of_begins_ldc hnil, blocks_of_writtenArms hinits,
      blocks_of_begins_ldf hldf, blocks_of_written hbody, blocks_of_begins rfl hend,
      blocks_of_begins rfl hrap]
    simp [blocks]

/-- The same for the code of arguments. -/
theorem blocks_of_writtenAll {P : Address → Prop} {depth : Nat} {ts : List Term} {c k : Sexp}
    {o : Outline} :
    WrittenAll P depth ts c k o → blocks c = o.loaded.map LoadedBlock.code ++ blocks k
  | .nil => rfl
  | .cons hothers hfirst hcode => by
    rw [blocks_of_writtenAll hothers, blocks_of_written hfirst, blocks_of_begins rfl hcode]
    simp

/-- The same for the code of the arms of a `LETREC`. -/
theorem blocks_of_writtenArms {P : Address → Prop} {depth : Nat} {names : List String}
    {ts : List Term} {c k : Sexp} {o : Outline} :
    WrittenArms P depth names ts c k o → blocks c = o.loaded.map LoadedBlock.code ++ blocks k
  | .nil _ => rfl
  | .function hothers hfirst hcode | .other _ hothers hfirst hcode => by
    rw [blocks_of_writtenArms hothers, blocks_of_written hfirst, blocks_of_begins rfl hcode]
    simp

end

/-! ### Listings of code that is the same -/

/-- The blocks of the second code are the same as those of the first, one after the other, and if
they have the same names, then the second code has the lines of the first. -/
structure Agree (c c' : Sexp) : Prop where
  blocks : List.Forall₂ (fun b b' => b.same b' = true) (blocks c) (blocks c')
  lines (name? name?' : Sexp → Option String)
    (h : (Listing.blocks c).map name? = (Listing.blocks c').map name?') (depth index : Nat) :
      lines name? depth index c = lines name?' depth index c'

/-- Trees that are the same stand for the same instruction. -/
theorem ofValue?_of_same {e e' : Sexp} (hplain : e.AllAtoms Atom.Plain) (h : e.same e' = true) :
    Opcode.ofValue? e'.value = Opcode.ofValue? e.value := by
  cases e with
  | atom a =>
    obtain ⟨b, rfl, hab⟩ := Sexp.exists_atom_of_same h
    rw [Atom.Plain.eq_of_same hplain hab]
  | pair c head tail =>
    obtain ⟨c', head', tail', rfl, -, -⟩ := Sexp.exists_pair_of_same h
    rfl

/-- The names of blocks that come one after the other. -/
theorem names_of_append {name? name?' : Sexp → Option String} {bs bs' ds ds' : List Sexp}
    (hblocks : List.Forall₂ (fun b b' => b.same b' = true) bs bs')
    (h : (bs ++ ds).map name? = (bs' ++ ds').map name?') :
    bs.map name? = bs'.map name?' ∧ ds.map name? = ds'.map name?' := by
  rw [List.map_append, List.map_append] at h
  refine List.append_inj h ?_
  rw [List.length_map, List.length_map]
  exact hblocks.length_eq

/-- Where operands of an instruction are missing, nothing follows it, or one branch of a `SEL`. -/
theorem short_of_missing {op : Opcode} {rest : Sexp} (hcount : op.operandCount ≠ 0)
    (hldf : ∀ cell block tail, rest = .pair cell block tail → op = .ldf → False)
    (hsel : ∀ cell yes cell' no tail, rest = .pair cell yes (.pair cell' no tail) →
      op = .sel → False)
    (hld : ∀ cell item tail, rest = .pair cell item tail → op = .ld → False)
    (hldc : ∀ cell item tail, rest = .pair cell item tail → op = .ldc → False) :
    (∃ a, rest = .atom a) ∨ op = .sel ∧ ∃ cell item a, rest = .pair cell item (.atom a) := by
  rcases rest with a | ⟨cell, item, tail⟩
  · exact .inl ⟨a, rfl⟩
  · cases op with
    | ldf => exact (hldf _ _ _ rfl rfl).elim
    | ld => exact (hld _ _ _ rfl rfl).elim
    | ldc => exact (hldc _ _ _ rfl rfl).elim
    | sel =>
      cases tail with
      | atom a => exact .inr ⟨rfl, cell, item, a, rfl⟩
      | pair _ _ _ => exact (hsel _ _ _ _ _ rfl rfl).elim
    | _ => exact (hcount rfl).elim

/-- Code that is the same has the same blocks, and the same lines if these have the same names. -/
theorem agree_of_same {c c' : Sexp} (hplain : c.AllAtoms Atom.Plain) (h : c.same c' = true) :
    Agree c c' := by
  fun_induction blocks c generalizing c' with
  | case1 a =>
    obtain ⟨b, rfl, hab⟩ := Sexp.exists_atom_of_same h
    obtain rfl := Atom.Plain.eq_of_same hplain hab
    refine ⟨.nil, fun _ _ _ depth index => ?_⟩
    cases a <;> rfl
  | case2 cell head rest hop ih =>
    obtain ⟨cell', head', rest', rfl, hhead, hrest⟩ := Sexp.exists_pair_of_same h
    have hop' := (ofValue?_of_same hplain.1 hhead).trans hop
    have hagree := ih hplain.2 hrest
    refine ⟨by simpa only [blocks, hop, hop'] using hagree.blocks, ?_⟩
    intro name? name?' hnames depth index
    simp only [blocks, hop, hop'] at hnames
    simp only [lines, hop, hop', hagree.lines name? name?' hnames,
      Sexp.render_eq_of_same hplain.1 hhead]
  | case3 cell head cell' block rest hop ihBlock ihRest =>
    obtain ⟨_, head', tail', rfl, hhead, htail⟩ := Sexp.exists_pair_of_same h
    obtain ⟨_, block', rest', rfl, hblock, hrest⟩ := Sexp.exists_pair_of_same htail
    have hop' := (ofValue?_of_same hplain.1 hhead).trans hop
    have hagree := ihBlock hplain.2.1 hblock
    have hagree' := ihRest hplain.2.2 hrest
    refine ⟨?_, fun name? name?' hnames depth index => ?_⟩
    · simp only [blocks, hop, hop']
      exact .cons hblock (List.rel_append hagree.blocks hagree'.blocks)
    · simp only [blocks, hop, hop', List.map_cons, List.cons.injEq] at hnames
      obtain ⟨hname, hnames⟩ := hnames
      obtain ⟨hnames, hnames'⟩ := names_of_append hagree.blocks hnames
      simp only [lines, hop, hop', hname, hagree.lines name? name?' hnames,
        hagree'.lines name? name?' hnames']
  | case4 cell head cell' yes cell'' no rest hop ihYes ihNo ihRest =>
    obtain ⟨_, head', tail', rfl, hhead, htail⟩ := Sexp.exists_pair_of_same h
    obtain ⟨_, yes', tail'', rfl, hyes, htail'⟩ := Sexp.exists_pair_of_same htail
    obtain ⟨_, no', rest', rfl, hno, hrest⟩ := Sexp.exists_pair_of_same htail'
    have hop' := (ofValue?_of_same hplain.1 hhead).trans hop
    have hagree := ihYes hplain.2.1 hyes
    have hagree' := ihNo hplain.2.2.1 hno
    have hagree'' := ihRest hplain.2.2.2 hrest
    refine ⟨?_, fun name? name?' hnames depth index => ?_⟩
    · simp only [blocks, hop, hop']
      exact List.rel_append hagree.blocks (List.rel_append hagree'.blocks hagree''.blocks)
    · simp only [blocks, hop, hop'] at hnames
      obtain ⟨hnames, hothers⟩ := names_of_append hagree.blocks hnames
      obtain ⟨hnames', hnames''⟩ := names_of_append hagree'.blocks hothers
      simp only [lines, hop, hop', hagree.lines name? name?' hnames,
        hagree'.lines name? name?' hnames', hagree''.lines name? name?' hnames'']
  | case5 cell head cell' operand rest hop ih
  | case6 cell head cell' operand rest hop ih =>
    obtain ⟨_, head', tail', rfl, hhead, htail⟩ := Sexp.exists_pair_of_same h
    obtain ⟨_, operand', rest', rfl, hoperand, hrest⟩ := Sexp.exists_pair_of_same htail
    have hop' := (ofValue?_of_same hplain.1 hhead).trans hop
    have hagree := ih hplain.2.2 hrest
    refine ⟨by simpa only [blocks, hop, hop'] using hagree.blocks, ?_⟩
    intro name? name?' hnames depth index
    simp only [blocks, hop, hop'] at hnames
    simp only [lines, hop, hop', hagree.lines name? name?' hnames,
      Sexp.render_eq_of_same hplain.2.1 hoperand]
  | case7 cell head op rest hldf hsel hld hldc hop hcount ih =>
    obtain ⟨_, head', rest', rfl, hhead, hrest⟩ := Sexp.exists_pair_of_same h
    have hop' := (ofValue?_of_same hplain.1 hhead).trans hop
    have hagree := ih hplain.2 hrest
    refine ⟨?_, fun name? name?' hnames depth index => ?_⟩
    · have := hagree.blocks
      cases op <;> simp_all [blocks, Opcode.operandCount]
    · have := hagree.lines name? name?'
      cases op <;> simp_all [blocks, lines, Opcode.operandCount]
  | case8 cell head op rest hldf hsel hld hldc hop hcount =>
    obtain ⟨_, head', rest', rfl, hhead, hrest⟩ := Sexp.exists_pair_of_same h
    have hop' := (ofValue?_of_same hplain.1 hhead).trans hop
    -- the operand that is missing here is missing in the other code as well
    rcases short_of_missing hcount hldf hsel hld hldc with ⟨a, rfl⟩ | ⟨rfl, cell₁, item, a, rfl⟩
    · obtain ⟨b, rfl, -⟩ := Sexp.exists_atom_of_same hrest
      constructor
      · cases op <;> simp_all [blocks, Opcode.operandCount]
      · cases op <;> simp_all [lines, Opcode.operandCount]
    · obtain ⟨_, item', tail', rfl, -, htail⟩ := Sexp.exists_pair_of_same hrest
      obtain ⟨b, rfl, -⟩ := Sexp.exists_atom_of_same htail
      refine ⟨by simp [blocks, hop, hop', Opcode.operandCount], ?_⟩
      simp [lines, hop, hop', Opcode.operandCount]

/-! ### Listings of modules that are the same -/

/-- The lines above the code in the listing of a module. -/
def heading (m : Module) : List String :=
  ["=== Module Disassembly ===",
    "shape: " ++ shapeName m.shape ++ ", prelude: " ++ toString m.usesPrelude,
    "",
    "Named closures (" ++ toString m.named.length ++ "):"] ++
  m.named.map (fun n => "  " ++ n.name) ++
  ["", "Code:"]

/-- The listing of a module in which the blocks have the names that `name?` finds. -/
def naming (m : Module) (name? : Sexp → Option String) : String :=
  text (heading m ++ lines name? 1 0 m.code)

/-- The labels in the listing of a module, one for each block that the code loads. -/
def labels (m : Module) : List (Option String) := (blocks m.code).map m.closureName?

/-- The listing of a module names the blocks as the module does. -/
theorem ofModule_eq_naming (m : Module) : ofModule m = naming m m.closureName? := rfl

variable {m m' : Module}

/-- Modules that are the same have listings with the same lines above the code. -/
theorem heading_of_same (h : m.same m' = true) : heading m' = heading m := by
  obtain ⟨-, hshape, hprelude, hnamed⟩ := Module.same_iff.1 h
  have hnames : m.named.map (fun n => "  " ++ n.name) = m'.named.map fun n => "  " ++ n.name := by
    rw [← List.forall₂_eq_eq_eq, List.forall₂_map_left_iff, List.forall₂_map_right_iff]
    exact hnamed.imp fun n n' hn => congrArg _ hn.1
  rw [heading, heading, hshape, hprelude, hnames, hnamed.length_eq]

/-- A module has the listing of a module that is the same, with other labels. -/
theorem ofModule_eq_of_same (hplain : m.code.AllAtoms Atom.Plain) (h : m.same m' = true)
    {name? : Sexp → Option String} (hnames : (blocks m.code).map name? = labels m') :
    ofModule m' = naming m name? := by
  have hcode := (Module.same_iff.1 h).1
  rw [ofModule_eq_naming, naming, naming, heading_of_same h,
    (agree_of_same hplain hcode).lines name? m'.closureName? hnames]

end Listing

end Secd
