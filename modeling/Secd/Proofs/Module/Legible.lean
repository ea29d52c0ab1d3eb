import Secd.Proofs.Module.Assembled
import Secd.Proofs.Module.Lines

/-!
# What a listing tells about code

The code of a program consists of instructions with their operands: addresses and constants that can
be read, and further code. A listing of such code determines it. The lines are known, because none
of them has a line break in it; the number on a line is known, because it ends with a colon, and
then the depth of the line is, because the blanks in front are as many as the depth and the width of
the number make them. So the lines of an instruction are those up to the next one that is not
deeper, and the operand on its line is known by its printed form.
-/

namespace Secd

namespace Listing

/-! ### Legible code -/

mutual

/-- The code consists of instructions with their operands. -/
inductive Legible : Sexp → Prop where
  | nil : Legible .nil
  | instruction {op : Opcode} {operands : List Sexp} {c k : Sexp}
      (hcode : c.Begins (op.sexp :: operands) k) (hop : Operands op operands) (hk : Legible k) :
      Legible c

/-- These are operands for the instruction. -/
inductive Operands : Opcode → List Sexp → Prop where
  | none {op : Opcode} (hcount : op.operandCount = 0) : Operands op []
  | value {op : Opcode} {x : Sexp} (hop : op = .ld ∨ op = .ldc) (hx : x.AllAtoms Atom.Readable) :
      Operands op [x]
  | block {code : Sexp} (hcode : Legible code) : Operands .ldf [code]
  | branches {yes no : Sexp} (hyes : Legible yes) (hno : Legible no) : Operands .sel [yes, no]

end

/-- The lines of code without names. -/
abbrev plainLines (depth index : Nat) (code : Sexp) : List String :=
  lines (fun _ => none) depth index code

/-- What stands next to the symbol of an instruction. -/
def beside : Opcode → List Sexp → String
  | .ld, [x] | .ldc, [x] => " " ++ x.render
  | _, _ => ""

/-- The lines for the operands of an instruction. -/
def below (depth : Nat) : Opcode → List Sexp → List String
  | .ldf, [code] => plainLines (depth + 1) 0 code
  | .sel, [yes, no] =>
    (Text.indent (depth + 1) ++ "then:") :: (plainLines (depth + 2) 0 yes ++
      (Text.indent (depth + 1) ++ "else:") :: plainLines (depth + 2) 0 no)
  | _, _ => []

/-- What stands next to the symbol is empty or begins with a blank. -/
theorem beside_eq_or (op : Opcode) (operands : List Sexp) :
    beside op operands = "" ∨ ∃ rest, beside op operands = " " ++ rest := by
  unfold beside
  split
  · exact .inr ⟨_, rfl⟩
  · exact .inr ⟨_, rfl⟩
  · exact .inl rfl

/-- The lines of an instruction and of the code after it. -/
theorem plainLines_of_begins {op : Opcode} {operands : List Sexp} {c k : Sexp}
    (hcode : c.Begins (op.sexp :: operands) k) (hop : Operands op operands) (depth index : Nat) :
    plainLines depth index c =
      (margin depth index ++ (op.mnemonic ++ beside op operands)) ::
        (below depth op operands ++ plainLines depth (index + 1) k) := by
  cases hop with
  | none hcount =>
    obtain ⟨cell, tail, rfl, rfl⟩ := hcode
    cases op <;> simp_all [lines, beside, below, Opcode.operandCount]
  | value hop hx =>
    obtain ⟨cell, _, rfl, cell', _, rfl, rfl⟩ := hcode
    rcases hop with rfl | rfl <;> simp [lines, beside, below, String.append_assoc]
  | block _ =>
    obtain ⟨cell, _, rfl, cell', _, rfl, rfl⟩ := hcode
    simp [lines, beside, below, blockHead]
  | branches _ _ =>
    obtain ⟨cell, _, rfl, cell', _, rfl, cell'', _, rfl, rfl⟩ := hcode
    simp [lines, beside, below]

/-! ### The lines of legible code -/

mutual

/-- There are no line breaks in the lines of legible code. -/
theorem Legible.newline_not_mem {c : Sexp} {depth index : Nat} :
    Legible c → ∀ line ∈ plainLines depth index c, '\n' ∉ line.toList
  | .nil => List.forall_mem_nil _
  | .instruction hcode hop hk => by
    obtain ⟨hbeside, hbelow⟩ := hop.newline_not_mem
    rw [plainLines_of_begins hcode hop]
    refine List.forall_mem_cons.2 ⟨?_, List.forall_mem_append.2 ⟨hbelow, hk.newline_not_mem⟩⟩
    have hmnemonic (op : Opcode) : '\n' ∉ op.mnemonic.toList :=
      fun hmem => absurd (isSymbolPart_of_mem_mnemonic hmem) (by decide)
    simp only [String.toList_append, List.mem_append, not_or]
    exact ⟨newline_not_mem_margin depth index, hmnemonic _, hbeside⟩

/-- The same for the operands of an instruction. -/
theorem Operands.newline_not_mem {op : Opcode} {operands : List Sexp} {depth : Nat} :
    Operands op operands → '\n' ∉ (beside op operands).toList ∧
      ∀ line ∈ below depth op operands, '\n' ∉ line.toList
  | .none hcount => by simp [beside, below]
  | .value (x := x) hop hx => by
    have hrender : '\n' ∉ (" " ++ x.render).toList := by
      rw [String.toList_append, List.mem_append, not_or]
      exact ⟨by decide, Sexp.newline_not_mem_render hx⟩
    rcases hop with rfl | rfl <;> exact ⟨hrender, List.forall_mem_nil _⟩
  | .block hcode => ⟨by simp [beside], hcode.newline_not_mem⟩
  | .branches hyes hno => by
    refine ⟨by simp [beside], List.forall_mem_cons.2 ⟨newline_not_mem_indent (by decide) _, ?_⟩⟩
    refine List.forall_mem_append.2 ⟨hyes.newline_not_mem, List.forall_mem_cons.2 ⟨?_, ?_⟩⟩
    · exact newline_not_mem_indent (by decide) _
    · exact hno.newline_not_mem

end

/-- The lines do not go on with a line that has a number and is at least this deep. -/
def Shallower (depth : Nat) (lines : List String) : Prop :=
  ∀ line ∈ lines.head?, ∀ depth' index rest, depth ≤ depth' → line ≠ margin depth' index ++ rest

/-- What is not as deep is not deeper either. -/
theorem Shallower.of_le {depth depth' : Nat} {lines : List String} (h : Shallower depth lines)
    (hle : depth ≤ depth') : Shallower depth' lines :=
  fun line hline deep index rest hdeep => h line hline deep index rest (Nat.le_trans hle hdeep)

/-- The lines of code are not deeper than the code. -/
theorem shallower_plainLines {depth index : Nat} {c : Sexp} {more : List String} (hc : Legible c)
    (hmore : Shallower depth more) :
    Shallower (depth + 1) (plainLines depth index c ++ more) := by
  cases hc with
  | nil => exact hmore.of_le (Nat.le_succ _)
  | instruction hcode hop hk =>
    rw [plainLines_of_begins hcode hop]
    intro line hline deep index' rest hdeep heq
    obtain rfl := Option.some.inj hline
    have hdepth := (margin_unique heq).1
    omega

/-- The line above the second branch has no number. -/
theorem shallower_else (depth depth' : Nat) (more : List String) :
    Shallower depth ((Text.indent depth' ++ "else:") :: more) := by
  intro line hline deep index rest _
  obtain rfl := Option.some.inj hline
  have hword : "else:".toList = 'e' :: ['l', 's', 'e', ':'] := rfl
  exact margin_ne_indent hword (by decide) (by decide)

mutual

/-- Legible code is determined by its lines, and so is what comes after them, if this is
shallower. -/
theorem Legible.same_of_plainLines {c c' : Sexp} {depth index : Nat} {more more' : List String}
    (hmore : Shallower depth more) (hmore' : Shallower depth more')
    (heq : plainLines depth index c ++ more = plainLines depth index c' ++ more') :
    Legible c → Legible c' → c.same c' = true ∧ more = more'
  | .nil, .nil => ⟨rfl, heq⟩
  | .nil, .instruction hcode hop _ => by
    rw [plainLines_of_begins hcode hop] at heq
    obtain rfl : more = _ := heq
    exact absurd rfl (hmore _ rfl _ _ _ (Nat.le_refl _))
  | .instruction hcode hop _, .nil => by
    rw [plainLines_of_begins hcode hop] at heq
    obtain rfl : _ = more' := heq
    exact absurd rfl (hmore' _ rfl _ _ _ (Nat.le_refl _))
  | .instruction hcode hop hk, .instruction hcode' hop' hk' => by
    rw [plainLines_of_begins hcode hop, plainLines_of_begins hcode' hop', List.cons_append,
      List.cons_append, List.append_assoc, List.append_assoc] at heq
    obtain ⟨hline, hlines⟩ := List.cons.inj heq
    obtain ⟨rfl, hbeside⟩ := mnemonic_unique (beside_eq_or _ _) (beside_eq_or _ _)
      (margin_unique hline).2.2
    obtain ⟨hoperands, hrest⟩ := hop.same_of_below (shallower_plainLines hk hmore)
      (shallower_plainLines hk' hmore') hbeside hlines hop'
    obtain ⟨hsame, rfl⟩ := hk.same_of_plainLines hmore hmore' hrest hk'
    exact ⟨hcode.same_instruction hcode' hoperands hsame, rfl⟩

/-- The operands of an instruction are determined by what stands next to it and below it. -/
theorem Operands.same_of_below {op : Opcode} {operands operands' : List Sexp} {depth : Nat}
    {more more' : List String} (hmore : Shallower (depth + 1) more)
    (hmore' : Shallower (depth + 1) more') (hbeside : beside op operands = beside op operands')
    (heq : below depth op operands ++ more = below depth op operands' ++ more') :
    Operands op operands → Operands op operands' →
      List.Forall₂ (fun x x' => x.same x' = true) operands operands' ∧ more = more'
  | .none _, .none _ => ⟨.nil, by simpa [below] using heq⟩
  | .value (x := x) hop hx, .value (x := y) _ hx' => by
    have hrender : x.render = y.render ∧ more = more' := by
      rcases hop with rfl | rfl <;> exact ⟨(String.append_right_inj " ").1 hbeside, heq⟩
    exact ⟨.cons (Reader.same_of_render_eq hx hx' hrender.1) .nil, hrender.2⟩
  | .block hcode, .block hcode' => by
    obtain ⟨hsame, rfl⟩ := hcode.same_of_plainLines hmore hmore' heq hcode'
    exact ⟨.cons hsame .nil, rfl⟩
  | .branches hyes hno, .branches hyes' hno' => by
    rw [below, below, List.cons_append, List.cons_append, List.append_assoc, List.append_assoc,
      List.cons_append, List.cons_append] at heq
    obtain ⟨hyesSame, hrest⟩ := hyes.same_of_plainLines (shallower_else _ _ _)
      (shallower_else _ _ _) (List.cons.inj heq).2 hyes'
    obtain ⟨hnoSame, rfl⟩ := hno.same_of_plainLines (hmore.of_le (Nat.le_succ _))
      (hmore'.of_le (Nat.le_succ _)) (List.cons.inj hrest).2 hno'
    exact ⟨.cons hyesSame (.cons hnoSame .nil), rfl⟩
  | .none hcount, .value hop _ => by rcases hop with rfl | rfl <;> cases hcount
  | .value hop _, .none hcount => by rcases hop with rfl | rfl <;> cases hcount
  | .value hop _, .block _ => by simp at hop
  | .block _, .value hop _ => by simp at hop
  | .value hop _, .branches _ _ => by simp at hop
  | .branches _ _, .value hop _ => by simp at hop

end

/-- Legible code is determined by its listing. -/
theorem Legible.same_of_ofCode {c c' : Sexp} (hc : Legible c) (hc' : Legible c')
    (heq : ofCode c = ofCode c') : c.same c' = true := by
  have hlines := lines_unique hc.newline_not_mem hc'.newline_not_mem heq
  have hend : Shallower 0 [] := fun line hline => absurd hline (by simp)
  have hall : plainLines 0 0 c ++ [] = plainLines 0 0 c' ++ [] := by
    rw [List.append_nil, List.append_nil]
    exact hlines
  exact (hc.same_of_plainLines hend hend hall hc').1

/-! ### Compiled code is legible -/

/-- An instruction without operands in front of legible code. -/
theorem legible_of_begins {op : Opcode} {c k : Sexp} (hcount : op.operandCount = 0)
    (hcode : c.Begins [op.sexp] k) (hk : Legible k) : Legible c :=
  .instruction hcode (.none hcount) hk

/-- The empty list can be read. -/
theorem readable_nil : Sexp.nil.AllAtoms Atom.Readable := trivial

/-- A constant that can be read in front of legible code. -/
theorem legible_of_begins_ldc {x c k : Sexp} (hx : x.AllAtoms Atom.Readable)
    (hcode : c.Begins [Opcode.ldc.sexp, x] k) (hk : Legible k) : Legible c :=
  .instruction hcode (.value (.inr rfl) hx) hk

open Term

mutual

/-- The code of a term is legible if its constants can be read and the code after it is legible. -/
theorem legible_of_written {P : Address → Prop} {depth : Nat} {t : Term} {c k : Sexp}
    {o : Outline} : Written P depth t c k o → t.AllAtoms Atom.Readable → Legible k → Legible c
  | .constant hcode, ht, hk =>
    legible_of_begins_ldc (ht _ List.mem_cons_self) hcode hk
  | .variable hcode _, _, hk =>
    .instruction hcode (.value (.inl rfl) ⟨trivial, trivial⟩) hk
  | .unary hwritten hcode, ht, hk => legible_of_written hwritten ht (legible_of_begins rfl hcode hk)
  | .binary hwritten hwritten' hcode, ht, hk => by
    obtain ⟨hearlier, hlater⟩ := List.forall_mem_append.1 ht
    exact legible_of_written hwritten hearlier
      (legible_of_written hwritten' hlater (legible_of_begins rfl hcode hk))
  | .conditional hwritten hcode hyes hyesEnd hno hnoEnd, ht, hk => by
    obtain ⟨htest, hbranches⟩ := List.forall_mem_append.1 ht
    obtain ⟨hyesAtoms, hnoAtoms⟩ := List.forall_mem_append.1 hbranches
    have hyesCode := legible_of_written hyes hyesAtoms (legible_of_begins rfl hyesEnd .nil)
    have hnoCode := legible_of_written hno hnoAtoms (legible_of_begins rfl hnoEnd .nil)
    exact legible_of_written hwritten htest (.instruction hcode (.branches hyesCode hnoCode) hk)
  | .lambda hcode hbody hend, ht, hk =>
    .instruction hcode (.block (legible_of_written hbody ht (legible_of_begins rfl hend .nil))) hk
  | .apply hcode hargs hf hap, ht, hk => by
    obtain ⟨hfunction, hall⟩ := List.forall_mem_append.1 ht
    have hcall := legible_of_written hf hfunction (legible_of_begins rfl hap hk)
    exact legible_of_begins_ldc readable_nil hcode (legible_of_writtenAll hargs hall hcall)
  | .letrec hdum hnil hinits hldf hrap hbody hend, ht, hk => by
    obtain ⟨hall, hinner⟩ := List.forall_mem_append.1 ht
    have hblock := legible_of_written hbody hinner (legible_of_begins rfl hend .nil)
    have hcall : Legible _ := .instruction hldf (.block hblock) (legible_of_begins rfl hrap hk)
    exact legible_of_begins rfl hdum
      (legible_of_begins_ldc readable_nil hnil (legible_of_writtenArms hinits hall hcall))

/-- The same for the code of arguments. -/
theorem legible_of_writtenAll {P : Address → Prop} {depth : Nat} {ts : List Term} {c k : Sexp}
    {o : Outline} : WrittenAll P depth ts c k o →
      (∀ x ∈ constantsAll ts, x.AllAtoms Atom.Readable) → Legible k → Legible c
  | .nil, _, hk => hk
  | .cons hothers hfirst hcode, hts, hk => by
    obtain ⟨ht, hts⟩ := List.forall_mem_append.1 hts
    exact legible_of_writtenAll hothers hts
      (legible_of_written hfirst ht (legible_of_begins rfl hcode hk))

/-- The same for the code of the arms of a `LETREC`. -/
theorem legible_of_writtenArms {P : Address → Prop} {depth : Nat} {names : List String}
    {ts : List Term} {c k : Sexp} {o : Outline} : WrittenArms P depth names ts c k o →
      (∀ x ∈ constantsAll ts, x.AllAtoms Atom.Readable) → Legible k → Legible c
  | .nil _, _, hk => hk
  | .function hothers hfirst hcode, hts, hk | .other _ hothers hfirst hcode, hts, hk => by
    obtain ⟨ht, hts⟩ := List.forall_mem_append.1 hts
    exact legible_of_writtenArms hothers hts
      (legible_of_written hfirst ht (legible_of_begins rfl hcode hk))

end

end Listing

namespace Module

open Listing

/-- The code of a program that has been read is legible. -/
theorem legible_of_compile {source : String} {shape : Shape} {prelude : Option Prelude}
    {s s₁ s₂ : Store} {r : Reading} {m : Module}
    (hread : Reader.readOne source s = (.ok r, s₁))
    (hcompile : compile r.expression r.map shape prelude s₁ = (.ok m, s₂)) : Legible m.code := by
  obtain ⟨t, blocks, hresolves, -, h⟩ := exists_assembled_of_compile hcompile
  obtain ⟨o, k, hwritten, hends, -⟩ := h.written
  have hk : Legible k := by
    cases hshape : m.shape with
    | expression =>
      rw [hshape] at hends
      exact legible_of_begins rfl hends .nil
    | applied =>
      rw [hshape] at hends
      obtain ⟨d, hap, hstop⟩ := Sexp.Begins.append [Opcode.ap.sexp] hends
      exact legible_of_begins rfl hap (legible_of_begins rfl hstop .nil)
  exact legible_of_written hwritten (hresolves.allAtoms (Reader.allAtoms_of_readOne hread)) hk

/-- Two programs have the same listing of their code exactly if they have the same code, whatever
their shapes are and whether they count on a prelude. -/
theorem ofCode_eq_iff_same {source source' : String} {shape shape' : Shape}
    {prelude prelude' : Option Prelude} {s s₁ s₂ u u₁ u₂ : Store} {r r' : Reading} {m m' : Module}
    (hread : Reader.readOne source s = (.ok r, s₁))
    (hcompile : compile r.expression r.map shape prelude s₁ = (.ok m, s₂))
    (hread' : Reader.readOne source' u = (.ok r', u₁))
    (hcompile' : compile r'.expression r'.map shape' prelude' u₁ = (.ok m', u₂)) :
    ofCode m.code = ofCode m'.code ↔ m.code.same m'.code = true := by
  constructor
  · exact (legible_of_compile hread hcompile).same_of_ofCode (legible_of_compile hread' hcompile')
  · intro hsame
    obtain ⟨t, blocks, hresolves, -, h⟩ := exists_assembled_of_compile hcompile
    have hreadable := (Reader.allAtoms_of_readOne hread).imp fun _ => Atom.Readable.plain
    have hplain := h.allAtoms Atom.coded_plain (hresolves.allAtoms hreadable)
    have hnone (bs bs' : List Sexp) (hbs : List.Forall₂ (fun b b' => b.same b' = true) bs bs') :
        bs.map (fun _ => (none : Option String)) = bs'.map fun _ => none := by
      rw [List.map_const', List.map_const', hbs.length_eq]
    have hagree := agree_of_same hplain hsame
    exact congrArg text (hagree.lines _ _ (hnone _ _ hagree.blocks) 0 0)

/-- Two programs whose bound variables have different names are known to have the same code by their
listing, in which a block has a conditional and two functions in it. -/
theorem ofCode_eq_iff_same_renamed : ∃ r s₁ s₂ m r' u₁ u₂ m',
    Reader.readOne "(LAMBDA (X) (IF X (LAMBDA (Y) X) (LAMBDA (Z) '(A . 1))))" .empty =
        (.ok r, s₁) ∧
      compile r.expression r.map .expression none s₁ = (.ok m, s₂) ∧
      Reader.readOne "(LAMBDA (B) (IF B (LAMBDA (C) B) (LAMBDA (B) '(A . 1))))" .empty =
        (.ok r', u₁) ∧
      compile r'.expression r'.map .expression none u₁ = (.ok m', u₂) ∧
      ofCode m.code = ofCode m'.code ∧ m.code.same m'.code = true := by
  have hlistings : ((ofText? "(LAMBDA (X) (IF X (LAMBDA (Y) X) (LAMBDA (Z) '(A . 1))))").bind
      fun m => (ofText? "(LAMBDA (B) (IF B (LAMBDA (C) B) (LAMBDA (B) '(A . 1))))").map
        fun m' => decide (ofCode m.code = ofCode m'.code)) = some true := by
    decide +kernel
  obtain ⟨m, hm, hlistings⟩ := Option.bind_eq_some_iff.1 hlistings
  obtain ⟨m', hm', hlistings⟩ := Option.map_eq_some_iff.1 hlistings
  obtain ⟨r, s₁, s₂, hread, hcompile⟩ := exists_of_ofText? hm
  obtain ⟨r', u₁, u₂, hread', hcompile'⟩ := exists_of_ofText? hm'
  have heq := of_decide_eq_true hlistings
  exact ⟨r, s₁, s₂, m, r', u₁, u₂, m', hread, hcompile, hread', hcompile', heq,
    (ofCode_eq_iff_same hread hcompile hread' hcompile').1 heq⟩

end Module

end Secd
