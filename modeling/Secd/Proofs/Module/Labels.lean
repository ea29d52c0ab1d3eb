import Secd.Proofs.Module.Legible
import Secd.Proofs.Module.NamedBlocks
import Secd.Proofs.Module.Shown

/-!
# Labels in listings

A module that has just been compiled knows the block of each function that a `LETREC` arm binds by
its cell, and labels it with the name of the arm. A block of no arm may have a label, too: that of
the first arm whose block has the same code. Saving a module forgets the cells, so that in the
listing of the module that is read back every block is labelled in this way. The two listings differ
if and only if arms of different names have the same code. All this is about the text of the
listings: each label is on the line of its block, and it can be read off the text because no line
has a line break in it.
-/

namespace Secd

namespace Module

variable {m m' : Module} {block : Sexp} {name : String}

/-! ### Modules that have been read back -/

/-- No named block of a module that has been read back is in a cell of its code. So each block has
the first name for its code. -/
theorem labels_of_built {s s' : Store} (hplain : m.code.AllAtoms Atom.Plain)
    (hsame : m.same m' = true) (hbuilt : m'.Built s s') :
    Listing.labels m' = (Listing.blocks m.code).map m.firstNamed? := by
  obtain ⟨limit, hcode, hbodies⟩ := hbuilt.apart
  obtain ⟨hcodes, -, -, hnamed⟩ := same_iff.1 hsame
  have hlow := Listing.forall_mem_blocks (Sexp.hereditary_allCells _) hcode
  have hnames : Listing.labels m' = (Listing.blocks m'.code).map m'.firstNamed? := by
    refine List.map_congr_left fun block hblock => closureName?_of_apart ?_
    intro n hn hsome hcell
    obtain ⟨c, hc⟩ := Option.isSome_iff_exists.1 hsome
    have hlt : c < limit := (hlow block hblock).of_cell? (hcell.symm.trans hc)
    have hle : limit ≤ c := (hbodies n hn).of_cell? hc
    omega
  rw [hnames, ← List.forall₂_eq_eq_eq, List.forall₂_map_left_iff, List.forall₂_map_right_iff]
  refine (Listing.agree_of_same hplain hcodes).blocks.flip.imp fun b b' hb => ?_
  exact (firstNamed?_of_same hnamed hb).symm

/-- Arms whose blocks have the same code have the same name. -/
def NamedByCode (blocks : List LoadedBlock) : Prop :=
  ∀ b ∈ blocks, ∀ b' ∈ blocks, b.arm.isSome = true → b'.arm.isSome = true →
    b.code.same b'.code = true → b.arm = b'.arm

namespace Assembled

variable {t : Term} {blocks : List LoadedBlock}

/-- The first name for the code of an arm is that of an arm with the same code. -/
theorem exists_arm_of_isSome (h : m.Assembled t blocks) {b : LoadedBlock} (hb : b ∈ blocks)
    (harm : b.arm.isSome = true) :
    ∃ b' ∈ blocks, b'.arm.isSome = true ∧ b'.code.same b.code = true ∧
      m.firstNamed? b.code = b'.arm := by
  obtain ⟨name, hname⟩ := Option.isSome_iff_exists.1 harm
  have hmem : ⟨name, b.code⟩ ∈ m.named := by
    rw [h.mem_named, ← hname]
    exact hb
  have hsome : (m.named.find? fun n => n.body.same b.code).isSome = true := by
    rw [List.find?_isSome]
    exact ⟨_, hmem, b.code.same_refl⟩
  obtain ⟨n, hn⟩ := Option.isSome_iff_exists.1 hsome
  have hfound := List.find?_some hn
  have hfirst : m.firstNamed? b.code = some n.name := by
    rw [firstNamed?, hn, Option.map_some]
  exact ⟨_, (h.mem_named n).1 (List.mem_of_find?_eq_some hn), rfl, hfound, hfirst⟩

/-- The labels are the first names for the codes of the blocks if and only if no two arms with the
same code have different names. -/
theorem labels_eq_first_iff (h : m.Assembled t blocks) :
    (Listing.labels m = blocks.map fun b => m.firstNamed? b.code) ↔ NamedByCode blocks := by
  rw [h.labels_eq, List.map_inj_left]
  constructor
  · intro hlabels b hb b' hb' harm harm' hcode
    have hfirst (b : LoadedBlock) (hb : b ∈ blocks) (harm : b.arm.isSome = true) :
        b.arm = m.firstNamed? b.code := by
      obtain ⟨name, hname⟩ := Option.isSome_iff_exists.1 harm
      rw [← hlabels b hb, hname, Option.some_or]
    have hnamed : List.Forall₂ NamedBlock.Same m.named m.named :=
      List.forall₂_same.2 fun n _ => ⟨rfl, n.body.same_refl⟩
    rw [hfirst b hb harm, hfirst b' hb' harm', firstNamed?_of_same hnamed hcode]
  · intro hnames b hb
    cases harm : b.arm with
    | none => exact Option.none_or
    | some name =>
      have hsome : b.arm.isSome = true := by rw [harm, Option.isSome_some]
      obtain ⟨b', hb', harm', hcode, hfirst⟩ := h.exists_arm_of_isSome hb hsome
      rw [Option.some_or, hfirst, ← harm]
      exact (hnames b' hb' b hb harm' hsome hcode).symm

end Assembled

/-! ### The lines of the listings -/

/-- A block has the name of a named block. -/
theorem exists_mem_of_closureName? (h : m.closureName? block = some name) :
    ∃ n ∈ m.named, n.name = name := by
  rw [closureName?] at h
  obtain ⟨n, hn, rfl⟩ := Option.map_eq_some_iff.1 h
  rcases Option.or_eq_some_iff.1 hn with hn | ⟨-, hn⟩ <;>
    exact ⟨n, List.mem_of_find?_eq_some hn, rfl⟩

/-- The first name for the code of a block is that of a named block. -/
theorem exists_mem_of_firstNamed? (h : m.firstNamed? block = some name) :
    ∃ n ∈ m.named, n.name = name := by
  rw [firstNamed?] at h
  obtain ⟨n, hn, rfl⟩ := Option.map_eq_some_iff.1 h
  exact ⟨n, List.mem_of_find?_eq_some hn, rfl⟩

/-- The lines above the code are single lines if the names are. -/
theorem newline_not_mem_heading (hnames : ∀ n ∈ m.named, '\n' ∉ n.name.toList) :
    ∀ line ∈ Listing.heading m, '\n' ∉ line.toList := by
  have hshape : '\n' ∉ ("shape: " ++ Listing.shapeName m.shape ++ ", prelude: " ++
      toString m.usesPrelude).toList := by
    cases m.shape <;> cases m.usesPrelude <;> decide
  have hcount : '\n' ∉ ("Named closures (" ++ toString m.named.length ++ "):").toList := by
    have hdigits : '\n' ∉ (toString m.named.length).toList :=
      fun hmem => absurd (isDigit_of_mem_toString hmem) (by decide)
    simp only [String.toList_append, List.mem_append, not_or]
    exact ⟨⟨by decide, hdigits⟩, by decide⟩
  have hlisted : ∀ line ∈ m.named.map (fun n => "  " ++ n.name), '\n' ∉ line.toList := by
    intro line hline
    obtain ⟨n, hn, rfl⟩ := List.mem_map.1 hline
    rw [String.toList_append, List.mem_append, not_or]
    exact ⟨by decide, hnames n hn⟩
  rw [Listing.heading]
  refine List.forall_mem_append.2 ⟨List.forall_mem_append.2 ⟨?_, hlisted⟩, ?_⟩
  · refine List.forall_mem_cons.2 ⟨by decide, List.forall_mem_cons.2 ⟨hshape, ?_⟩⟩
    exact List.forall_mem_cons.2 ⟨by decide, List.forall_mem_singleton.2 hcount⟩
  · exact List.forall_mem_cons.2 ⟨by decide, List.forall_mem_singleton.2 (by decide)⟩

/-- The listing of a program, with whatever names of arms as labels, is made of single lines that
show the blocks of the code with these labels. -/
theorem presents_naming {source : String} {shape : Shape} {prelude : Option Prelude}
    {s s₁ s₂ : Store} {r : Reading} (hread : Reader.readOne source s = (.ok r, s₁))
    (hcompile : compile r.expression r.map shape prelude s₁ = (.ok m, s₂))
    (name? : Sexp → Option String)
    (hname : ∀ block name, name? block = some name → ∃ n ∈ m.named, n.name = name) :
    Listing.Presents name? (Listing.naming m name?) (Listing.heading m)
      (Listing.lines name? 1 0 m.code) ((Listing.blocks m.code).map fun b => (b, name? b)) := by
  have hnames : ∀ n ∈ m.named, '\n' ∉ n.name.toList := by
    intro n hn hmem
    obtain ⟨function, hbinds⟩ := exists_bindsFunction_of_mem_named hcompile n hn
    have hreadable : Atom.Readable (.symbol n.name) :=
      hbinds.hereditary (Sexp.hereditary_allAtoms _) (Reader.allAtoms_of_readOne hread)
    exact absurd (hreadable.isSymbolPart_of_mem hmem) (by decide)
  have hlabels : ∀ block, ∀ name ∈ name? block, '\n' ∉ name.toList := by
    intro block name hblock
    obtain ⟨n, hn, rfl⟩ := hname block name hblock
    exact hnames n hn
  have hlegible := legible_of_compile hread hcompile
  have hlines := Listing.newline_not_mem_lines 1 0 hlegible.newline_not_mem hlabels
  exact ⟨rfl, List.forall_mem_append.2 ⟨newline_not_mem_heading hnames, hlines⟩,
    Listing.shows_lines name? 1 0 m.code⟩

/-- The listing of a program that has just been compiled. -/
theorem Assembled.presents {source : String} {shape : Shape} {prelude : Option Prelude}
    {s s₁ s₂ : Store} {r : Reading} {t : Term} {blocks : List LoadedBlock}
    (hread : Reader.readOne source s = (.ok r, s₁))
    (hcompile : compile r.expression r.map shape prelude s₁ = (.ok m, s₂))
    (h : m.Assembled t blocks) :
    Listing.Presents m.closureName? (Listing.ofModule m) (Listing.heading m)
      (Listing.lines m.closureName? 1 0 m.code)
      (blocks.map fun b => (b.code, b.arm.or (m.firstNamed? b.code))) := by
  have hpresents := presents_naming hread hcompile m.closureName? fun _ _ =>
    exists_mem_of_closureName?
  have hshown : (Listing.blocks m.code).map (fun b => (b, m.closureName? b)) =
      blocks.map fun b => (b.code, b.arm.or (m.firstNamed? b.code)) := by
    rw [h.blocks_eq, List.map_map]
    exact List.map_congr_left fun b hb => congrArg (Prod.mk b.code) (h.closureName?_eq hb)
  rwa [hshown] at hpresents

/-- In the listing of a program that has just been compiled, the line of the block of an arm that is
a function has the name of the arm as its label. The line of any other block has the name of the
first arm whose block has the same code, and no label if there is none. The program can be saved; in
the listing of what is read back, the lines of all blocks have the first names for their code, and
nothing else is different. So the listing has stayed the same if and only if arms of the same code
have the same name. -/
theorem labels_of_compile {source : String} {shape : Shape} {prelude : Option Prelude}
    {s s₁ s₂ : Store} {r : Reading} {m : Module}
    (hread : Reader.readOne source s = (.ok r, s₁))
    (hcompile : compile r.expression r.map shape prelude s₁ = (.ok m, s₂)) :
    ∃ t blocks lines, Term.Resolves (Prelude.scopes prelude) r.expression t ∧ m.shape = shape ∧
      m.Assembled t blocks ∧
      Listing.Presents m.closureName? (Listing.ofModule m) (Listing.heading m) lines
        (blocks.map fun b => (b.code, b.arm.or (m.firstNamed? b.code))) ∧
      ∃ bytes, m.encode = .ok bytes ∧ (m.Storable → ∀ s₃, ∃ m' s₄ lines',
        decode bytes s₃ = .ok (m', s₄) ∧
        Listing.Presents m.firstNamed? (Listing.ofModule m') (Listing.heading m) lines'
          (blocks.map fun b => (b.code, m.firstNamed? b.code)) ∧
        List.Forall₂ (Listing.SameButLabel m.closureName? m.firstNamed?) lines lines' ∧
        (Listing.ofModule m' = Listing.ofModule m ↔ NamedByCode blocks)) := by
  obtain ⟨t, blocks, hresolves, hshape, h⟩ := exists_assembled_of_compile hcompile
  have hreadable := Reader.allAtoms_of_readOne hread
  have hplain : m.Plain := h.plain (hresolves.allAtoms (hreadable.imp fun _ => Atom.Readable.plain))
  obtain ⟨input, hinput⟩ := Option.isSome_iff_exists.1 ((Format.isSome_body? m).2 hplain)
  have hbytes : m.encode = .ok (Format.magic ++ input) := encode_eq_ok_iff.2 ⟨input, hinput, rfl⟩
  have hpresents := h.presents hread hcompile
  refine ⟨t, blocks, _, hresolves, hshape, h, hpresents, _, hbytes, fun hstorable s₃ => ?_⟩
  obtain ⟨m', s₄, hdecode, hsame, hbuilt⟩ := exists_decode_append hstorable hbytes [] s₃
  rw [List.append_nil] at hdecode
  have hlabels := labels_of_built hplain.code hsame hbuilt
  have hlisting : Listing.ofModule m' = Listing.naming m m.firstNamed? :=
    Listing.ofModule_eq_of_same hplain.code hsame hlabels.symm
  have hreread := presents_naming hread hcompile m.firstNamed? fun _ _ => exists_mem_of_firstNamed?
  rw [h.blocks_eq, List.map_map, ← hlisting] at hreread
  refine ⟨m', s₄, _, hdecode, hreread, Listing.sameButLabel_lines _ _ 1 0 m.code, ?_⟩
  rw [← h.labels_eq_first_iff]
  constructor
  · intro heq
    rw [heq] at hreread
    have hunique := hpresents.labels_unique hreread
    rw [List.map_map, List.map_map] at hunique
    exact h.labels_eq.trans hunique
  · intro hfirst
    have hreread : Listing.labels m' = blocks.map fun b => m.firstNamed? b.code := by
      rw [hlabels, h.blocks_eq, List.map_map]
      rfl
    exact Listing.ofModule_eq_of_same hplain.code hsame (hfirst.trans hreread.symm)

/-! ### Arms with the same code -/

/-- What is read back after the module has been saved. -/
def reread? (m : Module) : Option Module :=
  match m.encode with
  | .ok bytes => (decode bytes .empty).toOption.map Prod.fst
  | .error _ => none

/-- The module that is read back has been decoded from the bytes of the module. -/
theorem exists_of_reread? (h : m.reread? = some m') :
    ∃ bytes s, m.encode = .ok bytes ∧ decode bytes .empty = .ok (m', s) := by
  rw [reread?] at h
  split at h
  · next bytes hbytes =>
    cases hdecode : decode bytes .empty with
    | error _ =>
      rw [hdecode] at h
      cases h
    | ok result =>
      rw [hdecode] at h
      obtain rfl := Option.some.inj h
      exact ⟨bytes, result.2, hbytes, hdecode⟩
  · cases h

/-- A program with two arms of the same code, which is also that of the function in the body. -/
def twins : String := "(LETREC ((F (LAMBDA (X) X)) (G (LAMBDA (X) X))) (LAMBDA (X) X))"

/-- The listing of the program, with a label for the block of the arm `G`. -/
def twinsListing (label : String) : String :=
  Listing.text ["=== Module Disassembly ===", "shape: expression, prelude: false", "",
    "Named closures (2):", "  F", "  G", "", "Code:",
    "     0: DUM", "     1: LDC NIL",
    "     2: LDF  ; " ++ label, "       0: LD (0 . 0)", "       1: RTN", "     3: CONS",
    "     4: LDF  ; F", "       0: LD (0 . 0)", "       1: RTN", "     5: CONS",
    "     6: LDF", "       0: LDF  ; F", "         0: LD (0 . 0)", "         1: RTN",
    "       1: RTN", "     7: RAP", "     8: STOP"]

/-- How the program is listed when it has been compiled, and after it has been saved. -/
theorem exists_twins : ∃ m, ofText? twins = some m ∧ m.Storable ∧
    m.named.map NamedBlock.name = ["F", "G"] ∧
    Listing.labels m = [some "G", some "F", none, some "F"] ∧
    Listing.ofModule m = twinsListing "G" ∧
    ∃ m', m.reread? = some m' ∧ Listing.ofModule m' = twinsListing "F" := by
  have h : (ofText? twins).any (fun m => decide (m.Storable ∧
      m.named.map NamedBlock.name = ["F", "G"] ∧
      Listing.labels m = [some "G", some "F", none, some "F"] ∧
      Listing.ofModule m = twinsListing "G") &&
      m.reread?.any fun m' => decide (Listing.ofModule m' = twinsListing "F")) = true := by
    decide +kernel
  obtain ⟨m, hm, h⟩ := (Option.any_eq_true _ _).1 h
  obtain ⟨hfacts, hsaved⟩ := Bool.and_eq_true_iff.1 h
  obtain ⟨hstorable, hnames, hlabels, hlisting⟩ := of_decide_eq_true hfacts
  obtain ⟨m', hm', hlisting'⟩ := (Option.any_eq_true _ _).1 hsaved
  exact ⟨m, hm, hstorable, hnames, hlabels, hlisting, m', hm', of_decide_eq_true hlisting'⟩

/-- The listings of the program before and after it has been saved: the function in the body has the
name of an arm from the beginning, and then both arms have the name of the first one, because they
have the same code. -/
theorem labels_of_compile_twins : ∃ r s₁ s₂ m t blocks bytes m' s₄,
    Reader.readOne twins .empty = (.ok r, s₁) ∧
      compile r.expression r.map .expression none s₁ = (.ok m, s₂) ∧ m.Assembled t blocks ∧
      Listing.ofModule m = twinsListing "G" ∧
      m.encode = .ok bytes ∧ decode bytes .empty = .ok (m', s₄) ∧
      Listing.ofModule m' = twinsListing "F" ∧ ¬ NamedByCode blocks := by
  obtain ⟨m, hm, hstorable, -, -, hlisting, m', hm', hlisting'⟩ := exists_twins
  obtain ⟨r, s₁, s₂, hread, hcompile⟩ := exists_of_ofText? hm
  obtain ⟨t, blocks, _, -, -, h, -, bytes, hbytes, hsaved⟩ := labels_of_compile hread hcompile
  obtain ⟨bytes', s₄, hbytes', hdecode⟩ := exists_of_reread? hm'
  obtain rfl := Except.ok.inj (hbytes.symm.trans hbytes')
  obtain ⟨_, _, _, hdecode', -, -, hiff⟩ := hsaved hstorable .empty
  obtain ⟨rfl, -⟩ := Prod.mk.inj (Except.ok.inj (hdecode.symm.trans hdecode'))
  refine ⟨r, s₁, s₂, m, t, blocks, bytes, m', s₄, hread, hcompile, h, hlisting, hbytes, hdecode,
    hlisting', fun hnamed => ?_⟩
  have heq := hiff.2 hnamed
  rw [hlisting, hlisting'] at heq
  exact absurd heq (by decide +kernel)

/-- It is not so that the listing of a program has the names of arms as labels on the lines of their
blocks and no other labels, nor that saving a program does not change its listing. -/
theorem not_forall_labels :
    (¬ ∀ source s s₁ s₂ r m t blocks, Reader.readOne source s = (.ok r, s₁) →
      compile r.expression r.map .expression none s₁ = (.ok m, s₂) →
      Term.Resolves (Prelude.scopes none) r.expression t → m.Assembled t blocks →
      ∃ lines, Listing.Presents m.closureName? (Listing.ofModule m) (Listing.heading m) lines
        (blocks.map fun b => (b.code, b.arm))) ∧
    ¬ ∀ source s s₁ s₂ s₃ s₄ r m m' bytes, Reader.readOne source s = (.ok r, s₁) →
      compile r.expression r.map .expression none s₁ = (.ok m, s₂) → m.encode = .ok bytes →
      decode bytes s₃ = .ok (m', s₄) → Listing.ofModule m' = Listing.ofModule m := by
  obtain ⟨m, hm, -, hnames, hlabels, hlisting, m', hm', hlisting'⟩ := exists_twins
  obtain ⟨r, s₁, s₂, hread, hcompile⟩ := exists_of_ofText? hm
  constructor
  · intro hall
    obtain ⟨t, blocks, hresolves, -, h⟩ := exists_assembled_of_compile hcompile
    have harms : Listing.labels m = blocks.map LoadedBlock.arm := by
      obtain ⟨_, hpresents⟩ := hall _ _ _ _ _ _ _ _ hread hcompile hresolves h
      have hunique := (h.presents hread hcompile).labels_unique hpresents
      rw [List.map_map, List.map_map] at hunique
      exact h.labels_eq.trans hunique
    rw [harms] at hlabels
    -- the name `F` would be that of two blocks, but only one block has been noted under it
    obtain ⟨b₀, b₁, b₂, b₃, rfl⟩ : ∃ b₀ b₁ b₂ b₃, blocks = [b₀, b₁, b₂, b₃] :=
      List.length_eq_four.1 (by simpa using congrArg List.length hlabels)
    obtain ⟨n, n', hnamed⟩ : ∃ n n', m.named = [n, n'] :=
      List.length_eq_two.1 (by simpa using congrArg List.length hnames)
    have hcode (b : LoadedBlock) (hb : b ∈ [b₀, b₁, b₂, b₃]) (harm : b.arm = some "F") :
        b.code = n.body := by
      have hmem : ⟨"F", b.code⟩ ∈ m.named := by
        rw [h.mem_named, ← harm]
        exact hb
      rw [hnamed] at hmem hnames
      obtain ⟨-, hother⟩ : n.name = "F" ∧ n'.name = "G" := by simpa using hnames
      rcases List.mem_pair.1 hmem with rfl | rfl
      · rfl
      · simp at hother
    have hfirst : b₁.code = n.body := hcode b₁ (by simp) (by simp_all)
    have hsecond : b₃.code = n.body := hcode b₃ (by simp) (by simp_all)
    have hcells := h.apart
    simp [LoadedBlock.cells, hfirst, hsecond] at hcells
  · intro hall
    obtain ⟨bytes, s₄, hbytes, hdecode⟩ := exists_of_reread? hm'
    have heq := hall _ _ _ _ _ _ _ _ _ _ hread hcompile hbytes hdecode
    rw [hlisting, hlisting'] at heq
    exact absurd heq (by decide +kernel)

end Module

end Secd
