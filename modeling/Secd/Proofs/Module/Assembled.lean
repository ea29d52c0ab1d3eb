import Secd.Proofs.Module.Compiled
import Secd.Proofs.Module.Listed
import Secd.Proofs.Reader.RoundTrip

/-!
# Modules that have just been compiled

The blocks that the code of a compiled program loads are all in cells of their own, and the named
blocks of the program are those of the functions that `LETREC` arms bind. So such a block has the
name of its arm. A block of no arm may have a name, too: that of the first arm whose block has the
same code.
-/

namespace Secd

namespace Module

/-- The name of the first named block that has the given code. -/
def firstNamed? (m : Module) (code : Sexp) : Option String :=
  (m.named.find? fun n => n.body.same code).map NamedBlock.name

variable {m m' : Module} {block block' : Sexp}

/-- A block that is in none of the cells of the named blocks has the name of the first one with the
same code. -/
theorem closureName?_of_apart
    (h : ∀ n ∈ m.named, n.body.cell?.isSome = true → n.body.cell? ≠ block.cell?) :
    m.closureName? block = m.firstNamed? block := by
  have hnone : (m.named.find? fun n => n.body.cell?.isSome && n.body.cell? == block.cell?) =
      none := by
    rw [List.find?_eq_none]
    intro n hn hfound
    obtain ⟨hsome, heq⟩ := Bool.and_eq_true_iff.1 hfound
    exact h n hn hsome (beq_iff_eq.1 heq)
  rw [closureName?, hnone, Option.none_or, firstNamed?]

/-- A block in a cell that belongs to the blocks of one name has this name. -/
theorem closureName?_of_mem {name : String} (hblock : ⟨name, block⟩ ∈ m.named)
    (hcell : block.cell?.isSome = true)
    (hname : ∀ n ∈ m.named, n.body.cell? = block.cell? → n.name = name) :
    m.closureName? block = some name := by
  have hsome : (m.named.find? fun n => n.body.cell?.isSome &&
      n.body.cell? == block.cell?).isSome = true := by
    rw [List.find?_isSome]
    exact ⟨_, hblock, by simp [hcell]⟩
  obtain ⟨n, hn⟩ := Option.isSome_iff_exists.1 hsome
  have hfound := List.find?_some hn
  rw [closureName?, hn, Option.some_or, Option.map_some]
  refine congrArg some (hname n (List.mem_of_find?_eq_some hn) ?_)
  exact beq_iff_eq.1 (Bool.and_eq_true_iff.1 hfound).2

/-- Modules that are the same have the same first names for blocks that are the same. -/
theorem firstNamed?_of_same (hnamed : List.Forall₂ NamedBlock.Same m.named m'.named)
    (hblock : block.same block' = true) : m.firstNamed? block = m'.firstNamed? block' := by
  rw [firstNamed?, firstNamed?]
  generalize m.named = named at hnamed
  generalize m'.named = named' at hnamed
  induction hnamed with
  | nil => rfl
  | cons hn _ ih =>
    have hsame := Sexp.same_congr hn.2 block'
    rw [← Sexp.same_comm, ← Sexp.same_congr hblock, Sexp.same_comm] at hsame
    rw [List.find?_cons, List.find?_cons, hsame]
    split
    · exact congrArg some hn.1
    · exact ih

/-! ### Modules that have just been compiled -/

/-- The module holds the code of the term and names the blocks of arms, and the blocks that its code
loads are all in cells of their own. -/
structure Assembled (m : Module) (t : Term) (blocks : List LoadedBlock) : Prop where
  written : ∃ o ending, t.Written (fun _ => True) 0 m.code ending o ∧
    ending.Begins (lastInstructions m.shape) .nil ∧ blocks = o.loaded
  apart : (LoadedBlock.cells blocks).Nodup
  isSome_cell? : ∀ b ∈ blocks, b.code.cell?.isSome = true
  mem_named : ∀ n, n ∈ m.named ↔ ⟨n.body, some n.name⟩ ∈ blocks

/-- The module of a term holds its code. -/
theorem assembled_ofTerm {t : Term} {shape : Shape} {usesPrelude : Bool} {s s' : Store}
    (h : ofTerm t shape usesPrelude s = (m, s')) :
    ∃ blocks, m.shape = shape ∧ m.Assembled t blocks := by
  obtain ⟨hshape, -, ending, o, hproduced⟩ :=
    exists_produced_ofTerm (P := fun _ => True) h (fun _ _ => trivial) 0
  have hcoherent := hproduced.written.coherent
  have hloaded : (LoadedBlock.cells o.loaded).Sublist (o.cells ++ [ending.cell?]) :=
    ((List.sublist_append_right _ _).trans hcoherent.loaded).trans (List.sublist_append_left _ _)
  refine ⟨o.loaded, hshape, ⟨o, ending, hproduced.written, hproduced.ends, rfl⟩,
    hproduced.fresh.nodup.sublist hloaded, fun block hblock => ?_, fun n => ?_⟩
  · obtain ⟨cell, hcell, -⟩ :=
      hproduced.fresh.range _ (hloaded.subset (List.mem_map_of_mem hblock))
    exact Option.isSome_iff_exists.2 ⟨cell, hcell⟩
  · rw [hproduced.named, List.mem_reverse, hcoherent.mem_noted]

/-- What the compiler makes of an expression is the module of its term. -/
theorem exists_assembled_of_compile {e : Sexp} {map : SourceMap} {shape : Shape}
    {prelude : Option Prelude} {s s' : Store} (h : compile e map shape prelude s = (.ok m, s')) :
    ∃ t blocks, Term.Resolves (Prelude.scopes prelude) e t ∧ m.shape = shape ∧
      m.Assembled t blocks := by
  obtain ⟨t, hresolves, hm⟩ := exists_ofTerm_of_compile h
  obtain ⟨blocks, hshape, hassembled⟩ := assembled_ofTerm hm
  exact ⟨t, blocks, hresolves, hshape, hassembled⟩

namespace Assembled

variable {t : Term} {blocks : List LoadedBlock}

/-- The blocks for which a listing looks up names are those that the code loads. -/
theorem blocks_eq (h : m.Assembled t blocks) :
    Listing.blocks m.code = blocks.map LoadedBlock.code := by
  obtain ⟨o, k, hwritten, hends, rfl⟩ := h.written
  have hnone : Listing.blocks k = [] := by
    cases hshape : m.shape with
    | expression =>
      rw [hshape] at hends
      exact Listing.blocks_of_begins rfl hends
    | applied =>
      rw [hshape] at hends
      obtain ⟨d, hap, hstop⟩ := Sexp.Begins.append [Opcode.ap.sexp] hends
      exact (Listing.blocks_of_begins rfl hap).trans (Listing.blocks_of_begins rfl hstop)
  rw [Listing.blocks_of_written hwritten, hnone, List.append_nil]

/-- A block has the name of its arm, or else that of the first arm with the same code. -/
theorem closureName?_eq (h : m.Assembled t blocks) {b : LoadedBlock} (hb : b ∈ blocks) :
    m.closureName? b.code = b.arm.or (m.firstNamed? b.code) := by
  -- a named block in the cell of `b` is `b` itself
  have hsame (n : NamedBlock) (hn : n ∈ m.named) (hcell : n.body.cell? = b.code.cell?) :
      b.arm = some n.name := by
    have hmem := (h.mem_named n).1 hn
    have heq : (⟨n.body, some n.name⟩ : LoadedBlock) = b :=
      List.inj_on_of_nodup_map h.apart hmem hb hcell
    rw [← heq]
  cases harm : b.arm with
  | none =>
    rw [Option.none_or]
    refine closureName?_of_apart fun n hn _ hcell => ?_
    rw [hsame n hn hcell] at harm
    cases harm
  | some name =>
    rw [Option.some_or]
    have hmem : ⟨name, b.code⟩ ∈ m.named := by
      rw [h.mem_named, ← harm]
      exact hb
    refine closureName?_of_mem hmem (h.isSome_cell? b hb) fun n hn hcell => ?_
    rw [hsame n hn hcell] at harm
    exact Option.some.inj harm

/-- The labels in the listing of a module that has just been compiled. -/
theorem labels_eq (h : m.Assembled t blocks) :
    Listing.labels m = blocks.map fun b => b.arm.or (m.firstNamed? b.code) := by
  rw [Listing.labels, h.blocks_eq, List.map_map]
  exact List.map_congr_left fun b hb => h.closureName?_eq hb

/-- All atoms of the code have a property that belongs to the atoms of all code, if those of the
constants have it. -/
theorem allAtoms {P : Atom → Prop} (hP : Atom.Coded P) (h : m.Assembled t blocks)
    (ht : t.AllAtoms P) : m.code.AllAtoms P := by
  obtain ⟨o, k, hwritten, hends, -⟩ := h.written
  have hlast : ∀ x ∈ lastInstructions m.shape, x.AllAtoms P := by
    cases m.shape with
    | expression => exact List.forall_mem_singleton.2 (hP.opcode .stop)
    | applied =>
      exact List.forall_mem_cons.2 ⟨hP.opcode .ap, List.forall_mem_singleton.2 (hP.opcode .stop)⟩
  exact hwritten.allAtoms hP ht (hends.allAtoms hlast hP.nil)

/-- A property that passes from a tree to its parts passes from the code to the named blocks. -/
theorem forall_mem_named {P : Sexp → Prop} (hP : Sexp.Hereditary P) (h : m.Assembled t blocks)
    (hcode : P m.code) : ∀ n ∈ m.named, P n.body := by
  intro n hn
  refine Listing.forall_mem_blocks hP hcode n.body ?_
  rw [h.blocks_eq]
  exact List.mem_map_of_mem ((h.mem_named n).1 hn)

/-- The module of a term without callables has none. -/
theorem plain (h : m.Assembled t blocks) (ht : t.AllAtoms Atom.Plain) : m.Plain := by
  have hcode : m.code.AllAtoms Atom.Plain := h.allAtoms Atom.coded_plain ht
  exact ⟨hcode, h.forall_mem_named (Sexp.hereditary_allAtoms _) hcode⟩

end Assembled

/-! ### Modules of texts -/

/-- The module of a text that is compiled as an expression without the prelude. -/
def ofText? (source : String) : Option Module :=
  match Reader.readOne source .empty with
  | (.ok r, s) => (compile r.expression r.map .expression none s).1.toOption
  | (.error _, _) => none

/-- The module of a text has been read and compiled. -/
theorem exists_of_ofText? {source : String} (h : ofText? source = some m) : ∃ r s₁ s₂,
    Reader.readOne source .empty = (.ok r, s₁) ∧
      compile r.expression r.map .expression none s₁ = (.ok m, s₂) := by
  rw [ofText?] at h
  split at h
  · next r s₁ hread =>
    rcases hcompile : compile r.expression r.map .expression none s₁ with ⟨_ | program, s₂⟩
    · rw [hcompile] at h
      cases h
    · rw [hcompile] at h
      obtain rfl := Option.some.inj h
      exact ⟨r, s₁, s₂, hread, hcompile⟩
  · cases h

end Module

end Secd
