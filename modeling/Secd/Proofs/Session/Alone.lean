import Secd.CommandLine.Execution
import Secd.Proofs.Reader.Slices
import Secd.Proofs.Session.Fates

/-!
# Programs by themselves

The text of a datum can be compiled by itself, with a standard prelude, and then be run without
arguments. The same comes of it as of the datum in a longer text, in whatever store it is read and
with whatever standard prelude: only the places of the messages and the identities of the callables
are others.
-/

namespace Secd

/-- What comes of a text that is compiled by itself, as an expression and with a standard prelude,
and then run without arguments. -/
inductive Fate.Alone (limits : Limits) (text : String) : Fate → Prop where
  | refused {file : String} {ds : List Diagnostic}
      (h : CommandLine.compileText ⟨file, false, true⟩ text = .error (.source file text ds)) :
      Alone limits text (.refused ds)
  | ran {file : String} {m : Module} {s : Store} {fuel : Nat} {outcome : Outcome}
      {machine : Machine} (h : CommandLine.compileText ⟨file, false, true⟩ text = .ok (m, s))
      (hrun : (Machine.ofModule m .nil limits s).run fuel = some (outcome, machine)) :
      Alone limits text (.ran m outcome machine.store)

namespace CommandLine

/-- A text with one datum is compiled. -/
theorem compileText_of_parseOne {text : String} {d : Datum} (h : Reader.parseOne text = .ok d)
    (file : String) :
    let r := (d.read .empty).1
    let prelude := (Prelude.standard (d.read .empty).2).1
    compileText ⟨file, false, true⟩ text =
      match Module.compile r.expression r.map .expression (some prelude)
        (Prelude.standard (d.read .empty).2).2 with
      | (.ok m, s) => .ok (m, s)
      | (.error errors, _) =>
        .error (.source file text (errors.map (CompileError.diagnostic r.map.root))) := by
  rw [compileText, Reader.readOne, h]
  rfl

end CommandLine

namespace Fate

variable {limits : Limits} {text : String} {d : Datum} {f : Fate}

/-- The store can be read from after a datum has been read into the empty store, and a prelude has
been made. -/
theorem reads_standard (hd : d.Readable) :
    (Prelude.standard (d.read .empty).2).2.Reads (d.read .empty).1 := by
  have hread := d.builds_read .empty
  exact ⟨Prelude.closed_standard rfl (hread.closed Store.closed_empty),
    hread.held.extends (Prelude.extends_standard rfl), Reader.allAtoms_of_read hd .empty⟩

/-- A text with one datum by itself is evaluated with standard preludes. -/
theorem Alone.evaluates (h : Alone limits text f) (hparse : Reader.parseOne text = .ok d) :
    ∃ u, Evaluates limits (Prelude.standard (d.read .empty).2).1 (Prelude.standard u).1
      (Prelude.standard (d.read .empty).2).2 (d.read .empty).1 f := by
  cases h with
  | refused h =>
    rw [CommandLine.compileText_of_parseOne hparse] at h
    split at h
    · cases h
    · next hcompile =>
      cases h
      exact ⟨.empty, .refused hcompile⟩
  | ran h hrun =>
    rw [CommandLine.compileText_of_parseOne hparse] at h
    split at h
    · next hcompile =>
      cases h
      obtain ⟨s', env, hextends, hclosed, hframed, hload⟩ :=
        Machine.exists_env_of_usesPrelude (Module.usesPrelude_of_compile hcompile) .nil limits _
      rw [hload] at hrun
      exact ⟨_, .ran hcompile hextends hclosed hframed hrun⟩
    · cases h

/-- A datum that is the only one of a text is readable. -/
theorem readable_of_parseOne (hparse : Reader.parseOne text = .ok d) : d.Readable :=
  Reader.readable_of_parse (Reader.parse_of_parseOne hparse) d List.mem_cons_self

/-- Something comes of each text with one datum. -/
theorem exists_alone (hparse : Reader.parseOne text = .ok d) (limits : Limits) :
    ∃ f, Alone limits text f := by
  have htext := CommandLine.compileText_of_parseOne hparse ""
  dsimp only at htext
  cases hcompile : Module.compile (d.read .empty).1.expression (d.read .empty).1.map .expression
      (some (Prelude.standard (d.read .empty).2).1) (Prelude.standard (d.read .empty).2).2 with
  | mk compiled s =>
    rw [hcompile] at htext
    cases compiled with
    | error errors => exact ⟨_, .refused htext⟩
    | ok m =>
      obtain ⟨-, -, hheld, -⟩ := (reads_standard (readable_of_parseOne hparse)).code hcompile
      obtain ⟨s', env, hextends, -, hframed, hload⟩ :=
        Machine.exists_env_of_usesPrelude (Module.usesPrelude_of_compile hcompile) .nil limits s
      have hnil : s'.Holds .nil := trivial
      obtain ⟨fuel, ⟨outcome, machine⟩, hrun⟩ :=
        Machine.exists_run_of_load (hheld.extends hextends) hnil hframed.held limits
      exact ⟨_, .ran htext (hload ▸ hrun)⟩

/-- What has come of a datum in a longer text is what comes of its own text, and diagnostics about
the datum have their spans in the longer text. -/
def Mirrors (source : String) (f f' : Fate) : Prop :=
  ∃ σ : Nat → Nat, σ.Injective ∧ f.Agrees (fun ds _ => ∀ d ∈ ds, d.span.Within source) σ f'

/-- What comes of a datum in a longer text comes of its own text, too. -/
theorem Alone.mirrors {source : String} {d₀ : Datum} {s₀ s u : Store} {q : Prelude} {f f' : Fate}
    (hq : (Prelude.standard u).1 = q) (hexcerpt : Reader.Excerpt source d₀ text)
    (hwithin : d₀.Within source) (hs : s.Reads (d₀.read s₀).1)
    (h : Evaluates limits q q s (d₀.read s₀).1 f) (h' : Alone limits text f') :
    f.Mirrors source f' := by
  obtain ⟨-, d', hparse, hsame⟩ := hexcerpt
  obtain ⟨u', hevaluates⟩ := h'.evaluates hparse
  subst hq
  obtain ⟨σ, hσ, -, hlabels⟩ := Prelude.exists_relabels_standard u u'
  obtain ⟨τ, -, -, hnames⟩ := Prelude.exists_relabels_standard u (d'.read .empty).2
  have hmap := Datum.within_read hwithin s₀
  -- both expressions denote the same tree
  have hexpressions : (d₀.read s₀).1.expression.same (d'.read .empty).1.expression = true := by
    refine Sexp.same_trans (d₀.same_read s₀) ?_
    rw [Sexp.same_comm]
    exact Sexp.same_trans (d'.same_read .empty) hsame
  have hplain := hs.readable.imp fun _ => Atom.Readable.plain
  have hmatches := (Sexp.identified_of_plain hplain _).matches_of_same hexpressions
  refine ⟨σ, hσ, Evaluates.agrees (R := fun span _ => ∀ own ∈ span, own.Within source) hσ hlabels
    hnames nofun hmap.root (hmatches.congruent fun c _ => hmap.heads c) ?_ hs
    (reads_standard (readable_of_parseOne hparse)) h hevaluates⟩
  intro found found' hfound d hd
  obtain ⟨e, he, rfl⟩ := List.mem_map.1 hd
  have hspans : ∀ e ∈ found, ∀ own ∈ e.span, own.Within source :=
    ((List.forall₂_and_left _ _).1 (hfound.imp fun _ _ hagree => ⟨hagree.span, trivial⟩)).1
  have hown := hspans e ((CompileError.perm_sort found).mem_iff.1 he)
  rw [CompileError.diagnostic, Datum.root_read]
  cases hspan : e.span with
  | none => exact hwithin.span
  | some own => exact hown own hspan

end Fate

end Secd
