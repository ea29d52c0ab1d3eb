import Secd.Proofs.Term.Pass

/-!
# Blocks

The code of an expression is a block: instructions that are complete, and none of which leaves it.
A block that is an operand is again a block, with the one instruction at its end that leaves it:
`RTN` in a function, `JOIN` in a branch. The judgement counts the frames around each instruction. A
function has one more than there are where it is loaded, and so has everything between the `DUM` and
the `RAP` of a `LETREC`, whose body shares the frame with the initial values. Every variable is a
name of one of these frames.
-/

namespace Secd

namespace Scopes

/-- The address is that of a name in one of the frames. -/
def Has (scopes : Scopes) (a : Address) : Prop :=
  ∃ frame, scopes[a.frame]? = some frame ∧ a.slot < frame.length

/-- A name that is found is in one of the frames. -/
theorem has_of_locate? {scopes : Scopes} {name : String} {a : Address}
    (h : scopes.locate? name = some a) : scopes.Has a := by
  induction scopes generalizing a with
  | nil => cases h
  | cons frame outer ih =>
    rw [locate?] at h
    split at h
    · next slot hslot =>
      obtain rfl := Option.some.inj h
      obtain ⟨hlt, -, -⟩ := List.idxOf?_eq_some_iff.1 hslot
      exact ⟨frame, rfl, hlt⟩
    · obtain ⟨b, hb, rfl⟩ := Option.map_eq_some_iff.1 h
      exact ih hb

end Scopes

namespace Instruction

/-- The instructions are a block in these scopes. -/
inductive Block : Scopes → List Instruction → Prop where
  | unary {scopes : Scopes} (op : Unary) : Block scopes [.plain (.unary op)]
  | binary {scopes : Scopes} (op : Binary) : Block scopes [.plain (.binary op)]
  | ap {scopes : Scopes} : Block scopes [.plain .ap]
  | ld {scopes : Scopes} {a : Address} (ha : scopes.Has a) : Block scopes [.ld a]
  | ldc {scopes : Scopes} (value : Sexp) : Block scopes [.ldc value]
  | ldf {scopes : Scopes} {names : List String} {block : List Instruction}
      (hblock : Block (names :: scopes) block) :
      Block scopes [.ldf names (block ++ [.plain .rtn])]
  | sel {scopes : Scopes} {yes no : List Instruction} (hyes : Block scopes yes)
      (hno : Block scopes no) :
      Block scopes [.sel (yes ++ [.plain .join]) (no ++ [.plain .join])]
  /-- The initial values are in the scope of the names, and the body does not get another frame. -/
  | letrec {scopes : Scopes} {names : List String} {inits block : List Instruction}
      (hinits : Block (names :: scopes) inits) (hblock : Block (names :: scopes) block) :
      Block scopes
        ([.plain .dum] ++ inits ++ [.ldf names (block ++ [.plain .rtn]), .plain .rap])
  | append {scopes : Scopes} {is js : List Instruction} (h : Block scopes is)
      (h' : Block scopes js) : Block scopes (is ++ js)

variable {scopes : Scopes} {is : List Instruction}

/-- A block has an instruction. -/
theorem Block.ne_nil (h : Block scopes is) : is ≠ [] := by
  induction h with
  | append _ _ ih _ => exact List.append_ne_nil_of_left_ne_nil ih _
  | _ => simp

/-- No instruction leaves the block. -/
theorem Block.not_mem (h : Block scopes is) :
    .plain .stop ∉ is ∧ .plain .rtn ∉ is ∧ .plain .join ∉ is := by
  induction h with
  | letrec _ _ ih _ => simp [ih]
  | append _ _ ih ih' => simp [ih, ih']
  | _ => simp

end Instruction

open Instruction

namespace Term

mutual

/-- The code of an expression is a block in the scopes of the expression. -/
theorem Resolves.block {scopes : Scopes} {e : Sexp} {t : Term} :
    Resolves scopes e t → Block scopes t.instructions
  | .constant _ | .quote _ => .ldc _
  | .variable _ hlocate => .ld (Scopes.has_of_locate? hlocate)
  | .unary _ hx => hx.block.append (.unary _)
  | .leftFirst _ _ hx hy => (hx.block.append hy.block).append (.binary _)
  | .rightFirst _ _ hx hy => (hy.block.append hx.block).append (.binary _)
  | .conditional _ htest hyes hno => htest.block.append (.sel hyes.block hno.block)
  | .lambda _ _ hbody => .ldf hbody.block
  | .let _ _ hinits hbody => (hinits.block.append (.ldf hbody.block)).append .ap
  | .letrec _ _ hinits hbody => by
    have hlength := hinits.length_eq
    rw [List.length_map] at hlength
    have h := Block.letrec hinits.block hbody.block
    rw [instructions, armInstructions_eq (by rw [List.length_map, hlength])]
    simpa using h
  | .call _ hfunction hargs => (hargs.block.append hfunction.block).append .ap

/-- The code that puts the values of expressions into a list is a block. -/
theorem ResolvesAll.block {scopes : Scopes} {es : List Sexp} {ts : List Term} :
    ResolvesAll scopes es ts → Block scopes ([.ldc .nil] ++ argInstructions ts)
  | .nil => .ldc _
  | .cons hfirst hothers => by
    have h := (hothers.block.append hfirst.block).append (.binary .cons)
    rw [argInstructions, ← List.append_assoc, ← List.append_assoc]
    exact h

end

/-! ### The code of an expression -/

open Sexp

/-- An expression without faults has a sequence of instructions, in which the frames are those of
the lists of binders in the expression. The sequence is a block. It is not empty, and none of its
instructions leaves it. Compiling the expression puts the items of the instructions in front of the
code that comes after it: in new cells, with the cells of that code as they were, and with the same
items and the same named blocks for whatever code comes after. The scopes at the end of the pass
are those from before. The operands of `LD` are read as the addresses in the block if machine
integers suffice for the frames and the names in them. -/
theorem prepends_of_ofSexp {cx : Context} {scopes : Scopes} {span : Option Span} {e : Sexp}
    {t : Term} (h : ofSexp cx scopes span e = .ok t) :
    Resolves scopes e t ∧ Block scopes t.instructions ∧ t.instructions ≠ [] ∧
      (.plain .stop ∉ t.instructions ∧ .plain .rtn ∉ t.instructions ∧
        .plain .join ∉ t.instructions) ∧
      ∀ a : Assembly, ∃ items noted, LaidOut t.instructions items ∧
        (Fits a.store Address.limit scopes e → ∀ address ∈ addresses t.instructions,
          ∀ cell, (address.operand cell).IsAddress address) ∧
        ∀ c, ∃ b, (t.code c).run a = (before items c, b) ∧ a.Prepends b items noted c ∧
          ∀ errors, (Pass.compile cx span e c).run ⟨scopes, errors, a⟩ =
            (before items c, ⟨scopes, errors, b⟩) := by
  have hresolves := resolves_of_ofSexp e h
  have hblock := hresolves.block
  refine ⟨hresolves, hblock, hblock.ne_nil, hblock.not_mem, fun a => ?_⟩
  obtain ⟨draft, hdraft, hrun⟩ :=
    puts_code (P := fun _ => True) 0 t (fun _ _ => trivial) a.store.size
  -- the items are those that are written in front of nothing
  obtain ⟨o, hwritten, -⟩ := hdraft.exists_outline .nil
  obtain ⟨items, hitems, heq⟩ := hwritten.exists_laidOut
  obtain rfl : draft.items = items := before_inj heq
  refine ⟨draft.items, draft.noted, hitems, fun hfits address haddress => ?_, fun c => ?_⟩
  · exact ((hresolves.admissible hfits).below_of_mem address haddress).isAddress
  · obtain ⟨b, hcode, hwrites⟩ := hrun a rfl c
    exact ⟨b, hcode, hwrites.prepends, Pass.run_compile h hcode⟩

/-- A function that calls itself with a name from outside, and a call of it. -/
def relay : Sexp :=
  .ofItems [(0, .symbol "LETREC"),
    (1, .ofItems [(2, .ofItems [(3, .symbol "F"),
      (4, .ofItems [(5, .symbol "LAMBDA"), (6, .ofItems [(7, .symbol "N")]),
        (8, .ofItems [(9, .symbol "IF"), (10, .symbol "N"),
          (11, .ofItems [(12, .symbol "F"), (13, .symbol "M")]), (14, .symbol "N")])])])]),
    (15, .ofItems [(16, .symbol "F"), (17, .int 1)])]

/-- What it is compiled to in front of no code at all. -/
theorem prepends_of_ofSexp_relay : ∃ t items b,
    ofSexp ⟨.empty, none⟩ [["K", "M"]] none relay = .ok t ∧ Block [["K", "M"]] t.instructions ∧
      LaidOut t.instructions items ∧
      (Pass.compile ⟨.empty, none⟩ none relay .nil).run ⟨[["K", "M"]], [], ⟨.empty, []⟩⟩ =
        (before items .nil, ⟨[["K", "M"]], [], b⟩) ∧
      (before items .nil).render =
        "(DUM LDC NIL LDF (LD (0 . 0) SEL (LDC NIL LD (2 . 1) CONS LD (1 . 0) AP JOIN) " ++
          "(LD (0 . 0) JOIN) RTN) CONS LDF (LDC NIL LDC 1 CONS LD (0 . 0) AP RTN) RAP)" := by
  have hsome : (ofSexp ⟨.empty, none⟩ [["K", "M"]] none relay).toOption.isSome = true := by
    decide +kernel
  have hcode : ((Pass.compile ⟨.empty, none⟩ none relay .nil).run
      ⟨[["K", "M"]], [], ⟨.empty, []⟩⟩).1.render =
        "(DUM LDC NIL LDF (LD (0 . 0) SEL (LDC NIL LD (2 . 1) CONS LD (1 . 0) AP JOIN) " ++
          "(LD (0 . 0) JOIN) RTN) CONS LDF (LDC NIL LDC 1 CONS LD (0 . 0) AP RTN) RAP)" := by
    decide +kernel
  obtain ⟨t, ht⟩ : ∃ t, ofSexp ⟨.empty, none⟩ [["K", "M"]] none relay = .ok t := by
    cases hterm : ofSexp ⟨.empty, none⟩ [["K", "M"]] none relay with
    | ok t => exact ⟨t, rfl⟩
    | error errors => rw [hterm] at hsome; cases hsome
  obtain ⟨-, hblock, -, -, hprepends⟩ := prepends_of_ofSexp ht
  obtain ⟨items, noted, hitems, -, hall⟩ := hprepends ⟨.empty, []⟩
  obtain ⟨b, -, -, hrun⟩ := hall .nil
  refine ⟨t, items, b, ht, hblock, hitems, hrun [], ?_⟩
  rw [hrun []] at hcode
  exact hcode

end Term

end Secd
