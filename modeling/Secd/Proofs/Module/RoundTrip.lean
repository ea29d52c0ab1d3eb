import Secd.Proofs.Module.Decoder
import Secd.Proofs.Sexp.Atoms

/-!
# Saved modules

A module without callables can be written, and what is read from its bytes is an equal module,
whatever bytes follow. The bytes of a module say where they end: cut short anywhere, they are no
module. A module that holds a callable cannot be written.

The store that receives the values is only extended: the new trees are built on top of it, the code
first, so that the named blocks share no cells with it.
-/

namespace Secd

namespace Atom

/-- The atom can be read back: the name of a symbol is not longer than a text can be. -/
def Storable : Atom → Prop
  | .symbol name => Format.Decoder.Fits name
  | _ => True

instance decidableStorable : DecidablePred Storable
  | .nil => .isTrue trivial
  | .symbol name => inferInstanceAs (Decidable (Format.Decoder.Fits name))
  | .int _ => .isTrue trivial
  | .callable _ => .isTrue trivial

end Atom

/-- The two blocks have the same name and the same code, in whatever cells. -/
def NamedBlock.Same (a b : NamedBlock) : Prop := a.name = b.name ∧ a.body.same b.body = true

namespace Module

/-- No value of the module holds a callable. -/
structure Plain (m : Module) : Prop where
  code : m.code.AllAtoms Atom.Plain
  bodies : ∀ n ∈ m.named, n.body.AllAtoms Atom.Plain

/-- No text of the module is longer than a text can be, and it has no more blocks than a list can
have. -/
structure Storable (m : Module) : Prop where
  code : m.code.AllAtoms Atom.Storable
  names : ∀ n ∈ m.named, Format.Decoder.Fits n.name
  bodies : ∀ n ∈ m.named, n.body.AllAtoms Atom.Storable
  length : m.named.length < 0x10000000000000000

instance decidableStorable : DecidablePred Storable := fun m =>
  decidable_of_iff (m.code.AllAtoms Atom.Storable ∧ (∀ n ∈ m.named, Format.Decoder.Fits n.name) ∧
    (∀ n ∈ m.named, n.body.AllAtoms Atom.Storable) ∧ m.named.length < 0x10000000000000000)
    ⟨fun ⟨hcode, hnames, hbodies, hlength⟩ => ⟨hcode, hnames, hbodies, hlength⟩,
      fun h => ⟨h.code, h.names, h.bodies, h.length⟩⟩

/-- The store `s'` has been got from `s` by building the values of the module, first the code and
then the named blocks. -/
structure Built (s s' : Store) (m : Module) : Prop where
  extends_store : s.Extends s'
  code : s'.Holds m.code
  bodies : ∀ n ∈ m.named, s'.Holds n.body
  closed : s.Closed → s'.Closed
  apart : ∃ limit, m.code.AllCells (· < limit) ∧ ∀ n ∈ m.named, n.body.AllCells (limit ≤ ·)

/-- Two modules are equal if they agree in everything but the cells of their values. -/
theorem same_iff {m n : Module} :
    m.same n = true ↔ m.code.same n.code = true ∧ m.shape = n.shape ∧
      m.usesPrelude = n.usesPrelude ∧ List.Forall₂ NamedBlock.Same m.named n.named := by
  have hsame : m.same n = ((m.code.same n.code && m.shape == n.shape &&
      m.usesPrelude == n.usesPrelude) && (m.named.length == n.named.length &&
        (m.named.zip n.named).all fun p => p.1.name == p.2.name && p.1.body.same p.2.body)) :=
    Bool.and_assoc _ _ _
  have hnamed : (m.named.length == n.named.length &&
      (m.named.zip n.named).all fun p => p.1.name == p.2.name && p.1.body.same p.2.body) = true ↔
        List.Forall₂ NamedBlock.Same m.named n.named := by
    rw [List.forall₂_iff_zip]
    simp [NamedBlock.Same]
  rw [hsame, Bool.and_eq_true, hnamed]
  simp [and_assoc]

end Module

namespace Format

/-! ### What can be written -/

/-- A value is written if and only if it holds no callable. -/
theorem isSome_value? (e : Sexp) : (value? e).isSome = true ↔ e.AllAtoms Atom.Plain := by
  induction e with
  | atom a => cases a <;> simp [value?, Sexp.AllAtoms, Atom.Plain]
  | pair _ head tail ihHead ihTail =>
    rw [Sexp.AllAtoms, ← ihHead, ← ihTail, value?]
    cases value? head <;> cases value? tail <;> simp

/-- Named blocks are written if and only if none of them holds a callable. -/
theorem isSome_blocks? (named : List NamedBlock) :
    (blocks? named).isSome = true ↔ ∀ n ∈ named, n.body.AllAtoms Atom.Plain := by
  induction named with
  | nil => simp [blocks?]
  | cons n rest ih =>
    rw [List.forall_mem_cons, ← ih, ← isSome_value?, blocks?]
    cases value? n.body <;> cases blocks? rest <;> simp

/-- A module is written if and only if it holds no callable. -/
theorem isSome_body? (m : Module) : (body? m).isSome = true ↔ m.Plain := by
  have hplain : m.Plain ↔ m.code.AllAtoms Atom.Plain ∧ ∀ n ∈ m.named, n.body.AllAtoms Atom.Plain :=
    ⟨fun h => ⟨h.code, h.bodies⟩, fun h => ⟨h.1, h.2⟩⟩
  rw [hplain, ← isSome_value?, ← isSome_blocks?, body?]
  cases value? m.code <;> cases blocks? m.named <;> simp

/-! ### What is read back -/

/-- The number of an integer is below 2^64. -/
theorem zigzag_lt (n : Int64) : zigzag n < 0x10000000000000000 := by
  have hlt : n.toInt < 2 ^ 63 := n.toInt_lt
  have hle : -2 ^ 63 ≤ n.toInt := n.le_toInt
  unfold zigzag
  split <;> omega

end Format

/-- The cells of a held tree have been allocated. -/
theorem Store.Holds.allCells_lt {s : Store} {e : Sexp} (he : s.Holds e) :
    e.AllCells (· < s.size) := by
  induction e with
  | atom a => exact trivial
  | pair c head tail ihHead ihTail => exact ⟨he.1, ihHead he.2.2.1, ihTail he.2.2.2⟩

namespace Format.Decoder

/-- The store `s'` has been got from `s` by building `e'`, which is the same as `e`, in new
cells. -/
structure Copies (s s' : Store) (e e' : Sexp) : Prop where
  builds : Builds s s' e'
  same : e.same e' = true
  fresh : e'.AllCells (s.size ≤ ·)

/-- What is read from the bytes of a value is built in the store and is the same value. -/
theorem reads_value {e : Sexp} {input : List UInt8} (hinput : value? e = some input)
    (he : e.AllAtoms Atom.Storable) {fuel : Nat} (hfuel : input.length ≤ fuel) (s : Store) :
    Reads (value (fuel + 1)) input s fun e' s' => Copies s s' e e' := by
  have hatom (a : Atom) (s : Store) : Copies s s (.atom a) (.atom a) :=
    ⟨.of_holds (Store.holds_atom a), a.same_refl, trivial⟩
  induction e generalizing input fuel s with
  | atom a =>
    cases a with
    | nil =>
      obtain rfl := Option.some.inj hinput
      exact (gives_variant (by decide)).last (continues_number _) (reads_pure (hatom .nil s))
    | symbol name =>
      obtain rfl := Option.some.inj hinput
      have hvariant : Gives (number .variant) [2] 2 := gives_variant (by decide)
      refine hvariant.bind (continues_number _) ?_
      exact (gives_text he).last continues_text (reads_pure (hatom (.symbol name) s))
    | int n =>
      obtain rfl := Option.some.inj hinput
      have hvariant : Gives (number .variant) [3] 3 := gives_variant (by decide)
      refine hvariant.bind (continues_number _) ?_
      refine (gives_number (by decide) (zigzag_lt n)).last (continues_number _) (reads_pure ?_)
      rw [unzigzag_zigzag]
      exact hatom (.int n) s
    | callable c => cases hinput
  | pair c head tail ihHead ihTail =>
    obtain ⟨first, hfirst, hinput⟩ := Option.bind_eq_some_iff.1 hinput
    obtain ⟨second, hsecond, hinput⟩ := Option.bind_eq_some_iff.1 hinput
    obtain rfl := Option.some.inj hinput
    rw [List.length_cons, List.length_append] at hfuel
    obtain ⟨fuel, rfl⟩ : ∃ n, fuel = n + 1 := ⟨fuel - 1, by omega⟩
    have hfirstLe : first.length ≤ fuel := by omega
    have hsecondLe : second.length ≤ fuel := by omega
    have hhead := ihHead hfirst he.1 hfirstLe s
    have hvariant : Gives (number .variant) [1] 1 := gives_variant (by decide)
    refine hvariant.bind (continues_number _) (hhead.bind (continues_value (Nat.le_refl _)) ?_)
    rintro head' s' ⟨hbuilds, hsame, hfresh⟩
    have htail := ihTail hsecond he.2 hsecondLe s'
    refine htail.last (continues_value (Nat.le_refl _)) ?_
    rintro tail' s'' ⟨hbuilds', hsame', hfresh'⟩
    have hle : s.size ≤ s'.size := hbuilds.extends_store.size_le
    have hle' : s'.size ≤ s''.size := hbuilds'.extends_store.size_le
    refine ⟨_, _, rfl, hbuilds.cons hbuilds', Bool.and_eq_true_iff.2 ⟨hsame, hsame'⟩, ?_⟩
    exact ⟨Nat.le_trans hle hle', hfresh, hfresh'.imp fun c hc => Nat.le_trans hle hc⟩

/-- What is read from the bytes of named blocks is built in the store, and these are the same
blocks. -/
theorem reads_blocks {named : List NamedBlock} {input : List UInt8}
    (hinput : blocks? named = some input) (hnames : ∀ n ∈ named, Fits n.name)
    (hbodies : ∀ n ∈ named, n.body.AllAtoms Atom.Storable) {fuel : Nat}
    (hfuel : input.length ≤ fuel) (s : Store) :
    Reads (blocks (fuel + 1) named.length) input s fun named' s' =>
      s.Extends s' ∧ (s.Closed → s'.Closed) ∧
        (∀ n ∈ named', s'.Holds n.body ∧ n.body.AllCells (s.size ≤ ·)) ∧
        List.Forall₂ NamedBlock.Same named named' := by
  induction named generalizing input s with
  | nil =>
    obtain rfl := Option.some.inj hinput
    exact reads_pure ⟨.refl s, id, by simp, .nil⟩
  | cons n rest ih =>
    obtain ⟨body, hbody, hinput⟩ := Option.bind_eq_some_iff.1 hinput
    obtain ⟨others, hothers, hinput⟩ := Option.bind_eq_some_iff.1 hinput
    obtain rfl := Option.some.inj hinput
    rw [List.length_append, List.length_append] at hfuel
    obtain ⟨hname, hnames⟩ := List.forall_mem_cons.1 hnames
    obtain ⟨hfirst, hbodies⟩ := List.forall_mem_cons.1 hbodies
    have hbodyLe : body.length ≤ fuel := by omega
    have hvalue := reads_value hbody hfirst hbodyLe s
    refine (gives_text hname).bind continues_text (hvalue.bind (continues_value (Nat.le_refl _)) ?_)
    rintro body' s' ⟨hbuilds, hsame, hfresh⟩
    have hrest := ih hothers hnames hbodies (by omega) s'
    refine hrest.last (continues_blocks (Nat.le_refl _) _) ?_
    rintro named' s'' ⟨hextends, hclosed, hheld, hall⟩
    have hle : s.size ≤ s'.size := hbuilds.extends_store.size_le
    refine reads_pure ⟨?_, ?_, ?_, ?_⟩
    · exact hbuilds.extends_store.trans hextends
    · exact fun hs => hclosed (hbuilds.closed hs)
    · refine List.forall_mem_cons.2 ⟨⟨hbuilds.held.extends hextends, hfresh⟩, fun n hn => ?_⟩
      exact ⟨(hheld n hn).1, (hheld n hn).2.imp fun c hc => Nat.le_trans hle hc⟩
    · exact .cons ⟨rfl, hsame⟩ hall

/-- What is read from the bytes of a module is built in the store and is the same module. -/
theorem reads_module {m : Module} (hm : m.Storable) {input : List UInt8}
    (hinput : body? m = some input) (s : Store) :
    Reads (module input.length) input s fun m' s' => m.same m' = true ∧ m'.Built s s' := by
  obtain ⟨code, hcode, hinput⟩ := Option.bind_eq_some_iff.1 hinput
  obtain ⟨named, hnamed, hinput⟩ := Option.bind_eq_some_iff.1 hinput
  generalize hcount : input.length = count
  obtain rfl := Option.some.inj hinput
  simp only [List.length_append, List.length_cons] at hcount
  have hcodeLe : code.length ≤ count := by omega
  have hnamedLe : named.length ≤ count := by omega
  have hvalue := reads_value hcode hm.code hcodeLe s
  refine hvalue.bind (continues_value (Nat.le_refl _)) ?_
  rintro code' s' ⟨hbuilds, hsame, -⟩
  have hlength : Gives (number .listLength) (varint m.named.length) m.named.length :=
    gives_number (by decide) hm.length
  have hblocks := reads_blocks hnamed hm.names hm.bodies hnamedLe s'
  refine (gives_shape m.shape).bind continues_shape ?_
  refine (gives_boolean m.usesPrelude).bind continues_boolean ?_
  refine hlength.bind (continues_number _) (hblocks.last (continues_blocks (Nat.le_refl _) _) ?_)
  rintro named' s'' ⟨hextends, hclosed, hheld, hall⟩
  refine reads_pure ⟨Module.same_iff.2 ⟨hsame, rfl, rfl, hall⟩, ?_, ?_, ?_, ?_, s'.size, ?_, ?_⟩
  · exact hbuilds.extends_store.trans hextends
  · exact hbuilds.held.extends hextends
  · exact fun n hn => (hheld n hn).1
  · exact fun hs => hclosed (hbuilds.closed hs)
  · exact hbuilds.held.allCells_lt
  · exact fun n hn => (hheld n hn).2

end Format.Decoder

namespace Module

open Format

variable {m : Module} {bytes : List UInt8}

/-- The bytes of a module are the letters at the beginning and those of its parts. -/
theorem encode_eq_ok_iff :
    m.encode = .ok bytes ↔ ∃ input, body? m = some input ∧ bytes = magic ++ input := by
  rw [encode]
  cases body? m with
  | none => simp
  | some input => simp [eq_comm]

/-- A module is read from its bytes, whatever bytes follow. -/
theorem exists_decode_append (hm : m.Storable) (h : m.encode = .ok bytes) (rest : List UInt8)
    (s : Store) :
    ∃ m' s', decode (bytes ++ rest) s = .ok (m', s') ∧ m.same m' = true ∧ m'.Built s s' := by
  obtain ⟨input, hinput, rfl⟩ := encode_eq_ok_iff.1 h
  obtain ⟨m', s', hread, hsame, hbuilt⟩ := Decoder.reads_module hm hinput s
  have hle : input.length ≤ (input ++ rest).length := by
    rw [List.length_append]
    omega
  have hlong := (Decoder.continues_module hle).ok hread rest
  have hbody : bodyOf? ((magic ++ input) ++ rest) = some (input ++ rest) := rfl
  refine ⟨m', s', ?_, hsame, hbuilt⟩
  rw [decode, hbody]
  dsimp only [StateT.run]
  rw [hlong]

/-- Bytes that are fewer than the letters at the beginning of a module file are no module. -/
theorem decode_of_length_lt {cut : List UInt8} (h : cut.length < magic.length) (s : Store) :
    decode cut s = .error .header := by
  have hbody : bodyOf? cut = none := by
    rw [bodyOf?.eq_def]
    split
    · simp only [List.length_cons, magic, List.length_nil] at h
      omega
    · rfl
  rw [decode, hbody]

/-- Nothing is read from a proper beginning of the bytes of a module, because it ends too early.
What was read from it would be read from all of the bytes as well, and would leave some of them; but
the module leaves none. -/
theorem decode_error_of_prefix (hm : m.Storable) (h : m.encode = .ok bytes)
    {cut : List UInt8} (hcut : cut <+: bytes) (hne : cut ≠ bytes)
    (hmagic : magic.length ≤ cut.length) (s : Store) :
    ∃ missing, decode cut s = .error (.decode (.unexpectedEnd missing)) := by
  obtain ⟨_, hinput, rfl⟩ := encode_eq_ok_iff.1 h
  obtain ⟨more, hmore⟩ := hcut
  obtain ⟨front, rfl⟩ : magic <+: cut :=
    List.prefix_of_prefix_length_le ⟨_, rfl⟩ ⟨more, hmore⟩ hmagic
  rw [List.append_assoc] at hmore
  obtain rfl := List.append_cancel_left hmore
  obtain ⟨m', s', hall, -⟩ := Decoder.reads_module hm hinput s
  have hle : front.length ≤ (front ++ more).length := by
    rw [List.length_append]
    omega
  have hcontinues := Decoder.continues_module hle
  have hbody : bodyOf? (magic ++ front) = some front := rfl
  rw [decode, hbody]
  dsimp only [StateT.run]
  cases hread : Decoder.module front.length ⟨front, s⟩ with
  | error fault =>
    obtain ⟨missing, rfl⟩ := hcontinues.ended hread hall
    exact ⟨missing, rfl⟩
  | ok result =>
    obtain ⟨m'', left, s''⟩ := result
    have hlong := hcontinues.ok hread more
    rw [hall] at hlong
    obtain ⟨-, hleft⟩ := Prod.mk.inj (Except.ok.inj hlong)
    obtain ⟨-, rfl⟩ := List.append_eq_nil_iff.1 (Input.mk.inj hleft).1.symm
    rw [List.append_nil] at hne
    exact absurd rfl hne

/-- The module format loses nothing and says where it ends. A module without callables is written.
If its texts and its list of blocks are no longer than texts and lists can be, an equal module is
read from its bytes, whatever bytes follow, and no module is read from fewer of them: the letters at
the beginning are missing, or the bytes end too early. A module with a callable is not written. -/
theorem decode_encode_append (m : Module) :
    (m.Plain → ∃ bytes, m.encode = .ok bytes ∧ (m.Storable → ∀ s,
      (∀ rest, ∃ m' s', decode (bytes ++ rest) s = .ok (m', s') ∧ m.same m' = true ∧
        m'.Built s s') ∧
      ∀ cut, cut <+: bytes → cut ≠ bytes →
        (cut.length < magic.length → decode cut s = .error .header) ∧
        (magic.length ≤ cut.length →
          ∃ missing, decode cut s = .error (.decode (.unexpectedEnd missing))))) ∧
    (¬ m.Plain → m.encode = .error .encode) := by
  constructor
  · intro hplain
    obtain ⟨input, hinput⟩ := Option.isSome_iff_exists.1 ((isSome_body? m).2 hplain)
    have hbytes : m.encode = .ok (magic ++ input) := encode_eq_ok_iff.2 ⟨input, hinput, rfl⟩
    refine ⟨_, hbytes, fun hstorable s => ⟨?_, ?_⟩⟩
    · intro rest
      exact exists_decode_append hstorable hbytes rest s
    · intro cut hcut hne
      constructor
      · intro hlt
        exact decode_of_length_lt hlt s
      · intro hmagic
        exact decode_error_of_prefix hstorable hbytes hcut hne hmagic s
  · intro hplain
    have hinput : body? m = none := by
      rw [← Option.not_isSome_iff_eq_none, isSome_body?]
      exact hplain
    rw [encode, hinput]

/-- A module with a symbol of the name `NIL`, the least integer, and a block that is named twice. -/
def twiceNamed : Module where
  code := .pair 0 (.symbol "NIL") (.pair 1 (.int Int64.minValue) .nil)
  shape := .applied
  usesPrelude := true
  named := [⟨"F", .pair 2 (.int 251) .nil⟩, ⟨"ä", .pair 2 (.int 251) .nil⟩]

/-- It is read back into the empty store, whatever follows, but not if its last byte is missing:
then the bytes end too early. -/
theorem decode_encode_append_twiceNamed : ∃ bytes, twiceNamed.encode = .ok bytes ∧
    (∀ rest, ∃ m' s', decode (bytes ++ rest) .empty = .ok (m', s') ∧
      twiceNamed.same m' = true) ∧
    ∃ missing, decode bytes.dropLast .empty = .error (.decode (.unexpectedEnd missing)) := by
  have hplain : twiceNamed.Plain := ⟨by decide, by decide⟩
  have hstorable : twiceNamed.Storable := ⟨by decide, by decide, by decide, by decide⟩
  obtain ⟨bytes, hbytes, hread⟩ := (decode_encode_append twiceNamed).1 hplain
  obtain ⟨hlong, hcut⟩ := hread hstorable .empty
  refine ⟨bytes, hbytes, ?_, ?_⟩
  · intro rest
    obtain ⟨m', s', hdecode, hsame, -⟩ := hlong rest
    exact ⟨m', s', hdecode, hsame⟩
  · have hcount : twiceNamed.encode.toOption.map List.length = some 42 := by decide +kernel
    have hlength : bytes.length = 42 := by
      rw [hbytes] at hcount
      exact Option.some.inj hcount
    have hmagic : magic.length = 4 := rfl
    refine (hcut bytes.dropLast (List.dropLast_prefix bytes) ?_).2 ?_
    · intro heq
      have := congrArg List.length heq
      rw [List.length_dropLast] at this
      omega
    · rw [List.length_dropLast]
      omega

end Module

end Secd
