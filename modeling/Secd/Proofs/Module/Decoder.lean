import Secd.Module.Format
import Secd.Proofs.Datum.Held

/-!
# Steps of reading a module file

Two facts about every step of reading carry over from the parts of a module to the whole. A step
that succeeds takes the same from every longer input and leaves what has been added, and a step that
fails although it succeeds with a longer input has come to the end of its own; so a module is read
whatever comes after it, and what is wrong with a beginning of its bytes is that they end. And the
bytes that are written for a number, a text, a variant or a truth value are those from which it is
read.
-/

namespace Secd

namespace Utf8

/-- Decoding the bytes of a text gives the text. -/
theorem decode_encode (t : String) : decode (encode t) = .ok t := by
  have hbytes : (⟨(encode t).toArray⟩ : ByteArray) = t.toByteArray := by
    simp [encode]
  have hfrom : String.fromUTF8? t.toByteArray = some t := by
    rw [String.fromUTF8?, dif_pos t.isValidUTF8]
    rfl
  rw [decode, hbytes, hfrom]

/-- A text has as many bytes as its characters have together. -/
theorem length_encode (t : String) : (encode t).length = t.utf8ByteSize := by
  simp [encode]

end Utf8

namespace Format.Decoder

variable {α β : Type}

/-! ### Longer inputs -/

/-- What `d` reads from an input, `d'` reads from every longer one, and leaves the additional bytes
besides those that `d` leaves. If only `d'` can read from the longer input, then the input of `d`
has ended too early. -/
structure Continues (d d' : Decoder α) : Prop where
  ok ⦃input left : List UInt8⦄ ⦃s s' : Store⦄ ⦃a : α⦄ (h : d ⟨input, s⟩ = .ok (a, ⟨left, s'⟩))
    (more : List UInt8) : d' ⟨input ++ more, s⟩ = .ok (a, ⟨left ++ more, s'⟩)
  ended ⦃input more : List UInt8⦄ ⦃s : Store⦄ ⦃fault : Fault⦄ ⦃result : α × Input⦄
    (h : d ⟨input, s⟩ = .error fault) (h' : d' ⟨input ++ more, s⟩ = .ok result) :
    ∃ missing, fault = .unexpectedEnd missing

/-- A decoder followed by another one succeeds if both do. -/
theorem bind_eq_ok_iff {d : Decoder α} {f : α → Decoder β} {input : Input} {b : β}
    {output : Input} :
    (d >>= f) input = .ok (b, output) ↔
      ∃ a middle, d input = .ok (a, middle) ∧ f a middle = .ok (b, output) := by
  simp only [bind, StateT.bind]
  cases h : d input with
  | error fault => simp [Except.bind]
  | ok result =>
    obtain ⟨a, middle⟩ := result
    simp [Except.bind]

/-- A decoder that takes nothing continues itself. -/
theorem continues_pure (a : α) : Continues (pure a) (pure a) where
  ok := by
    intro input left s s' b h more
    cases h
    rfl
  ended := fun _ _ _ _ _ h => nomatch h

/-- Decoders that never succeed continue each other. -/
theorem continues_of_fails {d d' : Decoder α} (h : ∀ input output, d input ≠ .ok output)
    (h' : ∀ input output, d' input ≠ .ok output) : Continues d d' where
  ok := fun _ _ _ _ _ hok => absurd hok (h _ _)
  ended := fun _ _ _ _ _ _ hok => absurd hok (h' _ _)

/-- At the end of the input there may be anything in a longer one. -/
theorem continues_of_ended (missing : Nat) (d : Decoder α) :
    Continues (throw (.unexpectedEnd missing)) d where
  ok := fun _ _ _ _ _ hok => nomatch hok
  ended := by
    intro input more s fault result h _
    cases h
    exact ⟨missing, rfl⟩

/-- Decoders one after the other are continued if each of them is. -/
theorem Continues.bind {d d' : Decoder α} {f f' : α → Decoder β} (hd : Continues d d')
    (hf : ∀ a, Continues (f a) (f' a)) : Continues (d >>= f) (d' >>= f') where
  ok := by
    intro input left s s' b h more
    obtain ⟨a, ⟨rest, s₁⟩, hfirst, hsecond⟩ := bind_eq_ok_iff.1 h
    exact bind_eq_ok_iff.2 ⟨a, ⟨rest ++ more, s₁⟩, hd.ok hfirst more, (hf a).ok hsecond more⟩
  ended := by
    intro input more s fault result h h'
    obtain ⟨a', middle, hfirst', hsecond'⟩ := bind_eq_ok_iff.1 h'
    cases hfirst : d ⟨input, s⟩ with
    | error e =>
      obtain ⟨missing, rfl⟩ := hd.ended hfirst hfirst'
      simp only [Bind.bind, StateT.bind, hfirst, Except.bind] at h
      exact ⟨missing, (Except.error.inj h).symm⟩
    | ok taken =>
      -- the first decoder takes the same from both inputs, so it is the second one that fails
      obtain ⟨a, ⟨rest, s₁⟩⟩ := taken
      obtain ⟨rfl, rfl⟩ := Prod.mk.inj (Except.ok.inj (hfirst'.symm.trans (hd.ok hfirst more)))
      simp only [Bind.bind, StateT.bind, hfirst, Except.bind] at h
      exact (hf _).ended h hsecond'

/-- Taking bytes from a longer input takes the same bytes. -/
theorem split_append_of_ok {count : Nat} {input taken left : List UInt8}
    (h : split count input = .ok (taken, left)) (more : List UInt8) :
    split count (input ++ more) = .ok (taken, left ++ more) := by
  induction count generalizing input taken with
  | zero => cases h; rfl
  | succ count ih =>
    cases input with
    | nil => cases h
    | cons b input =>
      rw [split] at h
      split at h
      · next others rest hsplit =>
        cases h
        rw [List.cons_append, split, ih hsplit]
      · cases h

/-- Bytes cannot be taken only if there are too few. -/
theorem ended_of_split {count : Nat} {input : List UInt8} {fault : Fault}
    (h : split count input = .error fault) : ∃ missing, fault = .unexpectedEnd missing := by
  induction count generalizing input with
  | zero => cases h
  | succ count ih =>
    cases input with
    | nil =>
      cases h
      exact ⟨count + 1, rfl⟩
    | cons b input =>
      rw [split] at h
      split at h
      · cases h
      · next hsplit =>
        cases h
        exact ih hsplit

/-- A byte is the same in a longer input. -/
theorem continues_byte : Continues byte byte where
  ok := by
    intro input left s s' a h more
    cases input with
    | nil => cases h
    | cons b input => cases h; rfl
  ended := by
    intro input more s fault result h _
    cases input with
    | nil =>
      cases h
      exact ⟨1, rfl⟩
    | cons b input => cases h

/-- A number of bytes is taken from a longer input as from the input. -/
theorem continues_bytes (count : Nat) : Continues (bytes count) (bytes count) where
  ok := by
    intro input left s s' a h more
    simp only [bytes] at h ⊢
    split at h
    · next taken rest hsplit =>
      cases h
      rw [split_append_of_ok hsplit]
    · cases h
  ended := by
    intro input more s fault result h _
    simp only [bytes] at h
    split at h
    · cases h
    · next hsplit =>
      cases h
      exact ended_of_split hsplit

/-- The mark of a number says how many bytes belong to it. -/
theorem continues_number (role : NumberRole) : Continues (number role) (number role) := by
  refine continues_byte.bind fun mark => ?_
  split
  · exact continues_pure _
  split
  · exact (continues_bytes 2).bind fun _ => continues_pure _
  split
  · exact (continues_bytes 4).bind fun _ => continues_pure _
  split
  · exact (continues_bytes 8).bind fun _ => continues_pure _
  · have hfails : ∀ input output, (do throw (.numberType (role.expected (← bytesLeft))
        (role.announced mark)) : Decoder Nat) input ≠ .ok output := by
      intro input output h
      obtain ⟨_, _, _, h⟩ := bind_eq_ok_iff.1 h
      cases h
    exact continues_of_fails hfails hfails

/-- A decoder that only fails is continued by itself. -/
theorem continues_throw (fault : Fault) : Continues (throw fault : Decoder α) (throw fault) :=
  continues_of_fails (fun _ _ h => nomatch h) fun _ _ h => nomatch h

/-- The length of a text says how many bytes belong to it. -/
theorem continues_text : Continues text text := by
  refine (continues_number .textLength).bind fun length => ?_
  split
  · refine (continues_bytes length).bind fun taken => ?_
    split
    · exact continues_pure _
    · exact continues_throw _
  · exact continues_throw _

/-- A new pair takes nothing from the input. -/
theorem continues_cons (head tail : Sexp) : Continues (cons head tail) (cons head tail) where
  ok := by
    intro input left s s' a h more
    cases h
    rfl
  ended := fun _ _ _ _ _ h => nomatch h

/-- Every variant of a value says what belongs to it, and more fuel does not matter. -/
theorem continues_value {fuel fuel' : Nat} (hle : fuel ≤ fuel') :
    Continues (value fuel) (value fuel') := by
  induction fuel generalizing fuel' with
  | zero => exact continues_of_ended 1 _
  | succ fuel ih =>
    obtain ⟨fuel', rfl⟩ : ∃ n, fuel' = n + 1 := ⟨fuel' - 1, by omega⟩
    have hvalue : Continues (value fuel) (value fuel') := ih (by omega)
    refine (continues_number .variant).bind fun index => ?_
    split
    · exact continues_pure _
    · exact hvalue.bind fun head => hvalue.bind fun tail => continues_cons head tail
    · exact continues_text.bind fun _ => continues_pure _
    · exact (continues_number .integer).bind fun _ => continues_pure _
    · exact continues_throw _

/-- A shape is the same in a longer input. -/
theorem continues_shape : Continues shape shape := by
  refine (continues_number .variant).bind fun index => ?_
  split
  · exact continues_pure _
  · exact continues_pure _
  · exact continues_throw _

/-- A truth value is the same in a longer input. -/
theorem continues_boolean : Continues boolean boolean := by
  refine continues_byte.bind fun b => ?_
  split
  · exact continues_pure _
  split
  · exact continues_pure _
  · exact continues_throw _

/-- A number of named blocks are the same in a longer input. -/
theorem continues_blocks {fuel fuel' : Nat} (hle : fuel ≤ fuel') (count : Nat) :
    Continues (blocks fuel count) (blocks fuel' count) := by
  induction count with
  | zero => exact continues_pure _
  | succ count ih =>
    exact continues_text.bind fun _ => (continues_value hle).bind fun _ =>
      ih.bind fun _ => continues_pure _

/-- A module is the same in a longer input. -/
theorem continues_module {length length' : Nat} (hle : length ≤ length') :
    Continues (module length) (module length') := by
  have hfuel : length + 1 ≤ length' + 1 := Nat.succ_le_succ hle
  exact (continues_value hfuel).bind fun _ => continues_shape.bind fun _ =>
    continues_boolean.bind fun _ => (continues_number .listLength).bind fun count =>
      (continues_blocks hfuel count).bind fun _ => continues_pure _

/-! ### What is read back -/

/-- From the store `s`, the decoder takes exactly these bytes, and its result and the store
afterwards are as `P` says. -/
def Reads (d : Decoder α) (input : List UInt8) (s : Store) (P : α → Store → Prop) : Prop :=
  ∃ a s', d ⟨input, s⟩ = .ok (a, ⟨[], s'⟩) ∧ P a s'

/-- The decoder takes exactly these bytes, its result is `a`, and the store stays as it is. -/
def Gives (d : Decoder α) (input : List UInt8) (a : α) : Prop :=
  ∀ s, Reads d input s fun a' s' => a' = a ∧ s' = s

variable {s : Store} {d : Decoder α} {f : α → Decoder β} {a : α}
  {P : α → Store → Prop} {Q : β → Store → Prop} {input first second : List UInt8}

/-- The bytes for two decoders in turn are those for the first and those for the second. -/
theorem Reads.bind (hd : Reads d first s P) (hcontinues : Continues d d)
    (hf : ∀ a s', P a s' → Reads (f a) second s' Q) : Reads (d >>= f) (first ++ second) s Q := by
  obtain ⟨a, s', hfirst, hP⟩ := hd
  obtain ⟨b, s'', hsecond, hQ⟩ := hf a s' hP
  exact ⟨b, s'', bind_eq_ok_iff.2 ⟨a, ⟨second, s'⟩, hcontinues.ok hfirst second, hsecond⟩, hQ⟩

/-- After a decoder with a known result comes the one for this result. -/
theorem Gives.bind (hd : Gives d first a) (hcontinues : Continues d d)
    (hf : Reads (f a) second s Q) : Reads (d >>= f) (first ++ second) s Q := by
  refine (hd s).bind hcontinues ?_
  rintro _ _ ⟨rfl, rfl⟩
  exact hf

/-- After the last decoder that takes bytes nothing is left for the next one. -/
theorem Reads.last (hd : Reads d input s P) (hcontinues : Continues d d)
    (hf : ∀ a s', P a s' → Reads (f a) [] s' Q) : Reads (d >>= f) input s Q := by
  have hbind := hd.bind hcontinues hf
  rwa [List.append_nil] at hbind

/-- After the last decoder that takes bytes comes the one for its result. -/
theorem Gives.last (hd : Gives d input a) (hcontinues : Continues d d)
    (hf : Reads (f a) [] s Q) : Reads (d >>= f) input s Q := by
  have hbind := hd.bind hcontinues hf
  rwa [List.append_nil] at hbind

/-- No bytes are needed for a result that is known. -/
theorem reads_pure (h : P a s) : Reads (pure a) [] s P := ⟨a, s, rfl, h⟩

/-- No bytes are needed for a result that is known, and it is this one. -/
theorem gives_pure (a : α) : Gives (pure a) [] a := fun _ => reads_pure ⟨rfl, rfl⟩

/-- A byte is read as it is. -/
theorem gives_byte (b : UInt8) : Gives byte [b] b := fun s => ⟨b, s, rfl, rfl, rfl⟩

/-- As many bytes as there are are taken. -/
theorem gives_bytes (input : List UInt8) : Gives (bytes input.length) input input := by
  intro s
  have hsplit : split input.length input = .ok (input, []) := by
    simpa using split_append input []
  exact ⟨input, s, by simp only [bytes, hsplit], rfl, rfl⟩

/-- The bytes of a number that fits are read as the number. -/
theorem gives_littleEndian (width : Nat) {n : Nat} (hn : n < Nat.pow 256 width) :
    Gives (return ofLittleEndian (← bytes width)) (littleEndian width n) n := by
  intro s
  have hbytes := gives_bytes (littleEndian width n)
  rw [length_littleEndian] at hbytes
  refine hbytes.last (continues_bytes width) ?_
  rw [ofLittleEndian_littleEndian hn]
  exact gives_pure n s

/-- A variant is read back. -/
theorem gives_variant {index : UInt8} (hindex : index < 251) :
    Gives (number .variant) [index] index.toNat := by
  intro s
  refine (gives_byte index).last continues_byte ?_
  rw [if_pos hindex]
  exact gives_pure _ s

/-- A number below 2^64 is read back, whatever it is for, unless it is for a variant. -/
theorem gives_number {role : NumberRole} (hrole : role ≠ .variant) {n : Nat}
    (hn : n < 0x10000000000000000) : Gives (number role) (varint n) n := by
  intro s
  unfold varint
  split
  · next hsmall =>
    have hbyte : (UInt8.ofNat n).toNat = n := by
      rw [UInt8.toNat_ofNat']
      omega
    have hmark : UInt8.ofNat n < 251 := UInt8.lt_iff_toNat_lt.2 (by rw [hbyte]; exact hsmall)
    refine (gives_byte _).last continues_byte ?_
    rw [if_pos hmark, hbyte]
    exact gives_pure n s
  split
  · next hn₂ =>
    exact (gives_byte 251).bind continues_byte (gives_littleEndian 2 hn₂ s)
  split
  · next hn₄ =>
    exact (gives_byte 252).bind continues_byte (gives_littleEndian 4 hn₄ s)
  · refine (gives_byte 253).bind continues_byte ?_
    rw [if_neg (by decide), if_neg (by decide), if_neg (by decide), if_pos ⟨rfl, hrole⟩]
    exact gives_littleEndian 8 hn s

/-- The text is not longer than a text can be. -/
def Fits (t : String) : Prop := t.utf8ByteSize < textBound

instance decidableFits : DecidablePred Fits :=
  fun t => inferInstanceAs (Decidable (t.utf8ByteSize < textBound))

/-- A text is read back. -/
theorem gives_text {t : String} (ht : Fits t) : Gives text (Format.text t) t := by
  intro s
  have hlength : (Utf8.encode t).length < textBound := by
    rw [Utf8.length_encode]
    exact ht
  have hnumber : (Utf8.encode t).length < 0x10000000000000000 :=
    Nat.lt_trans hlength (by decide)
  refine (gives_number (by decide) hnumber).bind (continues_number _) ?_
  rw [if_pos hlength]
  refine (gives_bytes (Utf8.encode t)).last (continues_bytes _) ?_
  rw [Utf8.decode_encode]
  exact gives_pure t s

/-- A truth value is read back. -/
theorem gives_boolean (b : Bool) : Gives boolean [if b then 1 else 0] b := by
  intro s
  refine (gives_byte _).last continues_byte ?_
  cases b <;> exact gives_pure _ s

/-- A shape is read back. -/
theorem gives_shape (shape : Shape) : Gives Decoder.shape (Format.shape shape) shape := by
  intro s
  cases shape with
  | expression => exact (gives_variant (by decide)).last (continues_number _) (gives_pure _ s)
  | applied => exact (gives_variant (by decide)).last (continues_number _) (gives_pure _ s)

end Format.Decoder

end Secd
