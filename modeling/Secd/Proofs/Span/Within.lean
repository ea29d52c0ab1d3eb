import Secd.Span

/-!
# Spans within a text

An offset is on a character boundary of a text if the text can be cut there into two lists of
characters. A span is within the text if it ends no earlier than it begins and both ends are on
boundaries; then both ends are in the text, too.
-/

namespace Secd

/-- Some characters of the text take exactly the first `offset` bytes. -/
def OnBoundary (source : String) (offset : Nat) : Prop :=
  ∃ before after, source.toList = before ++ after ∧ utf8Length before = offset

namespace OnBoundary

variable {source : String}

/-- The bytes of a text are those of its characters. -/
theorem utf8Length_toList (source : String) : utf8Length source.toList = source.utf8ByteSize := by
  rw [← utf8ByteSize_ofList, String.ofList_toList]

/-- Every text ends on a boundary. -/
theorem utf8ByteSize : OnBoundary source source.utf8ByteSize :=
  ⟨source.toList, [], (List.append_nil _).symm, utf8Length_toList source⟩

/-- A boundary is no further than the end of the text. -/
theorem le_utf8ByteSize {offset : Nat} (h : OnBoundary source offset) :
    offset ≤ source.utf8ByteSize := by
  obtain ⟨before, after, htext, hbefore⟩ := h
  rw [← utf8Length_toList, htext, utf8Length_append]
  omega

/-- The boundaries are the offsets before which `textBefore?` finds a text. -/
theorem iff_textBefore? {offset : Nat} :
    OnBoundary source offset ↔ (textBefore? offset source.toList).isSome = true := by
  constructor
  · rintro ⟨before, after, htext, rfl⟩
    rw [htext, textBefore?_utf8Length]
    rfl
  · rw [OnBoundary]
    generalize source.toList = text
    intro h
    induction text generalizing offset with
    | nil =>
      cases offset with
      | zero => exact ⟨[], [], rfl, rfl⟩
      | succ offset => cases h
    | cons c rest ih =>
      cases offset with
      | zero => exact ⟨[], c :: rest, rfl, rfl⟩
      | succ offset =>
        rw [textBefore?] at h
        split at h
        case isFalse => cases h
        case isTrue hfits =>
          rw [Option.isSome_map] at h
          obtain ⟨before, after, hrest, hbefore⟩ := ih h
          refine ⟨c :: before, after, by rw [hrest, List.cons_append], ?_⟩
          rw [utf8Length, hbefore]
          omega

instance decidable (source : String) (offset : Nat) : Decidable (OnBoundary source offset) :=
  decidable_of_iff _ iff_textBefore?.symm

end OnBoundary

/-- The span ends no earlier than it begins, is in the text, and cuts no character. -/
structure Span.Within (span : Span) (source : String) : Prop where
  start_le_stop : span.start ≤ span.stop
  stop_le : span.stop ≤ source.utf8ByteSize
  onBoundary_start : OnBoundary source span.start
  onBoundary_stop : OnBoundary source span.stop

namespace Span.Within

/-- A span between two boundaries is within the text. -/
theorem of_le {source : String} {start stop : Nat} (hle : start ≤ stop)
    (hstart : OnBoundary source start) (hstop : OnBoundary source stop) :
    Span.Within ⟨start, stop⟩ source :=
  ⟨hle, hstop.le_utf8ByteSize, hstart, hstop⟩

/-- The empty span at the end of a text is within it. -/
theorem atEnd (source : String) :
    Span.Within ⟨source.utf8ByteSize, source.utf8ByteSize⟩ source :=
  of_le (Nat.le_refl _) .utf8ByteSize .utf8ByteSize

/-- A span that is not reversed can be drawn. -/
theorem not_stop_lt_start {span : Span} {source : String} (h : span.Within source) :
    ¬ span.stop < span.start := Nat.not_lt.2 h.start_le_stop

end Span.Within

end Secd
