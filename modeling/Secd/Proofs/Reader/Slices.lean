import Secd.Proofs.Reader.ReadsBack
import Secd.Text.Blank

/-!
# The data of a text, each by itself

A text that can be read is cut into the texts of its data. Each of these can be read by itself, and
the datum that is read denotes the same expression. A text of blanks has no data.
-/

namespace Secd

namespace Reader

variable {source : String} {data : List Datum}

/-- What is read are the data, one after the other, each in some store. -/
theorem forall₂_read (ds : List Datum) (s : Store) :
    List.Forall₂ (fun d r => ∃ s₀, r = (d.read s₀).1) ds (readData ds s).1 := by
  induction ds generalizing s with
  | nil => exact .nil
  | cons d ds ih => exact .cons ⟨s, rfl⟩ (ih (d.read s).2)

/-- The text of a datum by itself: it is what the span of the datum covers, and it is read as a
datum that denotes the same expression. -/
def Excerpt (source : String) (d : Datum) (text : String) : Prop :=
  d.span.slice? source = some text ∧ ∃ d', parseOne text = .ok d' ∧ d'.tree.same d.tree = true

/-- Each datum of a text has a text by itself. -/
theorem exists_excerpts (h : parse source = .ok data) :
    ∃ texts, List.Forall₂ (Excerpt source) data texts := by
  obtain ⟨hfaults, hdata⟩ := parse_scan_of_parse h
  have hone : ∀ d ∈ data, ∃ text, Excerpt source d text := by
    intro d hd
    obtain ⟨ls, hls, hspells⟩ := Datum.exists_infix_of_spellsAll (Datum.spellsAll_of_parse hdata) hd
    obtain ⟨-, text, d', hslice, hparse, hsame⟩ := denotes_of_spells hfaults hspells hls
    exact ⟨text, hslice, d', hparse, hsame⟩
  clear h hdata
  induction data with
  | nil => exact ⟨[], .nil⟩
  | cons d ds ih =>
    obtain ⟨hfirst, hothers⟩ := List.forall_mem_cons.1 hone
    obtain ⟨text, htext⟩ := hfirst
    obtain ⟨texts, htexts⟩ := ih hothers
    exact ⟨text :: texts, .cons htext htexts⟩

/-! ### Texts of blanks -/

/-- The characters that can belong to a symbol have their code points in one range. -/
theorem bounds_of_isSymbolPart {c : Char} (h : isSymbolPart c = true) :
    0x20 < c.toNat ∧ c.toNat < 0x85 := by
  rw [isSymbolPart, isSymbolStart, Bool.or_eq_true, Bool.or_eq_true, Bool.or_eq_true] at h
  rcases h with ((halpha | hmark) | hdigit) | hdot
  · rcases Bool.or_eq_true_iff.1 halpha with hupper | hlower
    · obtain ⟨hge, hle⟩ := of_decide_eq_true hupper
      have hge : 65 ≤ c.toNat := UInt32.le_iff_toNat_le.1 hge
      have hle : c.toNat ≤ 90 := UInt32.le_iff_toNat_le.1 hle
      omega
    · obtain ⟨hge, hle⟩ := Bool.and_eq_true_iff.1 hlower
      have hge : 97 ≤ c.toNat := UInt32.le_iff_toNat_le.1 (of_decide_eq_true hge)
      have hle : c.toNat ≤ 122 := UInt32.le_iff_toNat_le.1 (of_decide_eq_true hle)
      omega
  · have hmarks : symbolMarks.all (fun d => 0x20 < d.toNat && d.toNat < 0x85) = true := by decide
    have hbounds := List.all_eq_true.1 hmarks c (List.contains_iff_mem.1 hmark)
    rw [Bool.and_eq_true, decide_eq_true_iff, decide_eq_true_iff] at hbounds
    exact hbounds
  · obtain ⟨hge, hle⟩ := Char.isDigit_iff_toNat.1 hdigit
    have hge : 48 ≤ c.toNat := hge
    have hle : c.toNat ≤ 57 := hle
    omega
  · obtain rfl := eq_of_beq hdot
    decide

/-- The code point of a blank is outside of this range. -/
theorem bounds_of_isBlank {c : Char} (h : Text.isBlank c = true) :
    c.toNat ≤ 0x20 ∨ 0x85 ≤ c.toNat := by
  obtain ⟨⟨first, last⟩, hmem, hin⟩ := List.any_eq_true.1 h
  obtain ⟨hfirst, hlast⟩ := Bool.and_eq_true_iff.1 hin
  have hfirst : first ≤ c.toNat := of_decide_eq_true hfirst
  have hlast : c.toNat ≤ last := of_decide_eq_true hlast
  have hbounds : ∀ range ∈ Text.blankRanges, range.2 ≤ 0x20 ∨ 0x85 ≤ range.1 := by decide
  rcases hbounds _ hmem with hsmall | hlarge
  · exact .inl (hlast.trans hsmall)
  · exact .inr (hlarge.trans hfirst)

/-- So no token but a faulty one begins with a blank, and no comment. -/
theorem scan_of_isBlank {c : Char} (hc : Text.isBlank c = true) (rest : List Char) :
    c ≠ ';' ∧ Token.scan c rest = (.invalid c, []) := by
  have hout := bounds_of_isBlank hc
  have hne {d : Char} (hd : 0x20 < d.toNat ∧ d.toNat < 0x85) : c ≠ d := by
    rintro rfl
    omega
  have hpart : ¬isSymbolPart c = true := fun h => by
    have := bounds_of_isSymbolPart h
    omega
  have hdigit : ¬c.isDigit = true := mt (isSymbolPart_of_isDigit c) hpart
  have hstart : ¬isSymbolStart c = true := fun h => by
    rw [isSymbolPart, h] at hpart
    exact hpart rfl
  refine ⟨hne (by decide), ?_⟩
  rw [Token.scan, if_neg (hne (by decide)), if_neg (hne (by decide)), if_neg (hne (by decide)),
    if_neg (hne (by decide)), if_neg hdigit, if_neg hstart]

/-- A text of blanks has no tokens but faulty ones. -/
theorem scanFrom_of_blanks {text : List Char} (hblank : ∀ c ∈ text, Text.isBlank c = true)
    {offset : Nat} (hfaults : ∀ l ∈ Lexeme.scanFrom offset text, l.token.isFault = false) :
    Lexeme.scanFrom offset text = [] := by
  induction text generalizing offset with
  | nil => rw [Lexeme.scanFrom]
  | cons c rest ih =>
    obtain ⟨hc, hrest⟩ := List.forall_mem_cons.1 hblank
    obtain ⟨hcomment, hinvalid⟩ := scan_of_isBlank hc rest
    rw [Lexeme.scanFrom, if_neg hcomment, hinvalid] at hfaults ⊢
    by_cases hskip : isBlank c = true
    · rw [if_pos hskip] at hfaults ⊢
      exact ih hrest hfaults
    · rw [if_neg hskip] at hfaults
      cases hfaults _ (List.mem_cons_self ..)

/-- A text of blanks that can be read has no data. -/
theorem eq_nil_of_allBlank (h : parse source = .ok data) (hblank : Text.allBlank source = true) :
    data = [] := by
  obtain ⟨hfaults, hdata⟩ := parse_scan_of_parse h
  have hscan : Lexeme.scan source = [] := scanFrom_of_blanks (List.all_eq_true.1 hblank) hfaults
  rw [hscan] at hdata
  cases data with
  | nil => rfl
  | cons d ds =>
    obtain ⟨first, rest, hnone, hd, -⟩ := Datum.spellsAll_of_parse hdata
    obtain ⟨l, others, rfl, -⟩ := d.exists_span_of_spells hd
    cases hnone

end Reader

end Secd
