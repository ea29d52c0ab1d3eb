import Secd.Proofs.Token.Printed

/-!
# The characters of printed forms

A number is printed in digits, with a minus sign in front if it is negative. All that is printed for
an atom that can be read are characters that can belong to a symbol; around these, the printed form
of a tree has only parentheses and blanks.
-/

namespace Secd

/-- The decimal notation of a natural number consists of digits. -/
theorem isDigit_of_mem_toString {n : Nat} {c : Char} (h : c ∈ (toString n).toList) :
    c.isDigit = true := by
  rw [Nat.toString_eq_repr, Nat.toList_repr] at h
  exact Nat.isDigit_of_mem_toDigits (by decide) (by decide) h

/-- The decimal notation of an integer consists of digits, and a minus sign if it is negative. -/
theorem Integer.eq_or_isDigit_of_mem_text {n : Int64} {c : Char} (h : c ∈ (text n).toList) :
    c = '-' ∨ c.isDigit = true := by
  rw [text] at h
  cases hn : n.toInt with
  | ofNat m =>
    rw [hn] at h
    exact .inr (isDigit_of_mem_toString (n := m) h)
  | negSucc m =>
    rw [hn] at h
    have hsigned : c ∈ ("-" ++ toString (m + 1)).toList := h
    rw [String.toList_append, List.mem_append] at hsigned
    rcases hsigned with h | h
    · exact .inl (List.mem_singleton.1 h)
    · exact .inr (isDigit_of_mem_toString h)

/-- Only characters that can belong to a symbol are printed for an atom that can be read. -/
theorem Atom.Readable.isSymbolPart_of_mem {a : Atom} (ha : a.Readable) {c : Char}
    (hc : c ∈ a.text.toList) : isSymbolPart c = true := by
  cases a with
  | nil =>
    have hall : "NIL".toList.all isSymbolPart = true := by decide
    exact List.all_eq_true.1 hall c hc
  | symbol name =>
    have hname := ha.1
    rcases hlist : name.toList with _ | ⟨first, rest⟩
    · rw [hlist] at hname
      cases hname
    · rw [hlist, Token.isName, Bool.and_eq_true, Bool.and_eq_true] at hname
      rw [Atom.text, hlist] at hc
      rcases List.mem_cons.1 hc with rfl | hc
      · rw [isSymbolPart, hname.1.1, Bool.true_or, Bool.true_or]
      · exact List.all_eq_true.1 hname.1.2 c hc
  | int n =>
    rcases Integer.eq_or_isDigit_of_mem_text hc with rfl | hdigit
    · decide
    · exact isSymbolPart_of_isDigit c hdigit
  | callable f => exact ha.elim

namespace Sexp

/-- The printed form of a tree that can be read consists of characters that can belong to a symbol,
parentheses and blanks. -/
theorem isSymbolPart_or_of_mem_chars {e : Sexp} (he : e.AllAtoms Atom.Readable) {c : Char} :
    (c ∈ e.chars → isSymbolPart c = true ∨ c ∈ ['(', ')', ' ']) ∧
      (c ∈ e.tailChars → isSymbolPart c = true ∨ c ∈ ['(', ')', ' ']) := by
  induction e with
  | atom a =>
    refine ⟨fun h => .inl (Atom.Readable.isSymbolPart_of_mem he h), fun h => ?_⟩
    have hdot : isSymbolPart '.' = true := by decide
    have htail : c ∈ ' ' :: '.' :: ' ' :: (a.text.toList ++ [')']) := by
      cases a with
      | nil => simp_all [tailChars]
      | _ => exact h
    simp only [List.mem_cons, List.mem_append, List.not_mem_nil, or_false] at htail
    rcases htail with rfl | rfl | rfl | h | rfl
    · exact .inr (by decide)
    · exact .inl hdot
    · exact .inr (by decide)
    · exact .inl (Atom.Readable.isSymbolPart_of_mem he h)
    · exact .inr (by decide)
  | pair cell head tail ihHead ihTail =>
    refine ⟨fun h => ?_, fun h => ?_⟩
    all_goals
      rcases List.mem_cons.1 h with rfl | h
      · exact .inr (by decide)
      · rcases List.mem_append.1 h with h | h
        · exact (ihHead he.1).1 h
        · exact (ihTail he.2).2 h

/-- The printed form of a tree that can be read is a single line. -/
theorem newline_not_mem_render {e : Sexp} (he : e.AllAtoms Atom.Readable) :
    '\n' ∉ e.render.toList := by
  intro h
  rw [render, (e.toList_write "").1] at h
  rcases (isSymbolPart_or_of_mem_chars he).1 h with hpart | hother
  · exact absurd hpart (by decide)
  · exact absurd hother (by decide)

end Sexp

end Secd
