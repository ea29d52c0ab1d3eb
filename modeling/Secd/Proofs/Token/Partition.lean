import Secd.Proofs.Token.Longest

/-!
# The parts of a text

A text consists of tokens and of what is skipped between them: blanks, and comments up to the end
of their line. This division is stated without regard to how a text is scanned, and each text has
only one. Between two tokens it does not matter what is skipped. Something else can be put in its
place, and the tokens stay the same: the one before it could not go on there, and the one after it
begins where it did.
-/

namespace Secd

/-- The span of a text that begins at byte `start`. -/
def Span.ofText (start : Nat) (text : List Char) : Span := ⟨start, start + utf8Length text⟩

namespace Lexeme

open Token

/-! ### What is skipped -/

/-- The characters are skipped in a text that goes on with `rest`: they are blanks and comments, and
every comment reaches up to a line feed or to the end of the text. -/
inductive Skipped (rest : List Char) : (gap : List Char) → Prop where
  | nil : Skipped rest []
  | blank {c : Char} {gap : List Char} (hblank : isBlank c = true) (hgap : Skipped rest gap) :
      Skipped rest (c :: gap)
  | comment {text gap : List Char} (htext : '\n' ∉ text)
      (hend : ∀ c ∈ (gap ++ rest).head?, c = '\n') (hgap : Skipped rest gap) :
      Skipped rest (';' :: (text ++ gap))

/-- The characters separate tokens: they are blanks, and comments with the line feeds that end
them. -/
inductive Separates : (gap : List Char) → Prop where
  | nil : Separates []
  | blank {c : Char} {gap : List Char} (hblank : isBlank c = true) (hgap : Separates gap) :
      Separates (c :: gap)
  | comment {text gap : List Char} (htext : '\n' ∉ text) (hgap : Separates gap) :
      Separates (';' :: (text ++ '\n' :: gap))

/-- What separates tokens is skipped wherever it stands. -/
theorem Separates.skipped {gap : List Char} (h : Separates gap) (rest : List Char) :
    Skipped rest gap := by
  induction h with
  | nil => exact .nil
  | blank hblank _ ih => exact .blank hblank ih
  | comment htext _ ih =>
    refine .comment htext ?_ (.blank (by decide) ih)
    rintro c ⟨⟩
    rfl

/-- A token cannot go on with what is skipped. -/
theorem Skipped.separated {rest gap : List Char} (h : Skipped rest gap) (hgap : gap ≠ [])
    (more : List Char) : Separated (gap ++ more) := by
  cases h with
  | nil => exact absurd rfl hgap
  | blank hblank _ =>
    refine Bool.eq_false_iff.2 fun hpart => ?_
    rw [isBlank_eq_false_of_isSymbolPart hpart] at hblank
    cases hblank
  | comment _ _ _ => exact (by decide : isSymbolPart ';' = false)

/-- What is skipped in front of a text is skipped in front of every text that begins in the same
way. -/
theorem Skipped.of_head? {rest rest' gap : List Char} (h : Skipped rest gap)
    (hrest : rest'.head? = rest.head?) : Skipped rest' gap := by
  induction h with
  | nil => exact .nil
  | blank hblank _ ih => exact .blank hblank ih
  | @comment text gap htext hend _ ih =>
    refine .comment htext ?_ ih
    rwa [List.head?_append, hrest, ← List.head?_append]

/-- Nothing is found in what is skipped. -/
theorem Skipped.scanFrom_append {rest gap : List Char} (h : Skipped rest gap) (offset : Nat) :
    scanFrom offset (gap ++ rest) = scanFrom (offset + utf8Length gap) rest := by
  induction h generalizing offset with
  | nil => rfl
  | @blank c gap hblank _ ih =>
    rw [List.cons_append, scanFrom, if_pos hblank, ih, utf8Length, Nat.add_assoc]
  | @comment text gap htext hend _ ih =>
    have htake : (text ++ (gap ++ rest)).takeWhile (· != '\n') = text := by
      rw [List.takeWhile_append_of_pos (by simpa using fun c hc (h : c = '\n') => htext (h ▸ hc))]
      cases hmore : gap ++ rest with
      | nil => simp
      | cons c more =>
        rw [hmore] at hend
        obtain rfl := hend c rfl
        simp
    rw [List.cons_append, List.append_assoc, scanFrom, if_neg (by decide), if_pos rfl]
    dsimp only
    rw [htake, List.drop_left, ih, ← List.cons_append, utf8Length_append, Nat.add_assoc]

/-! ### The division of a text -/

/-- The text, which begins at byte `offset`, consists of the tokens in their places and of what is
skipped between them. -/
inductive Partition : (offset : Nat) → (text : List Char) → List Lexeme → Prop where
  | nil {offset : Nat} {gap : List Char} (hgap : Skipped [] gap) : Partition offset gap []
  | cons {offset : Nat} {gap word rest : List Char} {l : Lexeme} {ls : List Lexeme}
      (hgap : Skipped (word ++ rest) gap) (hword : Cuts l.token word rest)
      (hstart : offset + utf8Length gap = l.span.start)
      (hstop : l.span.start + utf8Length word = l.span.stop)
      (hrest : Partition l.span.stop rest ls) :
      Partition offset (gap ++ (word ++ rest)) (l :: ls)

/-- A token begins with a character that is not skipped. -/
theorem exists_cons_of_cuts {t : Token} {word rest : List Char} (h : Cuts t word rest) :
    ∃ c more, word = c :: more ∧ isBlank c = false ∧ c ≠ ';' := by
  cases h with
  | longest hlongest _ =>
    have hpattern := hlongest.isPattern_word
    cases word with
    | nil => cases hpattern
    | cons c more =>
      refine ⟨c, more, rfl, ?_⟩
      have hpart (h : isSymbolPart c = true) : isBlank c = false ∧ c ≠ ';' :=
        ⟨isBlank_eq_false_of_isSymbolPart h, ne_of_isSymbolPart h (by decide)⟩
      rcases starts_of_isPattern hpattern with hmark | hdigit | hstart
      · rw [isMark, Bool.or_eq_true, Bool.or_eq_true, Bool.or_eq_true, beq_iff_eq, beq_iff_eq,
          beq_iff_eq, beq_iff_eq] at hmark
        rcases hmark with ((rfl | rfl) | rfl) | rfl <;> decide
      · exact hpart (isSymbolPart_of_isDigit c hdigit)
      · exact hpart (by rw [isSymbolPart, hstart, Bool.true_or, Bool.true_or])
  | @invalid c _ hblank hcomment _ => exact ⟨c, [], rfl, hblank, hcomment⟩

/-- More may be skipped at the front of a text. -/
theorem Partition.skip {offset : Nat} {text : List Char} {ls : List Lexeme} (first : List Char)
    (h : Partition (offset + utf8Length first) text ls)
    (hskip : ∀ {gap rest}, text = gap ++ rest → Skipped rest gap → Skipped rest (first ++ gap)) :
    Partition offset (first ++ text) ls := by
  cases h with
  | nil hgap => exact .nil (hskip (List.append_nil _).symm hgap)
  | @cons _ gap word rest l ls hgap hword hstart hstop hrest =>
    rw [← List.append_assoc]
    refine .cons (hskip rfl hgap) hword ?_ hstop hrest
    rw [utf8Length_append, ← Nat.add_assoc]
    exact hstart

/-- The division of a text is what scanning it gives, and there is no other. -/
theorem partition_iff {offset : Nat} {text : List Char} {ls : List Lexeme} :
    Partition offset text ls ↔ scanFrom offset text = ls := by
  constructor
  · intro h
    induction h with
    | @nil offset gap hgap =>
      have hscan := hgap.scanFrom_append offset
      rw [List.append_nil] at hscan
      rw [hscan, scanFrom]
    | @cons offset gap word rest l ls hgap hword hstart hstop _ ih =>
      obtain ⟨c, more, rfl, hblank, hcomment⟩ := exists_cons_of_cuts hword
      obtain ⟨htoken, hmore, hdrop⟩ := (cuts_scan hblank hcomment (more ++ rest)).unique hword
        (congrArg (c :: ·) (Token.scan_append_drop c _))
      rw [hgap.scanFrom_append, List.cons_append, scanFrom, if_neg (Bool.eq_false_iff.1 hblank),
        if_neg hcomment]
      dsimp only
      rw [htoken, hmore, hdrop, hstart, hstop, ih]
  · rintro rfl
    fun_induction scanFrom offset text with
    | case1 => exact .nil .nil
    | case2 offset c rest hblank ih =>
      exact ih.skip [c] fun _ hgap => .blank hblank hgap
    | case3 offset rest comment hblank =>
      rename_i ih
      have hsplit : comment ++ rest.drop comment.length = rest :=
        List.prefix_iff_eq_append.1 (List.takeWhile_prefix (· != '\n'))
      have hline : '\n' ∉ comment := fun hmem => by
        simpa using List.all_eq_true.1 (List.all_takeWhile (p := (· != '\n'))) _ hmem
      have hrest := ih.skip (';' :: comment) fun {gap more} htext hgap => ?_
      · rwa [List.cons_append, hsplit] at hrest
      · refine .comment hline (fun c hc => ?_) hgap
        rw [← htext] at hc
        simpa using eq_false_of_head?_drop hc
    | case4 offset c rest hblank hcomment token more hscan stop =>
      rename_i ih
      have hcuts := cuts_scan (Bool.eq_false_iff.2 hblank) hcomment rest
      have hrest : more ++ rest.drop more.length = rest := by
        have happend := Token.scan_append_drop c rest
        rwa [hscan] at happend
      rw [hscan] at hcuts
      have hall : Partition offset _ (⟨token, ⟨offset, stop⟩⟩ :: _) := .cons .nil hcuts rfl rfl ih
      rwa [List.nil_append, List.cons_append, hrest] at hall

/-- Each token of a text covers the characters that are cut there. -/
theorem Partition.exists_cuts {offset : Nat} {text : List Char} {ls : List Lexeme}
    (h : Partition offset text ls) {l : Lexeme} (hl : l ∈ ls) :
    ∃ before word after, text = before ++ (word ++ after) ∧
      offset + utf8Length before = l.span.start ∧ l.span.start + utf8Length word = l.span.stop ∧
      Cuts l.token word after := by
  induction h with
  | nil => cases hl
  | @cons offset gap word rest first ls hgap hword hstart hstop _ ih =>
    rcases List.mem_cons.1 hl with rfl | hl
    · exact ⟨gap, word, rest, rfl, hstart, hstop, hword⟩
    · obtain ⟨before, word', after, rfl, hbefore, hlength, hcuts⟩ := ih hl
      refine ⟨gap ++ (word ++ before), word', after, by simp only [List.append_assoc], ?_, hlength,
        hcuts⟩
      rw [utf8Length_append, utf8Length_append]
      omega

/-- The tokens follow one another. -/
theorem LaidOut.pairwise {source : String} {offset : Nat} {ls : List Lexeme}
    (h : LaidOut source offset ls) :
    (∀ l ∈ ls, offset ≤ l.span.start) ∧ ls.Pairwise fun l l' => l.span.stop ≤ l'.span.start := by
  induction h with
  | nil => exact ⟨by simp, .nil⟩
  | cons hle hproper _ ih =>
    obtain ⟨hfrom, hothers⟩ := ih
    refine ⟨List.forall_mem_cons.2 ⟨hle, fun l hl => ?_⟩, .cons hfrom hothers⟩
    have hstart := hproper.start_lt_stop
    have hstop := hfrom l hl
    omega

/-! ### Other separators -/

/-- The tokens of a text are the same wherever it begins. -/
theorem Partition.shift {offset : Nat} {text : List Char} {ls : List Lexeme}
    (h : Partition offset text ls) (offset' : Nat) :
    ∃ ls', Partition offset' text ls' ∧ ls'.map Lexeme.token = ls.map Lexeme.token := by
  induction h generalizing offset' with
  | nil hgap => exact ⟨[], .nil hgap, rfl⟩
  | @cons offset gap word rest l ls hgap hword hstart hstop _ ih =>
    let span := Span.ofText (offset' + utf8Length gap) word
    obtain ⟨ls', hrest, htokens⟩ := ih span.stop
    refine ⟨⟨l.token, span⟩ :: ls', .cons hgap hword rfl rfl hrest, ?_⟩
    rw [List.map_cons, htokens, List.map_cons]

/-- If anything is skipped between two tokens, anything else that separates tokens may stand
there. -/
theorem Partition.replace {offset : Nat} {text : List Char} {front back : List Lexeme}
    {l l' : Lexeme} (h : Partition offset text (front ++ l :: l' :: back)) :
    ∃ before gap after, text = before ++ (gap ++ after) ∧ before ≠ [] ∧
      offset + utf8Length before = l.span.stop ∧ l.span.stop + utf8Length gap = l'.span.start ∧
      ∀ gap', gap' ≠ [] → Separates gap' → ∀ offset', ∃ ls,
        Partition offset' (before ++ (gap' ++ after)) ls ∧
          ls.map Lexeme.token = (front ++ l :: l' :: back).map Lexeme.token := by
  induction front generalizing offset text with
  | nil =>
    cases h with
    | @cons _ first word _ _ _ hfirst hword hstart hstop hrest =>
      cases hrest with
      | @cons _ gap word' rest _ _ hgap hword' hstart' hstop' hback =>
        obtain ⟨c, more, rfl, -, -⟩ := exists_cons_of_cuts hword
        refine ⟨first ++ c :: more, gap, word' ++ rest, (List.append_assoc _ _ _).symm,
          List.append_ne_nil_of_right_ne_nil _ (List.cons_ne_nil _ _), ?_, hstart',
          fun gap' hne hgap' offset' => ?_⟩
        · rw [utf8Length_append, ← Nat.add_assoc, hstart, hstop]
        · have hsep := (hgap'.skipped (word' ++ rest)).separated hne (word' ++ rest)
          let span := Span.ofText (offset' + utf8Length first) (c :: more)
          let span' := Span.ofText (span.stop + utf8Length gap') word'
          obtain ⟨ls, hls, htokens⟩ := hback.shift span'.stop
          refine ⟨⟨l.token, span⟩ :: ⟨l'.token, span'⟩ :: ls, ?_, ?_⟩
          · rw [List.append_assoc]
            exact .cons (hfirst.of_head? rfl) (hword.of_separated hsep) rfl rfl
              (.cons (hgap'.skipped _) hword' rfl rfl hls)
          · rw [List.map_cons, List.map_cons, htokens]
            rfl
  | cons first front ih =>
    cases h with
    | @cons _ gap word rest _ _ hgap hword hstart hstop hrest =>
      obtain ⟨before, gap', after, rfl, hne, hbefore, hgap', hreplace⟩ := ih hrest
      obtain ⟨d, others, rfl⟩ := List.exists_cons_of_ne_nil hne
      obtain ⟨c, more, rfl, -, -⟩ := exists_cons_of_cuts hword
      refine ⟨gap ++ (c :: more ++ d :: others), gap', after, by simp only [List.append_assoc],
        List.append_ne_nil_of_right_ne_nil _ (List.cons_ne_nil _ _), ?_, hgap',
        fun gap'' hne' hsep offset' => ?_⟩
      · rw [utf8Length_append, utf8Length_append, ← Nat.add_assoc, ← Nat.add_assoc, hstart, hstop,
          hbefore]
      · let span := Span.ofText (offset' + utf8Length gap) (c :: more)
        obtain ⟨ls, hls, htokens⟩ := hreplace gap'' hne' hsep span.stop
        refine ⟨⟨first.token, span⟩ :: ls, ?_, ?_⟩
        · rw [List.append_assoc, List.append_assoc]
          exact .cons (hgap.of_head? rfl) (hword.of_head? rfl) rfl rfl hls
        · rw [List.map_cons, htokens]
          rfl

end Lexeme

end Secd
