import Secd.Proofs.Term.Faults

/-!
# The order of compile errors

A report has its errors in the order of the text. Errors that begin at the same place are in the
order in which they have been found, since an error is never put behind one that begins where it
begins itself.
-/

namespace Secd

namespace CompileError

/-- Where the span of an error begins, if it has one. -/
def start? (e : CompileError) : Option Nat := e.span.map Span.start

/-- An error may come before another one if it begins no later; those without a span come last. -/
theorem notAfter_iff {e f : CompileError} :
    e.notAfter f = true ↔ ∀ n ∈ f.start?, ∃ m ∈ e.start?, m ≤ n := by
  obtain ⟨fault, span⟩ := e
  obtain ⟨fault', span'⟩ := f
  cases span <;> cases span' <;> simp [notAfter, start?]

/-- An error that may not come before another one begins later. -/
theorem exists_start_lt {e f : CompileError} (h : ¬ e.notAfter f = true) :
    ∃ n ∈ f.start?, ∀ m ∈ e.start?, n < m := by
  obtain ⟨n, hnot⟩ := not_forall.1 (mt notAfter_iff.2 h)
  obtain ⟨hn, hnot⟩ := Classical.not_imp.1 hnot
  exact ⟨n, hn, fun m hm => Nat.lt_of_not_le fun hle => hnot ⟨m, hm, hle⟩⟩

/-- Errors in order stay so when another one is inserted. -/
theorem pairwise_insert (e : CompileError) {errors : List CompileError}
    (h : errors.Pairwise fun f g => f.notAfter g = true) :
    (e.insert errors).Pairwise fun f g => f.notAfter g = true := by
  induction h with
  | nil => exact List.pairwise_singleton _ _
  | @cons f rest hf hrest ih =>
    rw [insert]
    split
    · next hbefore =>
      refine .cons (List.forall_mem_cons.2 ⟨hbefore, fun g hg => ?_⟩) (.cons hf hrest)
      rw [notAfter_iff]
      intro n hn
      obtain ⟨k, hk, hkn⟩ := notAfter_iff.1 (hf g hg) n hn
      obtain ⟨m, hm, hmk⟩ := notAfter_iff.1 hbefore k hk
      exact ⟨m, hm, Nat.le_trans hmk hkn⟩
    · next hafter =>
      refine .cons (fun g hg => ?_) ih
      rcases List.mem_cons.1 ((perm_insert e rest).mem_iff.1 hg) with rfl | hg
      · obtain ⟨n, hn, hlt⟩ := exists_start_lt hafter
        exact notAfter_iff.2 fun m hm => ⟨n, hn, Nat.le_of_lt (hlt m hm)⟩
      · exact hf g hg

/-- Sorting puts errors in order. -/
theorem pairwise_sort (errors : List CompileError) :
    (sort errors).Pairwise fun e f => e.notAfter f = true := by
  induction errors with
  | nil => exact .nil
  | cons e rest ih => exact pairwise_insert e ih

/-- An error is inserted before all errors that begin where it begins. -/
theorem filter_insert (e : CompileError) (errors : List CompileError) (start : Option Nat) :
    (e.insert errors).filter (fun f => f.start? = start) =
      (e :: errors).filter (fun f => f.start? = start) := by
  induction errors with
  | nil => rfl
  | cons f rest ih =>
    rw [insert]
    split
    · rfl
    · next hafter =>
      obtain ⟨n, hn, hlt⟩ := exists_start_lt hafter
      have hne : ¬ (e.start? = start ∧ f.start? = start) := by
        rintro ⟨he, rfl⟩
        exact Nat.lt_irrefl n (hlt n (he ▸ hn))
      rw [List.filter_cons, ih, List.filter_cons, List.filter_cons, List.filter_cons]
      by_cases he : e.start? = start <;> by_cases hf : f.start? = start <;> simp_all

/-- Sorting keeps the order of errors that begin at the same place. -/
theorem filter_sort (errors : List CompileError) (start : Option Nat) :
    (sort errors).filter (fun e => e.start? = start) =
      errors.filter (fun e => e.start? = start) := by
  induction errors with
  | nil => rfl
  | cons e rest ih => rw [sort, filter_insert, List.filter_cons, List.filter_cons, ih]

end CompileError

end Secd
