import Secd.Proofs.Machine.Restored

/-!
# What holds until something else does

A run may end, and it may go on forever, before the code that it is about to execute is done. So
that code does something is said about those states only to which the run gets: as long as the
machine goes on, one property holds until the other one does. Such statements are put together like
the code, from one for each instruction. For a function that is called there is no code to follow.
What is known then is that the dump is larger until the caller gets its registers back.
-/

namespace Secd

namespace Machine

variable {m : Machine} {P P' Q R : Machine → Prop}

/-- If the first `n` steps go on, then `P` holds in all states up to the last one, or `Q` holds in
one of them and `P` in those before it. -/
def Until (P Q : Machine → Prop) (m : Machine) : Prop :=
  ∀ n, m.Proceeds n → (∀ i ≤ n, P (m.after i)) ∨ ∃ j ≤ n, Q (m.after j) ∧ ∀ i < j, P (m.after i)

namespace Until

/-- What holds now need not be waited for. -/
theorem now (h : Q m) : m.Until P Q :=
  fun n _ => .inr ⟨0, Nat.zero_le n, h, fun _ hi => absurd hi (Nat.not_lt_zero _)⟩

/-- A step can be taken beforehand. -/
theorem step (hP : P m) (h : step.run m = .ok .proceed m.next → m.next.Until P Q) :
    m.Until P Q := by
  intro n hproceeds
  cases n with
  | zero =>
    refine .inl fun i hi => ?_
    obtain rfl := Nat.le_zero.1 hi
    exact hP
  | succ n =>
    have hrest := h (hproceeds 0 (Nat.succ_pos n)) n (hproceeds.drop 1)
    simp only [after_next] at hrest
    have hcons {j : Nat} (hlater : ∀ i < j, P (m.after (i + 1))) : ∀ i < j + 1, P (m.after i) := by
      intro i hi
      cases i with
      | zero => exact hP
      | succ i => exact hlater i (Nat.lt_of_succ_lt_succ hi)
    rcases hrest with hall | ⟨j, hj, hQ, hbefore⟩
    · have hlater := hcons (j := n + 1) fun i hi => hall i (Nat.le_of_lt_succ hi)
      exact .inl fun i hi => hlater i (Nat.lt_succ_of_le hi)
    · exact .inr ⟨j + 1, Nat.succ_le_succ hj, hQ, hcons hbefore⟩

/-- Instead of what is waited for, something else may be waited for from then on. -/
theorem bind (h : m.Until P Q) (hnext : ∀ j, Q (m.after j) → (m.after j).Until P R) :
    m.Until P R := by
  intro n hproceeds
  rcases h n hproceeds with hall | ⟨j, hj, hQ, hbefore⟩
  · exact .inl hall
  · have hrest := hnext j hQ (n - j) (hproceeds.drop j)
    simp only [after_after] at hrest
    have happend {l : Nat} (hlater : ∀ i < l, P (m.after (j + i))) :
        ∀ i < j + l, P (m.after i) := by
      intro i hi
      by_cases hlt : i < j
      · exact hbefore i hlt
      · have hsame : j + (i - j) = i := by omega
        exact hsame ▸ hlater (i - j) (by omega)
    rcases hrest with hall | ⟨l, hl, hR, hlater⟩
    · have hstates := happend (l := n - j + 1) fun i hi => hall i (Nat.le_of_lt_succ hi)
      exact .inl fun i hi => hstates i (by omega)
    · exact .inr ⟨j + l, by omega, hR, happend hlater⟩

/-- What holds in the meantime may be said less precisely. -/
theorem mono (h : m.Until P Q) (hP : ∀ m', P m' → P' m') : m.Until P' Q := by
  intro n hproceeds
  rcases h n hproceeds with hall | ⟨j, hj, hQ, hbefore⟩
  · exact .inl fun i hi => hP _ (hall i hi)
  · exact .inr ⟨j, hj, hQ, fun i hi => hP _ (hbefore i hi)⟩

end Until

/-- The first state in which the dump is no longer larger ends an excursion. -/
theorem excursion_of_first {j : Nat} (hstep : step.run m = .ok .proceed m.next)
    (hlarger : ∀ i ≤ j, m.dump.size < (m.next.after i).dump.size)
    (hfirst : ¬ m.dump.size < (m.next.after (j + 1)).dump.size) : m.Excursion (j + 1) := by
  refine ⟨hstep, fun i hi hpos => ?_, ?_⟩
  · obtain ⟨i, rfl⟩ : ∃ l, i = l + 1 := ⟨i - 1, by omega⟩
    rw [← after_next]
    exact hlarger i (Nat.le_of_succ_le_succ hi)
  · have hlast := hlarger j (Nat.le_refl j)
    have htaken := (m.next.after j).size_dump_le_next
    rw [← after_next]
    rw [after] at hfirst ⊢
    omega

/-- After a step that saves an entry, the dump is larger until it is what it was, and then a step
has restored the entry. -/
theorem until_restored {entry : DumpEntry} (hstep : step.run m = .ok .proceed m.next)
    (hsaved : m.next.dump = m.dump.push entry) :
    m.next.Until (fun m' => m.dump.size < m'.dump.size)
      (fun m' => m'.dump = m.dump ∧ ∃ last : Machine, last.next = m' ∧ last.Restores entry) := by
  classical
  intro n _
  by_cases hall : ∀ i ≤ n, m.dump.size < (m.next.after i).dump.size
  · exact .inl hall
  · have hends : ∃ j, ¬ m.dump.size < (m.next.after j).dump.size := by
      simp only [not_forall] at hall
      obtain ⟨j, -, hj⟩ := hall
      exact ⟨j, hj⟩
    have hfirst := Nat.find_spec hends
    have hbefore {i : Nat} (hi : i < Nat.find hends) : m.dump.size < (m.next.after i).dump.size :=
      Decidable.not_not.1 (Nat.find_min hends hi)
    have hle : Nat.find hends ≤ n := by
      by_contra hlt
      exact hall fun i hi => hbefore (Nat.lt_of_le_of_lt hi (Nat.not_le.1 hlt))
    generalize Nat.find hends = j at hfirst hbefore hle
    cases j with
    | zero =>
      have hsize : m.next.dump.size = m.dump.size + 1 := by rw [hsaved, Array.size_push]
      exact absurd (hsize ▸ Nat.lt_succ_self _) hfirst
    | succ j =>
      have hexcursion :=
        excursion_of_first hstep (fun i hi => hbefore (Nat.lt_succ_of_le hi)) hfirst
      refine .inr ⟨j + 1, hle, ?_, fun i hi => hbefore hi⟩
      rw [after_next]
      exact ⟨hexcursion.dump_eq, m.after (j + 1), rfl, hexcursion.restores hsaved⟩

end Machine

end Secd
