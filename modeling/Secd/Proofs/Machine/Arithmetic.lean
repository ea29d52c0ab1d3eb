import Secd.Proofs.Machine.Completed

/-!
# Arithmetic is exact

An operation on two machine integers has the result that it has on the integers, or it faults: there
is no wrapping around. The compiler writes the code of the first operand of an arithmetic operation
first, so that the second one is on top of the stack, and for a comparison it is the other way
round; the instructions take the operands accordingly. So what an instruction finds are the values
with which the code of the operands has completed, in the order of the form.
-/

namespace Secd

/-! ### Exact results -/

namespace Integer

/-- The integer is one of 64 bits. -/
def Fits (n : Int) : Prop := -2 ^ 63 ≤ n ∧ n < 2 ^ 63

/-- A machine integer is one of 64 bits. -/
theorem fits_toInt (w : Int64) : Fits w.toInt := ⟨w.le_toInt, w.toInt_lt⟩

/-- Of the integers those of 64 bits are found. -/
theorem ofInt?_cases (n : Int) :
    (Fits n ∧ ∃ w, ofInt? n = some w ∧ w.toInt = n) ∨ ¬ Fits n ∧ ofInt? n = none := by
  have low : Int64.minValue.toInt = -2 ^ 63 := by decide
  have high : Int64.maxValue.toInt = 2 ^ 63 - 1 := by decide
  by_cases hn : Fits n
  · have hbounds : Int64.minValue.toInt ≤ n ∧ n ≤ Int64.maxValue.toInt := by
      unfold Fits at hn
      omega
    have hfound : ofInt? n = some (Int64.ofInt n) := if_pos hbounds
    exact .inl ⟨hn, _, hfound, toInt_eq_of_ofInt? hfound⟩
  · refine .inr ⟨hn, if_neg fun hbounds => hn ?_⟩
    unfold Fits
    omega

end Integer

namespace Arithmetic

/-- The integer `z` is what the operation makes of `x` and `y`. A quotient is truncated toward zero,
and a remainder is what this quotient leaves: it is less than the divisor, and has the sign of the
dividend unless it is zero. -/
def IsExact : Arithmetic → (x y z : Int) → Prop
  | .add, x, y, z => z = x + y
  | .sub, x, y, z => z = x - y
  | .mul, x, y, z => z = x * y
  | .div, x, y, z => z = x.tdiv y
  | .rem, x, y, z => x = x.tdiv y * y + z ∧ z.natAbs < y.natAbs ∧ (z = 0 ∨ z.sign = x.sign)

/-- The integer that has to be one of 64 bits: the result, or the quotient that belongs to it. -/
def bounded : Arithmetic → (x y : Int) → Int
  | .add, x, y => x + y
  | .sub, x, y => x - y
  | .mul, x, y => x * y
  | .div, x, y | .rem, x, y => x.tdiv y

/-- What a truncated quotient leaves. -/
theorem isExact_tmod {x y : Int} (hy : y ≠ 0) : Arithmetic.rem.IsExact x y (x.tmod y) := by
  refine ⟨(Int.tdiv_mul_add_tmod x y).symm, ?_, ?_⟩
  · rw [Int.natAbs_tmod]
    exact Nat.mod_lt _ (Int.natAbs_pos.2 hy)
  · by_cases hzero : x.tmod y = 0
    · exact .inl hzero
    · right
      rcases Int.le_total 0 x with hx | hx
      · have hmod := Int.tmod_nonneg y hx
        have hpos : x ≠ 0 := fun h => hzero (by rw [h, Int.zero_tmod])
        rw [Int.sign_eq_one_of_pos (by omega), Int.sign_eq_one_of_pos (by omega)]
      · have hmod : 0 ≤ (-x).tmod y := Int.tmod_nonneg y (by omega)
        rw [Int.neg_tmod] at hmod
        have hneg : x ≠ 0 := fun h => hzero (by rw [h, Int.zero_tmod])
        rw [Int.sign_eq_neg_one_of_neg (by omega), Int.sign_eq_neg_one_of_neg (by omega)]

/-- Unless the divisor is zero, the result is found and is exact, or the integer that has to be one
of 64 bits is not. -/
theorem compute?_cases (op : Arithmetic) {x y : Int64} (h : ¬ (op.divides ∧ y = 0)) :
    (Integer.Fits (op.bounded x.toInt y.toInt) ∧
        ∃ z, op.compute? x y = some z ∧ op.IsExact x.toInt y.toInt z.toInt) ∨
      ¬ Integer.Fits (op.bounded x.toInt y.toInt) ∧ op.compute? x y = none := by
  cases op with
  | add => exact Integer.ofInt?_cases _
  | sub => exact Integer.ofInt?_cases _
  | mul => exact Integer.ofInt?_cases _
  | div => exact Integer.ofInt?_cases _
  | rem =>
    have hy : y.toInt ≠ 0 := fun hzero => h ⟨rfl, Int64.toInt_inj.1 hzero⟩
    have hexact := isExact_tmod (x := x.toInt) hy
    rcases Integer.ofInt?_cases (x.toInt.tdiv y.toInt) with ⟨hfits, q, hq, -⟩ | ⟨hfits, hq⟩
    · refine .inl ⟨hfits, ?_⟩
      -- the remainder is less than the divisor, so it is a machine integer
      rcases Integer.ofInt?_cases (x.toInt.tmod y.toInt) with ⟨-, z, hz, hvalue⟩ | ⟨hlarge, -⟩
      · refine ⟨z, ?_, hvalue ▸ hexact⟩
        rw [compute?, Integer.rem?, Integer.quot?, hq, Option.bind_some, hz]
      · have hless := hexact.2.1
        have hdivisor := Integer.fits_toInt y
        unfold Integer.Fits at hlarge hdivisor
        omega
    · refine .inr ⟨hfits, ?_⟩
      rw [compute?, Integer.rem?, Integer.quot?, hq]
      rfl

end Arithmetic

/-! ### The code of an operation -/

namespace Sexp

/-- The compiler writes the code `c` for the expression in these scopes, in front of the code `k`,
wherever the expression stands and whatever it has written before. -/
def HasCode (cx : Term.Context) (scopes : Scopes) (e c k : Sexp) : Prop :=
  ∃ span t a b, Term.ofSexp cx scopes span e = .ok t ∧ (t.code k).run a = (c, b)

/-- The code `c` is that of two operands, one after the other, and of the operation on them, in
front of the code `k`. The code of the later operand begins at `d`, and the operation comes at
`g`. -/
structure Operates (cx : Term.Context) (scopes : Scopes) (op : Binary) (earlier later : Sexp)
    (c d g k : Sexp) : Prop where
  earlier : earlier.HasCode cx scopes c d
  later : later.HasCode cx scopes d g
  operation : g.Begins [(Opcode.binary op).sexp] k

variable {cx : Term.Context} {scopes : Scopes} {c k : Sexp}

/-- The code of an expression computes a value. -/
theorem HasCode.computes {e : Sexp} (h : e.HasCode cx scopes c k) : Computes 0 c k := by
  obtain ⟨span, t, a, b, hterm, hcode⟩ := h
  obtain ⟨c', b', o, hrun, hwritten, -⟩ :=
    (Term.puts_code (P := fun _ => True) 0 t fun _ _ => trivial).exists_run a k
  obtain ⟨rfl, -⟩ := Prod.mk.inj (hrun.symm.trans hcode)
  obtain ⟨ps, hcompiles, -⟩ := (Term.resolves_of_ofSexp e hterm).exists_compilesTo hwritten
  exact hcompiles.computes

end Sexp

namespace Term

variable {cx : Context} {scopes : Scopes}

/-- The term of an operation has those of its operands, in the order in which they are evaluated. -/
theorem exists_of_ofSexp_binary {form x y : Sexp} {op : Binary} {span : Option Span} {t : Term}
    (hphrase : form.phrase = .form (.binary op) [x, y])
    (h : ofSexp cx scopes span form = .ok t) :
    ∃ earlier later, t = .binary op earlier later ∧
      (∃ span', ofSexp cx scopes span' (if op.leftFirst then x else y) = .ok earlier) ∧
      ∃ span', ofSexp cx scopes span' (if op.leftFirst then y else x) = .ok later := by
  obtain ⟨cell, head, tail, rfl, hlist⟩ := Sexp.list?_of_phrase_form hphrase
  obtain ⟨a, b, rest, rfl⟩ := Sexp.exists_eq_of_list?_eq_pair hlist
  have hkeyword : Keyword.ofSexp? head = some (.binary op) := by
    rw [Sexp.phrase, hlist] at hphrase
    split at hphrase
    · next keyword operands hfound heq =>
      rw [hfound, (Phrase.form.inj hphrase).1]
    · cases hphrase
    · cases hphrase
  have hform : ofForm cx scopes (.binary op) (.pair a x (.pair b y rest)) = .ok t := by
    rw [ofSexp, hkeyword] at h
    split at h
    · next keyword operands hfound heq =>
      obtain rfl := Option.some.inj hfound
      split at h
      · exact h
      · cases h
    · cases h
    · next hfound _ => cases hfound
    · next hfound _ => cases hfound
  rw [ofForm] at hform
  split at hform
  · next hop =>
    obtain ⟨⟨v, u⟩, hparts, rfl⟩ := exists_of_map_eq_ok hform
    obtain ⟨hy, hx⟩ := Checked.both_eq_ok_iff.1 hparts
    rw [if_pos hop, if_pos hop]
    exact ⟨u, v, rfl, ⟨_, hx⟩, _, hy⟩
  · next hop =>
    obtain ⟨⟨u, v⟩, hparts, rfl⟩ := exists_of_map_eq_ok hform
    obtain ⟨hx, hy⟩ := Checked.both_eq_ok_iff.1 hparts
    rw [if_neg hop, if_neg hop]
    exact ⟨v, u, rfl, ⟨_, hy⟩, _, hx⟩

end Term

/-- The code of an operation is that of its operands, in the order in which they are evaluated, and
the instruction. -/
theorem Sexp.HasCode.exists_operates {cx : Term.Context} {scopes : Scopes} {op : Binary}
    {form x y c k : Sexp} (h : form.HasCode cx scopes c k)
    (hphrase : form.phrase = .form (.binary op) [x, y]) :
    ∃ d g, Operates cx scopes op (if op.leftFirst then x else y) (if op.leftFirst then y else x)
      c d g k := by
  obtain ⟨span, t, a, b, hterm, hcode⟩ := h
  obtain ⟨earlier, later, rfl, ⟨_, hearlier⟩, _, hlater⟩ :=
    Term.exists_of_ofSexp_binary hphrase hterm
  obtain ⟨d, g, a₁, a₂, hlaterCode, hearlierCode, hbegins⟩ := Term.exists_run_binary hcode
  exact ⟨d, g, ⟨_, _, _, _, hearlier, hearlierCode⟩, ⟨_, _, _, _, hlater, hlaterCode⟩, hbegins⟩

namespace Machine

/-! ### The instruction -/

variable {m : Machine} {stack : List Value}

open Secd.Action

/-- A step that may be taken executes the instruction that is next. -/
theorem step_of_next {op : Opcode} {k : Value} (hallowed : ¬ m.Exhausted)
    (hnext : m.registers.Next op [] k) :
    step.run m =
      match execute op (m.fetched k) with
      | .ok flow m' => .ok flow m'.measured
      | .error f m' => .error f m' := by
  obtain ⟨c, hcontrol, hhead, rfl⟩ := hnext
  rcases step_eq_execute (.fault .zeroDivision) hcontrol hhead with hcut | hstep
  · cases hcut with
    | steps hlimit hstep => exact absurd rfl ((sameDump_of_error hstep).2.2 hallowed _)
  · exact hstep

/-- The step faults in this way. -/
def FaultsWith (m : Machine) (f : Fault) : Prop := ∃ m', step.run m = .error f m'

/-- The step puts the value on the stack, goes on with the code `k`, and changes no other register
and nothing in the store. -/
def Puts (m : Machine) (v : Value) (stack : List Value) (k : Value) : Prop :=
  ∃ m', step.run m = .ok .proceed m' ∧
    m'.registers = { m.registers with stack := v :: stack, control := k }

/-- A step faults in one way only. -/
theorem FaultsWith.unique {f f' : Fault} (h : m.FaultsWith f) (h' : m.FaultsWith f') : f = f' := by
  obtain ⟨m₁, hstep⟩ := h
  obtain ⟨m₂, hstep'⟩ := h'
  cases hstep.symm.trans hstep'
  rfl

/-- A step that puts a value on the stack does not fault. -/
theorem Puts.not_faultsWith {v k : Value} (h : m.Puts v stack k) (f : Fault) :
    ¬ m.FaultsWith f := by
  obtain ⟨m₁, hstep, -⟩ := h
  rintro ⟨m₂, hstep'⟩
  cases hstep.symm.trans hstep'

/-- What an arithmetic operation does with `x` and `y`: it faults if it has to divide by zero, and
otherwise puts the exact result on the stack or faults with an overflow, depending on whether the
result, or for a remainder the quotient, is an integer of 64 bits. -/
structure Calculates (m : Machine) (op : Arithmetic) (x y : Int64) (stack : List Value)
    (k : Value) : Prop where
  zero : m.FaultsWith .zeroDivision ↔ op.divides = true ∧ y = 0
  exact : ¬ (op.divides = true ∧ y = 0) →
    ((∃ z : Int64, op.IsExact x.toInt y.toInt z.toInt ∧ m.Puts (.int z) stack k) ↔
      Integer.Fits (op.bounded x.toInt y.toInt))
  overflow : ¬ (op.divides = true ∧ y = 0) →
    (m.FaultsWith (.overflow op x y) ↔ ¬ Integer.Fits (op.bounded x.toInt y.toInt))
  only : ∀ f, m.FaultsWith f → f = .zeroDivision ∨ f = .overflow op x y

/-- An arithmetic instruction calculates with the two integers on top of the stack, the second of
which is on top. -/
theorem calculates {op : Arithmetic} {x y : Int64} {k : Value} (hallowed : ¬ m.Exhausted)
    (hnext : m.registers.Next (.binary (.arithmetic op)) [] k)
    (hstack : m.stack = .int y :: .int x :: stack) : m.Calculates op x y stack k := by
  have hstep := step_of_next hallowed hnext
  by_cases hzero : op.divides = true ∧ y = 0
  · have hfault : m.FaultsWith .zeroDivision := by
      rw [FaultsWith, hstep]
      simp [execute, binary, arithmetic, popInt, fetched, pop, hstack, hzero]
    exact ⟨⟨fun _ => hzero, fun _ => hfault⟩, fun h => absurd hzero h, fun h => absurd hzero h,
      fun f h => .inl (h.unique hfault)⟩
  · rcases op.compute?_cases (x := x) hzero with ⟨hfits, z, hz, hexact⟩ | ⟨hfits, hnone⟩
    · have hputs : m.Puts (.int z) stack k := by
        rw [Puts, hstep]
        simp [execute, binary, arithmetic, popInt, fetched, pop, measured, registers, hstack, hzero,
          hz]
      have hnofault := hputs.not_faultsWith
      exact ⟨⟨fun h => absurd h (hnofault _), fun h => absurd h hzero⟩,
        fun _ => ⟨fun _ => hfits, fun _ => ⟨z, hexact, hputs⟩⟩,
        fun _ => ⟨fun h => absurd h (hnofault _), fun h => absurd hfits h⟩,
        fun f h => absurd h (hnofault f)⟩
    · have hfault : m.FaultsWith (.overflow op x y) := by
        rw [FaultsWith, hstep]
        simp [execute, binary, arithmetic, popInt, fetched, pop, hstack, hzero, hnone]
      refine ⟨⟨fun h => ?_, fun h => absurd h hzero⟩, fun _ => ⟨?_, fun h => absurd h hfits⟩,
        fun _ => ⟨fun _ => hfits, fun _ => hfault⟩, fun f h => .inr (h.unique hfault)⟩
      · cases h.unique hfault
      · rintro ⟨z, -, hputs⟩
        exact absurd hfault (hputs.not_faultsWith _)

/-- A comparison puts the truth value on the stack that says whether the integer on top of the stack
is no greater than the one below it. -/
theorem compares {x y : Int64} {k : Value} (hallowed : ¬ m.Exhausted)
    (hnext : m.registers.Next (.binary .leq) [] k)
    (hstack : m.stack = .int x :: .int y :: stack) :
    m.Puts (.symbol (if x.toInt ≤ y.toInt then "T" else "F")) stack k := by
  have hstep := step_of_next hallowed hnext
  rw [Puts, hstep]
  simp [execute, binary, popInt, fetched, pop, measured, registers, hstack, Value.truth,
    Int64.le_iff_toInt_le]

/-! ### Operations in a run -/

/-- When the code of both operands has completed, the instruction of the operation is next, and the
two values are on the stack with which the code began, the later one on top. -/
theorem next_of_completes {cx : Term.Context} {scopes : Scopes} {op : Binary}
    {earlier later c d g k : Sexp} (h : Sexp.Operates cx scopes op earlier later c d g k)
    (hat : m.At c) {i j : Nat} {v w : Value} (hearlier : m.Completes d.value i v)
    (hlater : (m.after i).Completes g.value j w) :
    (m.after (i + j)).registers.Next (.binary op) [] k.value ∧
      (m.after (i + j)).stack = w :: v :: m.stack := by
  obtain ⟨hatLater, hstack, -⟩ := pushed_of_completes h.earlier.computes hat hearlier
  obtain ⟨hatOperation, hstack', -⟩ := pushed_of_completes h.later.computes hatLater hlater
  rw [hstack] at hstack'
  rw [after_after] at hatOperation hstack'
  obtain ⟨vs, hnext, -, -, hvalues⟩ := hatOperation.exists_next h.operation
  cases hvalues
  exact ⟨hnext, hstack'⟩

/-- Arithmetic is that of the integers, or a fault. For a form with an operation and two operands,
compiled in any scopes and in front of any code: its code is that of the operands, in the order in
which the operation wants them, and the instruction. In every run of a program with this code, if
the code of the operands has completed with integers as their values and one more step is allowed,
then the instruction does with these values what the operation does with integers: it puts the exact
result in their place, if that is an integer of 64 bits, and otherwise faults with an overflow; a
division by zero is a fault of its own; and a comparison never faults. -/
theorem exact_of_completes {cx : Term.Context} {scopes : Scopes} {program form a b c k : Sexp}
    (m₀ : Machine) (n : Nat) (hform : form.HasCode cx scopes c k)
    (hprogram : m₀.store.Holds program) (hpart : Sexp.HasPart c program)
    (hcontrol : (m₀.after n).control = c.value) :
    (∀ op, form.phrase = .form (.binary (.arithmetic op)) [a, b] →
      (∃ d g, Sexp.Operates cx scopes (.arithmetic op) a b c d g k) ∧
        ∀ d g, Sexp.Operates cx scopes (.arithmetic op) a b c d g k →
          ∀ i j x y, (m₀.after n).Completes d.value i (.int x) →
            (m₀.after (n + i)).Completes g.value j (.int y) →
            ¬ (m₀.after (n + i + j)).Exhausted →
            (m₀.after (n + i + j)).Calculates op x y (m₀.after n).stack k.value) ∧
    (form.phrase = .form (.binary .leq) [a, b] →
      (∃ d g, Sexp.Operates cx scopes .leq b a c d g k) ∧
        ∀ d g, Sexp.Operates cx scopes .leq b a c d g k →
          ∀ i j x y, (m₀.after n).Completes d.value i (.int y) →
            (m₀.after (n + i)).Completes g.value j (.int x) →
            ¬ (m₀.after (n + i + j)).Exhausted →
            (m₀.after (n + i + j)).Puts (.symbol (if x.toInt ≤ y.toInt then "T" else "F"))
              (m₀.after n).stack k.value) := by
  have hat : (m₀.after n).At c := ⟨hcontrol, retains_after (hprogram.retains.part hpart) n⟩
  constructor
  · intro op hphrase
    refine ⟨hform.exists_operates hphrase, fun d g hcode i j x y hx hy hallowed => ?_⟩
    rw [← after_after] at hy
    obtain ⟨hnext, hstack⟩ := next_of_completes hcode hat hx hy
    rw [after_after, ← Nat.add_assoc] at hnext hstack
    exact calculates hallowed hnext hstack
  · intro hphrase
    refine ⟨hform.exists_operates hphrase, fun d g hcode i j x y hy hx hallowed => ?_⟩
    rw [← after_after] at hx
    obtain ⟨hnext, hstack⟩ := next_of_completes hcode hat hy hx
    rw [after_after, ← Nat.add_assoc] at hnext hstack
    exact compares hallowed hnext hstack

/-- The code `(LDC 1 LDC -7 LDC 2 DIV SUB STOP)` in cell 8. -/
def nestedQuotient : Store where
  cells := #[⟨Opcode.stop.value, .nil⟩, ⟨(Opcode.binary (.arithmetic .sub)).value, .pair 0⟩,
    ⟨(Opcode.binary (.arithmetic .div)).value, .pair 1⟩, ⟨.int 2, .pair 2⟩,
    ⟨Opcode.ldc.value, .pair 3⟩, ⟨.int (-7), .pair 4⟩, ⟨Opcode.ldc.value, .pair 5⟩,
    ⟨.int 1, .pair 6⟩, ⟨Opcode.ldc.value, .pair 7⟩]

/-- In the code of the program `(SUB 1 (DIV -7 2))` the division puts the quotient that is nearer to
zero in the place of its operands, on top of the other operand of the program. -/
theorem exact_of_completes_quotient :
    let form := Sexp.pair 2 (.symbol "DIV") (.pair 1 (.int (-7)) (.pair 0 (.int 2) .nil))
    let program := Sexp.pair 5 (.symbol "SUB") (.pair 4 (.int 1) (.pair 3 form .nil))
    let k := Sexp.pair 1 (Opcode.binary (.arithmetic .sub)).sexp (.pair 0 Opcode.stop.sexp .nil)
    let g := Sexp.pair 2 (Opcode.binary (.arithmetic .div)).sexp k
    let d := Sexp.pair 4 Opcode.ldc.sexp (.pair 3 (.int 2) g)
    let c := Sexp.pair 6 Opcode.ldc.sexp (.pair 5 (.int (-7)) d)
    let code := Sexp.pair 8 Opcode.ldc.sexp (.pair 7 (.int 1) c)
    let m := (idle nestedQuotient {}).load code.value .nil .nil
    Module.compile program .empty .expression none {} =
        (.ok ⟨code, .expression, false, []⟩, nestedQuotient) ∧
      (m.after 1).Completes d.value 1 (.int (-7)) ∧ (m.after 2).Completes g.value 1 (.int 2) ∧
      (m.after 3).Puts (.int (-3)) [.int 1, .nil] k.value := by
  intro form program k g d c code m
  have hform : form.HasCode ⟨.empty, none⟩ [] c k :=
    ⟨none, .binary (.arithmetic .div) (.constant (.int (-7))) (.constant (.int 2)),
      ⟨{ cells := nestedQuotient.cells.take 2 }, []⟩, _, rfl, rfl⟩
  have hcode : Sexp.Operates ⟨.empty, none⟩ [] (.arithmetic .div) (.int (-7)) (.int 2) c d g k :=
    ⟨⟨none, .constant (.int (-7)), ⟨{ cells := nestedQuotient.cells.take 5 }, []⟩, _, rfl, rfl⟩,
      ⟨none, .constant (.int 2), ⟨{ cells := nestedQuotient.cells.take 3 }, []⟩, _, rfl, rfl⟩,
      ⟨_, _, rfl, rfl⟩⟩
  have hx : (m.after 1).Completes d.value 1 (.int (-7)) := completes_of_step rfl nofun rfl rfl rfl
  have hy : (m.after 2).Completes g.value 1 (.int 2) := completes_of_step rfl nofun rfl rfl rfl
  have hk : m.store.Holds k := ⟨by decide, rfl, trivial, by decide, rfl, trivial, trivial⟩
  have hg : m.store.Holds g := ⟨by decide, rfl, trivial, hk⟩
  have hd : m.store.Holds d := ⟨by decide, rfl, trivial, by decide, rfl, trivial, hg⟩
  have hc : m.store.Holds c := ⟨by decide, rfl, trivial, by decide, rfl, trivial, hd⟩
  have hheld : m.store.Holds code := ⟨by decide, rfl, trivial, by decide, rfl, trivial, hc⟩
  obtain ⟨-, hcalculates⟩ :=
    (exact_of_completes m 1 hform hheld (.tail (.tail .self)) rfl).1 .div rfl
  have hresult := hcalculates d g hcode 1 1 (-7) 2 hx hy nofun
  obtain ⟨z, hz, hputs⟩ := (hresult.exact (by decide)).2 (by unfold Integer.Fits; decide)
  obtain rfl : z = -3 := Int64.toInt_inj.1 hz
  exact ⟨rfl, hx, hy, hputs⟩

end Machine

end Secd
