import ArithCompiler.Expr.Eval

/-! # Exact results and words

The operations over unbounded integers, and the integers that a word of 64 bits can hold. A checked
operation gives the exact result where there is one and it fits, and else the reason. Evaluation
works on words, and each of its operations is the checked one on the integers of its operands.
-/

namespace ArithCompiler

/-- The result over unbounded integers. Division truncates toward zero. -/
def BinOp.exactResult? : BinOp → Int → Int → Option Int
  | add, a, b => some (a + b)
  | sub, a, b => some (a - b)
  | mul, a, b => some (a * b)
  | div, a, b => if b = 0 then none else some (a.tdiv b)

/-- The integers from `-2 ^ 63` to `2 ^ 63 - 1`. -/
def FitsWord (n : Int) : Prop := -0x8000000000000000 ≤ n ∧ n ≤ 0x7fffffffffffffff

instance (n : Int) : Decidable (FitsWord n) :=
  inferInstanceAs (Decidable (_ ∧ _))

theorem fitsWord_toInt (v : Int64) : FitsWord v.toInt :=
  ⟨v.le_toInt, Int.le_of_lt_add_one v.toInt_lt⟩

namespace BinOp

/-- The operation on integers, where a division by zero fails and so does a result that no word
holds. -/
def checked (op : BinOp) (a b : Int) : Except EvalError Int :=
  match op.exactResult? a b with
  | none => .error .divisionByZero
  | some n => if FitsWord n then .ok n else .error (.overflow op)

theorem checked_eq_ok_iff {op : BinOp} {a b n : Int} :
    op.checked a b = .ok n ↔ op.exactResult? a b = some n ∧ FitsWord n := by
  rw [checked]
  cases op.exactResult? a b with
  | none => simp
  | some m =>
    by_cases hm : FitsWord m
    · simp only [hm, if_true, Except.ok.injEq, Option.some.injEq]
      exact ⟨fun h => ⟨h, h ▸ hm⟩, And.left⟩
    · simp only [hm, if_false, reduceCtorEq, Option.some.injEq, false_iff, not_and]
      rintro rfl
      exact hm

theorem exactResult?_eq_none_iff {op : BinOp} {a b : Int} :
    op.exactResult? a b = none ↔ op = .div ∧ b = 0 := by
  cases op <;> simp [exactResult?]

theorem checked_eq_error_iff {op : BinOp} {a b : Int} {err : EvalError} :
    op.checked a b = .error err ↔
      (op = .div ∧ b = 0) ∧ err = .divisionByZero ∨
        ∃ n, op.exactResult? a b = some n ∧ ¬ FitsWord n ∧ err = .overflow op := by
  rw [checked, ← exactResult?_eq_none_iff]
  cases op.exactResult? a b with
  | none => simp [eq_comm]
  | some m => by_cases hm : FitsWord m <;> simp [hm, eq_comm]

/-- The only quotient of two words that is no word. -/
theorem exactResult?_div_overflow {a b n : Int} (ha : FitsWord a)
    (h : BinOp.div.exactResult? a b = some n) (hn : ¬ FitsWord n) :
    a = -0x8000000000000000 ∧ b = -1 := by
  have hb : b ≠ 0 := by
    rintro rfl
    cases h
  obtain rfl : a.tdiv b = n := by simpa [exactResult?, hb] using h
  have habs : (a.tdiv b).natAbs = a.natAbs / b.natAbs := Int.natAbs_tdiv a b
  rw [FitsWord] at ha hn
  by_cases hunit : b.natAbs = 1
  · obtain rfl | rfl : b = 1 ∨ b = -1 := by omega
    · rw [Int.tdiv_one] at hn
      exact absurd ha hn
    · rw [Int.tdiv_neg, Int.tdiv_one] at hn
      omega
  · -- Any other divisor halves the dividend at least.
    have hhalf : a.natAbs / b.natAbs ≤ a.natAbs / 2 := Nat.div_le_div_left (by omega) (by decide)
    omega

theorem exactResult?_of_ne {op : BinOp} {a b : Int} (h : ¬ (op = .div ∧ b = 0)) :
    op.exactResult? a b = some (op.exact a b) := by
  cases op with
  | div =>
    have hb : b ≠ 0 := fun hb => h ⟨rfl, hb⟩
    simp [exactResult?, exact, hb]
  | _ => rfl

end BinOp

/-- The words are the integers that fit. -/
theorem map_toInt_fit? (n : Int) :
    (fit? n).map Int64.toInt = if FitsWord n then some n else none := by
  rw [fit?]
  by_cases hfits : FitsWord n
  · have hlt : n < 0x8000000000000000 := Int.lt_add_one_of_le hfits.2
    rw [if_pos ⟨hfits.1, hlt⟩, if_pos hfits, Option.map_some, Int64.toInt_ofInt_of_le hfits.1 hlt]
  · have hrange : ¬ (-0x8000000000000000 ≤ n ∧ n < 0x8000000000000000) := fun h =>
      hfits ⟨h.1, Int.le_of_lt_add_one h.2⟩
    rw [if_neg hrange, if_neg hfits, Option.map_none]

/-- The operations of evaluation are the checked ones. -/
theorem BinOp.map_toInt_apply (op : BinOp) (a b : Int64) :
    (op.apply a b).map Int64.toInt = op.checked a.toInt b.toInt := by
  have hzero : b.toInt = 0 ↔ b = 0 := by rw [← Int64.toInt_zero, Int64.toInt_inj]
  rw [apply]
  by_cases hdiv : op = .div ∧ b = 0
  · rw [if_pos hdiv, checked, exactResult?_eq_none_iff.2 (by rwa [hzero])]
    rfl
  · have hfit := map_toInt_fit? (op.exact a.toInt b.toInt)
    rw [if_neg hdiv, checked, exactResult?_of_ne (by rwa [hzero])]
    cases hword : fit? (op.exact a.toInt b.toInt) with
    | none =>
      rw [hword] at hfit
      have hrange : ¬ FitsWord (op.exact a.toInt b.toInt) := by
        intro hfits
        simp [hfits] at hfit
      simp [hrange, Except.map]
    | some value =>
      rw [hword] at hfit
      by_cases hfits : FitsWord (op.exact a.toInt b.toInt)
      · rw [if_pos hfits, Option.map_some, Option.some.injEq] at hfit
        simp [hfits, Except.map, hfit]
      · simp [hfits] at hfit

end ArithCompiler
