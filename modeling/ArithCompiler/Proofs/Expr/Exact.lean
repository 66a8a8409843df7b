import ArithCompiler.Proofs.Expr.OnePass

/-! # Evaluation and exact integers

Over unbounded integers a tree has a value unless it divides by zero. Evaluation gives this value
where that of every subtree exists and fits in 64 bits. Otherwise it fails with the error of the
first node, in the order of evaluation, that has no such value although its operands have.
-/

namespace ArithCompiler

namespace Expr

/-- The value over unbounded integers, unless there is a division by zero. -/
def exactValue? : Expr → Option Int
  | literal value => some value.toInt
  | binary op left right =>
    left.exactValue?.bind fun a => right.exactValue?.bind fun b => op.exactResult? a b

/-- All subtrees in the order of evaluation: those of the left operand, those of the right one, and
the tree itself. -/
def subtrees : Expr → List Expr
  | literal value => [literal value]
  | binary op left right => left.subtrees ++ right.subtrees ++ [binary op left right]

theorem self_mem_subtrees (e : Expr) : e ∈ e.subtrees := by
  cases e <;> simp [subtrees]

/-- Every subtree has an exact value that fits, and that of the whole is `n`. -/
def Evaluates (e : Expr) (n : Int) : Prop :=
  (∀ t ∈ e.subtrees, ∃ m, t.exactValue? = some m ∧ FitsWord m) ∧ e.exactValue? = some n

/-- A node whose operands have values while it has none, and why. -/
inductive Fails : Expr → EvalError → Prop
  | divisionByZero {left right : Expr} {a : Int} (hleft : left.Evaluates a)
      (hright : right.Evaluates 0) : Fails (binary .div left right) .divisionByZero
  | overflow {op : BinOp} {left right : Expr} {a b n : Int} (hleft : left.Evaluates a)
      (hright : right.Evaluates b) (hexact : op.exactResult? a b = some n) (hrange : ¬ FitsWord n) :
      Fails (binary op left right) (.overflow op)

theorem Evaluates.fits {e : Expr} {n : Int} (h : e.Evaluates n) : FitsWord n := by
  obtain ⟨m, hm, hfits⟩ := h.1 e e.self_mem_subtrees
  rw [h.2] at hm
  cases hm
  exact hfits

theorem evaluates_literal_iff {v : Int64} {n : Int} : (literal v).Evaluates n ↔ v.toInt = n := by
  simp [Evaluates, subtrees, exactValue?, fitsWord_toInt]

theorem evaluates_binary_iff {op : BinOp} {left right : Expr} {n : Int} :
    (binary op left right).Evaluates n ↔
      ∃ a b, left.Evaluates a ∧ right.Evaluates b ∧ op.exactResult? a b = some n ∧ FitsWord n := by
  constructor
  · intro h
    have hfits := h.fits
    obtain ⟨hsubtrees, hexact⟩ := h
    simp only [exactValue?, Option.bind_eq_some_iff] at hexact
    obtain ⟨a, ha, b, hb, hn⟩ := hexact
    refine ⟨a, b, ⟨fun t ht => hsubtrees t ?_, ha⟩, ⟨fun t ht => hsubtrees t ?_, hb⟩, hn, hfits⟩
    · simp [subtrees, ht]
    · simp [subtrees, ht]
  · rintro ⟨a, b, ⟨hleft, ha⟩, ⟨hright, hb⟩, hn, hfits⟩
    have hexact : (binary op left right).exactValue? = some n := by simp [exactValue?, ha, hb, hn]
    refine ⟨fun t ht => ?_, hexact⟩
    simp only [subtrees, List.mem_append, List.mem_singleton] at ht
    rcases ht with (ht | ht) | rfl
    · exact hleft t ht
    · exact hright t ht
    · exact ⟨n, hexact, hfits⟩

theorem value_binary_eq_ok_iff {op : BinOp} {left right : Expr} {n : Int} :
    (binary op left right).value = .ok n ↔
      ∃ a b, left.value = .ok a ∧ right.value = .ok b ∧ op.checked a b = .ok n := by
  rw [value_binary]
  cases left.value with
  | error e => simp [bind, Except.bind]
  | ok a =>
    cases right.value with
    | error e => simp [bind, Except.bind]
    | ok b => simp [bind, Except.bind]

theorem value_eq_ok_iff {e : Expr} {n : Int} : e.value = .ok n ↔ e.Evaluates n := by
  induction e generalizing n with
  | literal v =>
    rw [evaluates_literal_iff]
    exact ⟨Except.ok.inj, congrArg Except.ok⟩
  | binary op left right ihl ihr =>
    simp only [value_binary_eq_ok_iff, evaluates_binary_iff, ihl, ihr, BinOp.checked_eq_ok_iff]

/-- The error of a node whose operands have values. -/
def ownError? : Expr → Option EvalError
  | literal _ => none
  | binary op left right =>
    match left.value, right.value with
    | .ok a, .ok b =>
      match op.checked a b with
      | .error err => some err
      | .ok _ => none
    | _, _ => none

theorem ownError?_binary_eq_some_iff {op : BinOp} {left right : Expr} {err : EvalError} :
    (binary op left right).ownError? = some err ↔
      ∃ a b, left.value = .ok a ∧ right.value = .ok b ∧ op.checked a b = .error err := by
  rw [ownError?]
  cases left.value with
  | error e => simp
  | ok a =>
    cases right.value with
    | error e => simp
    | ok b => cases hchecked : op.checked a b <;> simp [hchecked]

theorem fails_binary_iff {op : BinOp} {left right : Expr} {err : EvalError} :
    (binary op left right).Fails err ↔
      ∃ a b, left.Evaluates a ∧ right.Evaluates b ∧ ((op = .div ∧ b = 0) ∧ err = .divisionByZero ∨
        ∃ n, op.exactResult? a b = some n ∧ ¬ FitsWord n ∧ err = .overflow op) := by
  constructor
  · intro h
    cases h with
    | divisionByZero hleft hright =>
      exact ⟨_, 0, hleft, hright, .inl ⟨⟨rfl, rfl⟩, rfl⟩⟩
    | overflow hleft hright hexact hrange =>
      exact ⟨_, _, hleft, hright, .inr ⟨_, hexact, hrange, rfl⟩⟩
  · rintro ⟨a, b, hleft, hright, ⟨⟨rfl, rfl⟩, rfl⟩ | ⟨n, hexact, hrange, rfl⟩⟩
    · exact .divisionByZero hleft hright
    · exact .overflow hleft hright hexact hrange

theorem ownError?_eq_some_iff {e : Expr} {err : EvalError} :
    e.ownError? = some err ↔ e.Fails err := by
  cases e with
  | literal v =>
    constructor
    · intro h
      cases h
    · intro h
      cases h
  | binary op left right =>
    simp only [ownError?_binary_eq_some_iff, fails_binary_iff, value_eq_ok_iff,
      BinOp.checked_eq_error_iff]

/-- Evaluation stops at the first node that has an error of its own. -/
theorem findSome?_subtrees (e : Expr) :
    e.subtrees.findSome? ownError? =
      match e.value with
      | .error err => some err
      | .ok _ => none := by
  induction e with
  | literal v => rfl
  | binary op left right ihl ihr =>
    rw [subtrees, List.findSome?_append, List.findSome?_append, ihl, ihr, List.findSome?_singleton,
      ownError?, value_binary]
    cases left.value with
    | error e => rfl
    | ok a =>
      cases right.value with
      | error e => rfl
      | ok b => rfl

theorem value_eq_error_iff {e : Expr} {err : EvalError} :
    e.value = .error err ↔
      ∃ before node after, e.subtrees = before ++ node :: after ∧ node.Fails err ∧
        ∀ earlier ∈ before, ∀ err', ¬ earlier.Fails err' := by
  have hfirst : e.value = .error err ↔ e.subtrees.findSome? ownError? = some err := by
    rw [findSome?_subtrees]
    cases e.value <;> simp
  simp only [hfirst, List.findSome?_eq_some_iff, ← ownError?_eq_some_iff,
    Option.eq_none_iff_forall_ne_some, ne_eq]

theorem eval_eq_ok_iff {e : Expr} {v : Int64} : e.eval = .ok v ↔ e.value = .ok v.toInt := by
  rw [value]
  cases e.eval with
  | error err => simp [Except.map]
  | ok w => simp [Except.map, Int64.toInt_inj]

theorem eval_eq_error_iff {e : Expr} {err : EvalError} :
    e.eval = .error err ↔ e.value = .error err := by
  rw [value]
  cases e.eval with
  | error err => simp [Except.map]
  | ok w => simp [Except.map]

/-- Evaluation is exact. It has a value exactly when every subtree has an exact value from `-2 ^ 63`
to `2 ^ 63 - 1`, and then gives the exact value of the tree. Otherwise it gives the error of the
first node, in the order of evaluation, whose operands have values and which has none: a division by
an exact zero, or the overflow of its operation. A quotient overflows only as `-2 ^ 63 / -1`. -/
theorem eval_exact (e : Expr) :
    (∀ v, e.eval = .ok v ↔
      (∀ t ∈ e.subtrees, ∃ n, t.exactValue? = some n ∧
        -0x8000000000000000 ≤ n ∧ n ≤ 0x7fffffffffffffff) ∧ e.exactValue? = some v.toInt) ∧
    (∀ err, e.eval = .error err ↔
      ∃ before node after, e.subtrees = before ++ node :: after ∧ node.Fails err ∧
        ∀ earlier ∈ before, ∀ err', ¬ earlier.Fails err') ∧
    ∀ left right, (binary .div left right).Fails (.overflow .div) ↔
      left.Evaluates (-0x8000000000000000) ∧ right.Evaluates (-1) := by
  refine ⟨fun v => ?_, fun err => ?_, fun left right => ?_⟩
  · rw [eval_eq_ok_iff, value_eq_ok_iff]
    rfl
  · rw [eval_eq_error_iff, value_eq_error_iff]
  · constructor
    · intro h
      cases h with
      | overflow hleft hright hexact hrange =>
        obtain ⟨rfl, rfl⟩ := BinOp.exactResult?_div_overflow hleft.fits hexact hrange
        exact ⟨hleft, hright⟩
    · rintro ⟨hleft, hright⟩
      exact .overflow hleft hright rfl (by decide)

end Expr

end ArithCompiler
