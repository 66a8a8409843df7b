import ArithCompiler.Proofs.Expr.Chain
import ArithCompiler.Proofs.Expr.Checked

/-! # Evaluation in one pass

The value of a chain can be found without a tree, in one pass from left to right that keeps the sum
of the finished products and the product that is being read; `+` and `-` are the signs of products.
The pass meets its operations in the same order as the evaluation of the tree, so both also fail at
the same operation.
-/

namespace ArithCompiler

/-- The token that an operator is written as. -/
def BinOp.token : BinOp → Token
  | add => .plus
  | sub => .minus
  | mul => .star
  | div => .slash

/-- The state of a pass: the sum so far with the sign of the product that follows it, and that
product as far as it was read. -/
structure Tally where
  sum : Option (Int × BinOp)
  term : Int
  deriving DecidableEq, Repr

namespace Tally

/-- The sum, with the last product. -/
def total (tally : Tally) : Except EvalError Int :=
  match tally.sum with
  | none => pure tally.term
  | some (sum, sign) => sign.checked sum tally.term

/-- One operator and the literal after it: either the product goes on, or it is finished and the
literal begins the next one. -/
def step (tally : Tally) (next : BinOp × Int64) : Except EvalError Tally := do
  if next.1.isFactor then
    let term ← next.1.checked tally.term next.2.toInt
    return { tally with term }
  else
    let sum ← tally.total
    return ⟨some (sum, next.1), next.2.toInt⟩

/-- The value of a chain, found in one pass. -/
def ofChain (first : Int64) (ops : List (BinOp × Int64)) : Except EvalError Int := do
  let tally ← ops.foldlM step ⟨none, first.toInt⟩
  tally.total

end Tally

namespace Expr

/-- The value of a tree as an integer. -/
def value (e : Expr) : Except EvalError Int := e.eval.map Int64.toInt

theorem value_literal (v : Int64) : (literal v).value = pure v.toInt := rfl

theorem value_binary (op : BinOp) (left right : Expr) :
    (binary op left right).value =
      left.value >>= fun a => right.value >>= fun b => op.checked a b := by
  rw [value, value, value, eval]
  cases left.eval with
  | error e => rfl
  | ok a =>
    cases right.eval with
    | error e => rfl
    | ok b => exact op.map_toInt_apply a b

/-- The sum of the finished products, if there is one, with one more product. -/
def addTerm : Option (Expr × BinOp) → Expr → Expr
  | none, term => term
  | some (sum, sign), term => binary sign sum term

end Expr

namespace Tally

/-- The state of a pass that has read the trees of a sum and of a product. -/
def ofTrees : Option (Expr × BinOp) → Expr → Except EvalError Tally
  | none, term => do return ⟨none, ← term.value⟩
  | some (sum, sign), term => do return ⟨some (← sum.value, sign), ← term.value⟩

/-- The end of the pass. -/
theorem ofTrees_total (sum : Option (Expr × BinOp)) (term : Expr) :
    ofTrees sum term >>= total = (Expr.addTerm sum term).value := by
  match sum with
  | none => simp [ofTrees, Expr.addTerm, total]
  | some (sum, sign) => simp [ofTrees, Expr.addTerm, total, Expr.value_binary]

/-- A factor goes to the product. -/
theorem ofTrees_factor (sum : Option (Expr × BinOp)) (term : Expr) {next : BinOp × Int64}
    (hf : next.1.isFactor = true) :
    ofTrees sum (.binary next.1 term (.literal next.2)) =
      ofTrees sum term >>= fun tally => tally.step next := by
  match sum with
  | none => simp [ofTrees, step, hf, Expr.value_binary, Expr.value_literal]
  | some (sum, sign) => simp [ofTrees, step, hf, Expr.value_binary, Expr.value_literal]

/-- A sign finishes the product, and the literal after it begins the next one. -/
theorem ofTrees_summand (sum : Option (Expr × BinOp)) (term : Expr) {next : BinOp × Int64}
    (hf : next.1.isFactor = false) :
    ofTrees (some (Expr.addTerm sum term, next.1)) (.literal next.2) =
      ofTrees sum term >>= fun tally => tally.step next := by
  simp [ofTrees, ← ofTrees_total, step, hf, Expr.value_literal]

/-- The value of what was read as trees, followed by a chain: the pass goes on from the trees. -/
theorem value_join_products (sum : Option (Expr × BinOp)) (term : Expr)
    (ops : List (BinOp × Int64)) :
    ((Expr.addTerm sum (Expr.products term ops).1).join (Expr.products term ops).2).value =
      ofTrees sum term >>= fun tally => ops.foldlM step tally >>= total := by
  induction ops generalizing sum term with
  | nil => simp [Expr.products, Expr.join, ofTrees_total]
  | cons next ops ih =>
    cases hf : next.1.isFactor with
    | true =>
      have hnext := ih sum (.binary next.1 term (.literal next.2))
      rw [ofTrees_factor sum term hf] at hnext
      simpa [Expr.products, hf] using hnext
    | false =>
      have hnext := ih (some (Expr.addTerm sum term, next.1)) (.literal next.2)
      rw [ofTrees_summand sum term hf] at hnext
      simpa [Expr.products, hf, Expr.join, Expr.addTerm] using hnext

theorem value_ofChain (first : Int64) (ops : List (BinOp × Int64)) :
    (Expr.ofChain first ops).value = ofChain first ops := by
  have hpass := value_join_products none (.literal first) ops
  simp only [ofTrees, Expr.value_literal, pure_bind] at hpass
  exact hpass

end Tally

section Source

variable {σ : Type} [TokenSource σ]

/-- The tokens that a chain is written as, with the end after them. -/
def chainTokens (first : Int64) (ops : List (BinOp × Int64)) : List Token :=
  .literal first :: ops.flatMap (fun next => [next.1.token, .literal next.2]) ++ [.eof]

/-- Scanning delivers these tokens one after the other and leaves the last source. -/
inductive Delivers : σ → List Token → σ → Prop
  | nil {tokens : σ} : Delivers tokens [] tokens
  | cons {tokens mid rest : σ} {token : Located Token} {later : List Token}
      (head : TokenSource.scan tokens = (.ok token, mid)) (tail : Delivers mid later rest) :
      Delivers tokens (token.value :: later) rest

theorem BinOp.eq_token {op : BinOp} {token : Token} (h : ofToken? token = some op) :
    token = op.token := by
  cases token <;> cases h <;> rfl

/-- The token ahead was scanned already, the ones behind it follow. -/
theorem Follows.delivers {ahead last : Located Token} {tokens rest : σ}
    {ops : List (BinOp × Int64)} (h : Follows 0 ahead tokens ops last rest) :
    ∃ later, ops.flatMap (fun next => [next.1.token, .literal next.2]) ++ [.eof] =
      ahead.value :: later ∧ Delivers tokens later rest := by
  induction h with
  | stop hstops => exact ⟨[], by simp [hstops.eq_eof], .nil⟩
  | step hop _ hvalue hahead _ ih =>
    obtain ⟨later, hlater, hdelivers⟩ := ih
    refine ⟨_, ?_, .cons hvalue (.cons hahead hdelivers)⟩
    rw [List.flatMap_cons, List.append_assoc, hlater, BinOp.eq_token hop]
    rfl

theorem Begins.delivers {tokens rest : σ} {first : Int64} {ops : List (BinOp × Int64)}
    {last : Located Token} (h : Begins 0 tokens first ops last rest) :
    Delivers tokens (chainTokens first ops) rest := by
  obtain ⟨span, mid, ahead, mid', hvalue, hahead, hfollows⟩ := h
  obtain ⟨later, hlater, hdelivers⟩ := hfollows.delivers
  rw [chainTokens, List.cons_append, hlater]
  exact .cons hvalue (.cons hahead hdelivers)

/-- An accepted source is the tokens of a chain, and its tree is evaluated as the chain is in one
pass, with the same value or the same error. -/
theorem eval_eq_onePass {tokens rest : σ} {t : Expr} (h : parse tokens = (.ok t, rest)) :
    ∃ first ops, Delivers tokens (chainTokens first ops) rest ∧
      t.eval.map Int64.toInt = Tally.ofChain first ops := by
  obtain ⟨first, ops, last, hbegins, rfl, -⟩ := parse_eq_ok_iff.1 h
  exact ⟨first, ops, hbegins.delivers, Tally.value_ofChain first ops⟩

end Source

/-- `1 + 2 * 3 - 8 / 4` is 5. In `9223372036854775807 + 1 - 2 / 0` the sum overflows before the
division by zero is reached. -/
theorem eval_eq_onePass_runs :
    let token (value : Token) : Located Token := ⟨value, .single {}⟩
    let source (first : Int64) (later : List Token) : Replay :=
      ⟨token (.literal first), later.map token⟩
    let value := source 1 [.plus, .literal 2, .star, .literal 3, .minus, .literal 8, .slash,
      .literal 4, .eof]
    let failure := source Int64.maxValue [.plus, .literal 1, .minus, .literal 2, .slash,
      .literal 0, .eof]
    (∃ t rest first ops, parse value = (.ok t, rest) ∧
      Delivers value (chainTokens first ops) rest ∧ t.eval.map Int64.toInt = .ok 5 ∧
      Tally.ofChain first ops = .ok 5) ∧
    ∃ t rest first ops, parse failure = (.ok t, rest) ∧
      Delivers failure (chainTokens first ops) rest ∧ t.eval = .error (.overflow .add) ∧
      Tally.ofChain first ops = .error (.overflow .add) := by
  intro token source value failure
  have hvalue : parse value = (.ok (.binary .sub (.binary .add (.literal 1)
      (.binary .mul (.literal 2) (.literal 3))) (.binary .div (.literal 8) (.literal 4))),
      ⟨token .eof, []⟩) := by cbv
  have hfailure : parse failure = (.ok (.binary .sub
      (.binary .add (.literal Int64.maxValue) (.literal 1))
      (.binary .div (.literal 2) (.literal 0))), ⟨token .eof, []⟩) := by cbv
  obtain ⟨first, ops, hdelivers, heval⟩ := eval_eq_onePass hvalue
  obtain ⟨first', ops', hdelivers', heval'⟩ := eval_eq_onePass hfailure
  exact ⟨⟨_, _, first, ops, hvalue, hdelivers, rfl, heval.symm⟩,
    _, _, first', ops', hfailure, hdelivers', rfl, heval'.symm⟩

end ArithCompiler
