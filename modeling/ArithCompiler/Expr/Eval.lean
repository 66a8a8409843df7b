import ArithCompiler.Expr.Basic

/-! # Evaluation

Operands are evaluated from left to right. A result that does not fit in 64 bits is an error of the
operation that produced it; division truncates toward zero.
-/

namespace ArithCompiler

inductive EvalError where
  | divisionByZero
  | overflow (op : BinOp)
  deriving DecidableEq, Repr, Inhabited

def EvalError.message : EvalError → String
  | divisionByZero => "Division by zero"
  | overflow op => "Arithmetic overflow in `" ++ op.symbol ++ "`"

/-- The word of an integer that fits in 64 bits. -/
def fit? (n : Int) : Option Int64 :=
  if -0x8000000000000000 ≤ n ∧ n < 0x8000000000000000 then some (Int64.ofInt n) else none

/-- The operation on unbounded integers. -/
def BinOp.exact : BinOp → Int → Int → Int
  | add, a, b => a + b
  | sub, a, b => a - b
  | mul, a, b => a * b
  | div, a, b => a.tdiv b

def BinOp.apply (op : BinOp) (a b : Int64) : Except EvalError Int64 :=
  if op = .div ∧ b = 0 then .error .divisionByZero
  else
    match fit? (op.exact a.toInt b.toInt) with
    | some value => .ok value
    | none => .error (.overflow op)

def Expr.eval : Expr → Except EvalError Int64
  | literal value => .ok value
  | binary op left right =>
    match left.eval with
    | .error e => .error e
    | .ok a =>
      match right.eval with
      | .error e => .error e
      | .ok b => op.apply a b

end ArithCompiler
