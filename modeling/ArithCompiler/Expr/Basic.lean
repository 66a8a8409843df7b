import ArithCompiler.Token.Basic

/-! # Arithmetic expressions

Trees of 64-bit literals and the four operations. Every operation is written with its parentheses,
so the written form shows the shape of the tree.
-/

namespace ArithCompiler

inductive BinOp where
  | add
  | sub
  | mul
  | div
  deriving DecidableEq, Repr, Inhabited

namespace BinOp

def symbol : BinOp → String
  | add => "+"
  | sub => "-"
  | mul => "*"
  | div => "/"

/-- The operation's name in messages. -/
def name : BinOp → String
  | add => "Add"
  | sub => "Sub"
  | mul => "Mul"
  | div => "Div"

/-- Operators of higher precedence bind tighter. -/
def precedence : BinOp → Nat
  | add | sub => 10
  | mul | div => 20

def ofToken? : Token → Option BinOp
  | .plus => some add
  | .minus => some sub
  | .star => some mul
  | .slash => some div
  | .literal _ | .eof => none

def maxPrecedence : Nat := 20

theorem precedence_le (op : BinOp) : op.precedence ≤ maxPrecedence := by cases op <;> decide

end BinOp

inductive Expr where
  | literal (value : Int64)
  | binary (op : BinOp) (left right : Expr)
  deriving DecidableEq, Repr, Inhabited

namespace Expr

def isLeaf : Expr → Bool
  | literal _ => true
  | binary .. => false

/-- The number of operations on the longest way from the root to a leaf. -/
def height : Expr → Nat
  | literal _ => 0
  | binary _ left right => 1 + max left.height right.height

def text : Expr → String
  | literal value => value.toInt.repr
  | binary op left right => "(" ++ left.text ++ " " ++ op.symbol ++ " " ++ right.text ++ ")"

end Expr

end ArithCompiler
