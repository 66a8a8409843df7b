import ArithCompiler.Source.Input

/-! # Tokens

Operators stand for themselves, literals carry their value, and the end of the text is a token of
its own.
-/

namespace ArithCompiler

inductive Token where
  | plus
  | minus
  | star
  | slash
  | literal (value : Int64)
  | eof
  deriving DecidableEq, Repr, Inhabited

namespace Token

def text : Token → String
  | plus => "`+`"
  | minus => "`-`"
  | star => "`*`"
  | slash => "`/`"
  | literal value => "literal `" ++ value.toInt.repr ++ "`"
  | eof => "end of input"

/-- The operator written as one character. -/
def ofSign? (c : Char) : Option Token :=
  if c = '+' then some plus
  else if c = '-' then some minus
  else if c = '*' then some star
  else if c = '/' then some slash
  else none

end Token

/-- The largest value a literal may have. -/
def maxLiteral : Nat := 0x7fffffffffffffff

inductive LexError where
  | input (cause : ReadError)
  | unrecognized (c : Char)
  | overflow
  deriving DecidableEq, Repr, Inhabited

def LexError.message : LexError → String
  | input _ => "I/O error"
  | unrecognized c => "Unrecognized character \"" ++ c.toString ++ "\""
  | overflow => "Integer literal overflow, valid range is [0, " ++ maxLiteral.repr ++ "]"

end ArithCompiler
