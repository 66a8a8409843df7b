import ArithCompiler.Expr.Basic
import ArithCompiler.Token.Scan

/-! # Parsing by precedence climbing

An expression is a sequence of literals with operators between them. Operators of equal precedence
group to the left, and a tree may nest at most `maxDepth` operations. The parser takes its tokens
from any source, one at a time, and looks exactly one token ahead; that token is part of its answer.
-/

namespace ArithCompiler

/-- Where tokens come from. -/
class TokenSource (σ : Type) where
  scan : σ → Except (Located LexError) (Located Token) × σ

instance : TokenSource Input where
  scan := Input.scan

/-- A list of tokens, of which the last one is repeated without end. -/
structure Replay where
  current : Located Token
  later : List (Located Token)
  deriving DecidableEq, Repr, Inhabited

instance : TokenSource Replay where
  scan replay :=
    match replay.later with
    | [] => (.ok replay.current, replay)
    | token :: later => (.ok replay.current, ⟨token, later⟩)

/-- The most operations that may be nested. -/
def maxDepth : Nat := 1000

inductive ParseError where
  | expectedLiteral (found : Token)
  | expectedOperator (found : Token)
  | trailingInput (found : Token)
  | tooDeep
  | lexical (cause : LexError)
  deriving DecidableEq, Repr, Inhabited

def ParseError.message : ParseError → String
  | expectedLiteral found => "Syntax error, expected an integer literal but found " ++ found.text
  | expectedOperator found =>
    "Syntax error, expected an arithmetic operator but found " ++ found.text
  | trailingInput found => "Syntax error, unexpected " ++ found.text ++ " after expression"
  | tooDeep =>
    "Expression is too deep, at most " ++ maxDepth.repr ++ " nested operations are supported"
  | lexical cause => cause.message

/-- A parsed expression with its height and the token that follows it. -/
structure Parsed where
  expr : Expr
  depth : Nat
  lookahead : Located Token
  deriving DecidableEq, Repr, Inhabited

namespace Parser

variable {σ : Type} [TokenSource σ]

def next (tokens : σ) : Except (Located ParseError) (Located Token) × σ :=
  match TokenSource.scan tokens with
  | (.ok token, tokens) => (.ok token, tokens)
  | (.error e, tokens) => (.error (e.map .lexical), tokens)

/-- One literal. -/
def operand (tokens : σ) : Except (Located ParseError) Int64 × σ :=
  match next tokens with
  | (.error e, tokens) => (.error e, tokens)
  | (.ok ⟨.literal value, _⟩, tokens) => (.ok value, tokens)
  | (.ok ⟨found, span⟩, tokens) => (.error ⟨.expectedLiteral found, span⟩, tokens)

mutual

/-- A literal followed by the operators that bind tighter than `limit`, with their operands. -/
def climb (limit : Nat) (tokens : σ) : Except (Located ParseError) Parsed × σ :=
  match operand tokens with
  | (.error e, tokens) => (.error e, tokens)
  | (.ok value, tokens) =>
    match next tokens with
    | (.error e, tokens) => (.error e, tokens)
    | (.ok lookahead, tokens) => extend limit ⟨.literal value, 0, lookahead⟩ tokens
termination_by (BinOp.maxPrecedence - limit, maxDepth + 1)
decreasing_by exact .right _ (Nat.lt_succ_self _)

/-- Extend a left operand by the operator that follows it, as long as that one binds tighter than
`limit`. Its right operand takes everything that binds tighter than the operator itself. -/
def extend (limit : Nat) (left : Parsed) (tokens : σ) : Except (Located ParseError) Parsed × σ :=
  if left.lookahead.value = .eof then (.ok left, tokens)
  else
    match BinOp.ofToken? left.lookahead.value with
    | none => (.error (left.lookahead.map .expectedOperator), tokens)
    | some op =>
      if op.precedence ≤ limit then (.ok left, tokens)
      else
        match climb op.precedence tokens with
        | (.error e, tokens) => (.error e, tokens)
        | (.ok right, tokens) =>
          let depth := 1 + max left.depth right.depth
          if depth > maxDepth then (.error (left.lookahead.map fun _ => .tooDeep), tokens)
          else extend limit ⟨.binary op left.expr right.expr, depth, right.lookahead⟩ tokens
termination_by (BinOp.maxPrecedence - limit, maxDepth - left.depth)
decreasing_by
  · have := op.precedence_le
    exact .left _ _ (by omega)
  · exact .right _ (by omega)

end

/-- An expression of operators that bind tighter than `limit`, and the token that follows it. -/
def expression (limit : Nat) (tokens : σ) :
    Except (Located ParseError) (Expr × Located Token) × σ :=
  match climb limit tokens with
  | (.ok parsed, tokens) => (.ok (parsed.expr, parsed.lookahead), tokens)
  | (.error e, tokens) => (.error e, tokens)

end Parser

/-- A whole text: one expression up to the end. -/
def parse {σ : Type} [TokenSource σ] (tokens : σ) : Except (Located ParseError) Expr × σ :=
  match Parser.expression 0 tokens with
  | (.error e, tokens) => (.error e, tokens)
  | (.ok (expr, lookahead), tokens) =>
    if lookahead.value = .eof then (.ok expr, tokens)
    else (.error (lookahead.map .trailingInput), tokens)

end ArithCompiler
