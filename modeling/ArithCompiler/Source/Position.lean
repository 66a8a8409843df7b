/-! # Positions in a text

Lines and columns are counted from one. A tab moves to the next column of the form `4 * k + 1`, a
line feed to the first column of the next line, and every other character one column on.
-/

namespace ArithCompiler

structure Position where
  line : Nat := 1
  column : Nat := 1
  deriving DecidableEq, Repr, Inhabited

namespace Position

/-- Columns between two tab stops. -/
def tabWidth : Nat := 4

def advance (p : Position) : Position := { p with column := p.column + 1 }

/-- One column to the left, stopping at the first. -/
def back (p : Position) : Position := { p with column := max (p.column - 1) 1 }

def newline (p : Position) : Position := { line := p.line + 1, column := 1 }

def tab (p : Position) : Position :=
  { p with column := 1 + ((p.column - 1) / tabWidth + 1) * tabWidth }

/-- The position of the character that follows `c`, when `c` stands at `p`. -/
def after (p : Position) (c : Char) : Position :=
  if c = '\n' then p.newline else if c = '\t' then p.tab else p.advance

def text (p : Position) : String := p.line.repr ++ ":" ++ p.column.repr

@[simp] theorem advance_line (p : Position) : p.advance.line = p.line := rfl

@[simp] theorem back_line (p : Position) : p.back.line = p.line := rfl

@[simp] theorem newline_column (p : Position) : p.newline.column = 1 := rfl

end Position

end ArithCompiler
