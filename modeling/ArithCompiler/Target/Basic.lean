import ArithCompiler.Expr.Basic

/-! # Targets

What the code generator asks of an instruction set, and the layout of the lines it writes.
-/

namespace ArithCompiler

/-- What an instruction set gives the code generator. Registers are known by their names; an
operation that is missing from `arith` cannot be compiled. -/
structure Target where
  registers : List String
  preamble : List String
  postamble : List String
  load : String → Int64 → List String
  arith : BinOp → Option (String → String → List String) := fun _ => none

namespace Layout

/-- A line with operands: they start eight columns after the opcode. -/
def instruction (opcode operands : String) : String :=
  "\t" ++ String.ofList (opcode.toList.rightpad 8 ' ') ++ operands

/-- A line with an opcode alone. -/
def lone (opcode : String) : String := "\t" ++ opcode

/-- Lines as text, each with its line end. -/
def text (lines : List String) : String := String.join (lines.map (· ++ "\n"))

end Layout

end ArithCompiler
