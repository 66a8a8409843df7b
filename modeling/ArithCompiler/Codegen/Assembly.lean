import ArithCompiler.Codegen.Pool
import ArithCompiler.Target.Basic

/-! # Assembly under construction

The lines emitted so far, and the registers in use. Emitting an instruction can fail; the state it
leaves is then part of the answer, because lines that were already written stay written.
-/

namespace ArithCompiler

inductive CodegenError where
  | register (cause : RegisterError)
  | unknownOperator (op : BinOp)
  deriving DecidableEq, Repr, Inhabited

def CodegenError.message : CodegenError → String
  | register cause => cause.message
  | unknownOperator op => "Unknown AST operator " ++ op.name

structure Assembly where
  pool : Pool
  listing : Array String := #[]
  deriving DecidableEq, Repr

namespace Assembly

/-- No lines yet, and the given registers in place of the target's own. -/
def start (t : Target) (registers : Option (List String)) : Assembly where
  pool := .ofNames (registers.getD t.registers)

def append (a : Assembly) (lines : List String) : Assembly :=
  { a with listing := a.listing ++ lines }

/-- Forget all lines and give all registers back. -/
def reset (a : Assembly) : Assembly := { pool := a.pool.releaseAll }

/-- Put a constant into a new register. -/
def load (t : Target) (value : Int64) (a : Assembly) : Except CodegenError Register × Assembly :=
  match a.pool.allocate with
  | .error e => (.error (.register e), a)
  | .ok (r, pool) => (.ok r, { a with pool }.append (t.load r.name value))

/-- Combine two registers into the left one and give the right one back. -/
def arith (t : Target) (op : BinOp) (left right : Register) (a : Assembly) :
    Except CodegenError Register × Assembly :=
  match t.arith op with
  | none => (.error (.unknownOperator op), a)
  | some lines =>
    let a := a.append (lines left.name right.name)
    match a.pool.release right with
    | .error e => (.error (.register e), a)
    | .ok pool => (.ok left, { a with pool })

end Assembly

end ArithCompiler
