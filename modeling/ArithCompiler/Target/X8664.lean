import ArithCompiler.Target.Basic

/-! # x86-64 on Linux

Two-operand instructions write their second operand. The dividend of a division is the pair of
`rdx` and `rax`, so a division goes through both of them.
-/

namespace ArithCompiler.X8664

inductive Instr where
  /-- A constant that fits in 32 bits, with its sign extended. -/
  | movConst (value : Int32) (dst : String)
  | movWide (value : Int64) (dst : String)
  | mov (src dst : String)
  | add (src dst : String)
  | sub (src dst : String)
  | mul (src dst : String)
  | xor (src dst : String)
  /-- Extend the sign of `rax` into `rdx`. -/
  | cqto
  | div (divisor : String)
  | syscall
  deriving DecidableEq, Repr, Inhabited

def pair (src dst : String) : String := "%" ++ src ++ ", %" ++ dst

def Instr.text : Instr → String
  | movConst value dst => Layout.instruction "movq" ("$" ++ value.toInt.repr ++ ", %" ++ dst)
  | movWide value dst => Layout.instruction "movabsq" ("$" ++ value.toInt.repr ++ ", %" ++ dst)
  | mov src dst => Layout.instruction "movq" (pair src dst)
  | add src dst => Layout.instruction "addq" (pair src dst)
  | sub src dst => Layout.instruction "subq" (pair src dst)
  | mul src dst => Layout.instruction "imulq" (pair src dst)
  | xor src dst => Layout.instruction "xorq" (pair src dst)
  | cqto => Layout.lone "cqto"
  | div divisor => Layout.instruction "idivq" ("%" ++ divisor)
  | syscall => Layout.lone "syscall"

def load (dst : String) (value : Int64) : List Instr :=
  if -0x80000000 ≤ value.toInt ∧ value.toInt < 0x80000000 then [.movConst value.toInt32 dst]
  else [.movWide value dst]

def arith (op : BinOp) (left right : String) : List Instr :=
  match op with
  | .add => [.add right left]
  | .sub => [.sub right left]
  | .mul => [.mul right left]
  | .div => [.mov left "rax", .cqto, .div right, .mov "rax" left]

/-- End the program with status zero. -/
def exit : List Instr := [.movConst 60 "rax", .xor "rdi" "rdi", .syscall]

def target : Target where
  registers := ["r8", "r9", "r10", "r11"]
  preamble := [".globl _start", ".text", "_start:"]
  postamble := exit.map Instr.text
  load dst value := (load dst value).map Instr.text
  arith op := some fun left right => (arith op left right).map Instr.text

end ArithCompiler.X8664
