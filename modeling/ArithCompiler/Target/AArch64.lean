import ArithCompiler.Target.Basic

/-! # AArch64 on Darwin

Small constants take one `mov`. Any other constant is built from its 16-bit quarters: `movz` writes
the lowest one and clears the rest, and one `movk` writes each higher quarter that is not zero.
-/

namespace ArithCompiler.AArch64

/-- The quarters of a register above the lowest one. -/
inductive Quarter where
  | second
  | third
  | fourth
  deriving DecidableEq, Repr, Inhabited

/-- The bit at which a quarter starts. -/
def Quarter.shift : Quarter → Nat
  | second => 16
  | third => 32
  | fourth => 48

inductive Instr where
  | mov (dst : String) (value : UInt16)
  | movz (dst : String) (value : UInt16)
  | movk (dst : String) (value : UInt16) (quarter : Quarter)
  | arith (op : BinOp) (dst left right : String)
  | svc
  deriving DecidableEq, Repr, Inhabited

def opcode : BinOp → String
  | .add => "add"
  | .sub => "sub"
  | .mul => "mul"
  | .div => "sdiv"

def Instr.text : Instr → String
  | mov dst value => Layout.instruction "mov" (dst ++ ", #" ++ value.toNat.repr)
  | movz dst value => Layout.instruction "movz" (dst ++ ", #" ++ value.toNat.repr)
  | movk dst value quarter =>
    Layout.instruction "movk"
      (dst ++ ", #" ++ value.toNat.repr ++ ", lsl #" ++ quarter.shift.repr)
  | arith op dst left right =>
    Layout.instruction (opcode op) (dst ++ ", " ++ left ++ ", " ++ right)
  | svc => Layout.instruction "svc" "#0x80"

/-- The sixteen bits of a word that start at the given bit. -/
def bitsAt (value : Int64) (shift : Nat) : UInt16 :=
  (value.toUInt64 >>> shift.toUInt64).toUInt16

def load (dst : String) (value : Int64) : List Instr :=
  if 0 ≤ value ∧ value ≤ 0xffff then [.mov dst (bitsAt value 0)]
  else
    .movz dst (bitsAt value 0) ::
      [Quarter.second, .third, .fourth].filterMap fun quarter =>
        let bits := bitsAt value quarter.shift
        if bits = 0 then none else some (.movk dst bits quarter)

def arith (op : BinOp) (left right : String) : List Instr := [.arith op left left right]

/-- End the program with status zero. -/
def exit : List Instr := [.mov "x0" 0, .mov "x16" 1, .svc]

def target : Target where
  registers := ["x8", "x9", "x10", "x11"]
  preamble := [".global _start", ".align 4", "_start:"]
  postamble := exit.map Instr.text
  load dst value := (load dst value).map Instr.text
  arith op := some fun left right => (arith op left right).map Instr.text

end ArithCompiler.AArch64
