import ArithCompiler.Target.AArch64
import ArithCompiler.Target.X8664

/-! # Instruction sets with a code generator -/

namespace ArithCompiler

inductive Arch where
  | aarch64
  | x8664
  deriving DecidableEq, Repr, Inhabited

def Arch.target : Arch → Target
  | aarch64 => AArch64.target
  | x8664 => X8664.target

end ArithCompiler
