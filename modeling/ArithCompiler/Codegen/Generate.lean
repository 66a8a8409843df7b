import ArithCompiler.Codegen.Assembly
import ArithCompiler.Target.Arch

/-! # Code generation

Trees are compiled in post-order: each leaf takes a register, and each operation leaves its result
in the register of its left operand. The number of registers in use is therefore the number of left
operands still waiting, not the size of the tree.
-/

namespace ArithCompiler

namespace Assembly

/-- The code of a tree: the left operand, the right operand, then the operation on both. -/
def expression (t : Target) : Expr → Assembly → Except CodegenError Register × Assembly
  | .literal value, a => a.load t value
  | .binary op left right, a =>
    match expression t left a with
    | (.error e, a) => (.error e, a)
    | (.ok l, a) =>
      match expression t right a with
      | (.error e, a) => (.error e, a)
      | (.ok r, a) => a.arith t op l r

/-- A whole program for a tree, from a clean start. The register that holds the result stays
allocated; a failure leaves no lines and no registers in use. -/
def generate (t : Target) (e : Expr) (a : Assembly) : Except CodegenError Register × Assembly :=
  match expression t e (a.reset.append t.preamble) with
  | (.ok r, a) => (.ok r, a.append t.postamble)
  | (.error e, a) => (.error e, a.reset)

end Assembly

/-- The lines of the program for a tree. A list of registers replaces those of the target. -/
def Target.emit (t : Target) (e : Expr) (registers : Option (List String)) :
    Except CodegenError (List String) :=
  match (Assembly.start t registers).generate t e with
  | (.ok _, a) => .ok a.listing.toList
  | (.error e, _) => .error e

/-- The lines of the program for a tree on one of the known instruction sets. -/
def emit (e : Expr) (arch : Arch) (registers : Option (List String)) :
    Except CodegenError (List String) :=
  arch.target.emit e registers

end ArithCompiler
