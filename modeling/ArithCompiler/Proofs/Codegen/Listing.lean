import ArithCompiler.Proofs.Codegen.Stack

/-! # The text of a program

What the lines of a program are, written out for each instruction set: those around the code, those
of a constant and those of an operation. The generator writes exactly these lines, in post-order,
for every tree that the registers suffice for, and fails on every other one.
-/

namespace ArithCompiler

namespace Arch

/-- The registers of a program whose registers are not given. -/
def ownRegisters : Arch → List String
  | aarch64 => ["x8", "x9", "x10", "x11"]
  | x8664 => ["r8", "r9", "r10", "r11"]

/-- The lines before the code. -/
def opening : Arch → List String
  | aarch64 => [".global _start", ".align 4", "_start:"]
  | x8664 => [".globl _start", ".text", "_start:"]

/-- The lines after the code. -/
def closing : Arch → List String
  | aarch64 => ["\tmov     x0, #0", "\tmov     x16, #1", "\tsvc     #0x80"]
  | x8664 => ["\tmovq    $60, %rax", "\txorq    %rdi, %rdi", "\tsyscall"]

/-- Sixteen bits of a word in two's complement, from the given bit on. -/
def quarter (value : Int64) (shift : Nat) : Nat :=
  (value.toInt % 0x10000000000000000).toNat >>> shift % 0x10000

/-- The lines that put a constant into a register. -/
def constant : Arch → String → Int64 → List String
  | aarch64, dst, value =>
    if 0 ≤ value.toInt ∧ value.toInt ≤ 0xffff then
      ["\tmov     " ++ dst ++ ", #" ++ value.toInt.repr]
    else
      ("\tmovz    " ++ dst ++ ", #" ++ (quarter value 0).repr) ::
        ([16, 32, 48].filter fun shift => quarter value shift ≠ 0).map fun shift =>
          "\tmovk    " ++ dst ++ ", #" ++ (quarter value shift).repr ++ ", lsl #" ++ shift.repr
  | x8664, dst, value =>
    if -0x80000000 ≤ value.toInt ∧ value.toInt ≤ 0x7fffffff then
      ["\tmovq    $" ++ value.toInt.repr ++ ", %" ++ dst]
    else ["\tmovabsq $" ++ value.toInt.repr ++ ", %" ++ dst]

/-- The lines that combine two registers into the left one. -/
def operation : Arch → BinOp → String → String → List String
  | aarch64, .add, left, right => ["\tadd     " ++ left ++ ", " ++ left ++ ", " ++ right]
  | aarch64, .sub, left, right => ["\tsub     " ++ left ++ ", " ++ left ++ ", " ++ right]
  | aarch64, .mul, left, right => ["\tmul     " ++ left ++ ", " ++ left ++ ", " ++ right]
  | aarch64, .div, left, right => ["\tsdiv    " ++ left ++ ", " ++ left ++ ", " ++ right]
  | x8664, .add, left, right => ["\taddq    %" ++ right ++ ", %" ++ left]
  | x8664, .sub, left, right => ["\tsubq    %" ++ right ++ ", %" ++ left]
  | x8664, .mul, left, right => ["\timulq   %" ++ right ++ ", %" ++ left]
  | x8664, .div, left, right =>
    ["\tmovq    %" ++ left ++ ", %rax", "\tcqto", "\tidivq   %" ++ right,
      "\tmovq    %rax, %" ++ left]

/-- The lines of a tree that finds its registers from place `k` on. -/
def code (arch : Arch) (names : List String) (e : Expr) (k : Nat) : List String :=
  e.postorder arch.constant arch.operation names k

theorem toNat_toUInt64 (value : Int64) :
    value.toUInt64.toNat = (value.toInt % 0x10000000000000000).toNat := by
  have hbits : value.toBitVec = .ofInt 64 value.toInt := BitVec.ofInt_toInt.symm
  change value.toBitVec.toNat = _
  rw [hbits, BitVec.toNat_ofInt]
  rfl

theorem toNat_bitsAt (value : Int64) {shift : Nat} (h : shift < 64) :
    (AArch64.bitsAt value shift).toNat = quarter value shift := by
  have hshift : shift.toUInt64.toNat = shift :=
    UInt64.toNat_ofNat_of_lt (Nat.lt_trans h (by decide))
  rw [AArch64.bitsAt, UInt64.toNat_toUInt16, UInt64.toNat_shiftRight, hshift, Nat.mod_eq_of_lt h,
    toNat_toUInt64]
  rfl

/-- A small constant is its own lowest quarter. -/
theorem repr_quarter_of_small {value : Int64} (h : 0 ≤ value.toInt ∧ value.toInt ≤ 0xffff) :
    (quarter value 0).repr = value.toInt.repr := by
  have hquarter : value.toInt = (quarter value 0 : Nat) := by
    rw [quarter, Nat.shiftRight_zero]
    omega
  rw [hquarter]
  rfl

/-- One line for each quarter that is not zero. -/
theorem movk_lines (dst : String) (value : Int64) (quarters : List AArch64.Quarter) :
    (quarters.filterMap fun place =>
      let bits := AArch64.bitsAt value place.shift
      if bits = 0 then none else some (.movk dst bits place)).map AArch64.Instr.text =
    ((quarters.map AArch64.Quarter.shift).filter fun shift => quarter value shift ≠ 0).map
      fun shift =>
        "\tmovk    " ++ dst ++ ", #" ++ (quarter value shift).repr ++ ", lsl #" ++ shift.repr := by
  induction quarters with
  | nil => rfl
  | cons place quarters ih =>
    have hbits : (AArch64.bitsAt value place.shift).toNat = quarter value place.shift :=
      toNat_bitsAt value (by cases place <;> decide)
    by_cases hzero : AArch64.bitsAt value place.shift = 0
    · have hquarter : quarter value place.shift = 0 := by
        rw [← hbits, hzero]
        rfl
      simpa [hzero, hquarter] using ih
    · have hquarter : quarter value place.shift ≠ 0 := by
        rw [← hbits]
        exact fun h => hzero (UInt16.toNat_inj.1 h)
      have hline : (AArch64.Instr.movk dst (AArch64.bitsAt value place.shift) place).text =
          "\tmovk    " ++ dst ++ ", #" ++ (quarter value place.shift).repr ++ ", lsl #" ++
            place.shift.repr := by
        rw [AArch64.Instr.text, hbits]
        simp [← String.toList_inj, Layout.instruction]
      simpa [hzero, hquarter, hline] using ih

theorem load_aarch64 (dst : String) (value : Int64) :
    (AArch64.load dst value).map AArch64.Instr.text = aarch64.constant dst value := by
  have hlowest : (AArch64.bitsAt value 0).toNat = quarter value 0 :=
    toNat_bitsAt value (by decide)
  have hsmall : (0 ≤ value ∧ value ≤ 0xffff) ↔ 0 ≤ value.toInt ∧ value.toInt ≤ 0xffff := by
    rw [Int64.le_iff_toInt_le, Int64.le_iff_toInt_le]
    rfl
  rw [AArch64.load, constant]
  by_cases h : 0 ≤ value.toInt ∧ value.toInt ≤ 0xffff
  · rw [if_pos (hsmall.2 h), if_pos h, ← repr_quarter_of_small h, List.map_singleton,
      AArch64.Instr.text, hlowest]
    simp [← String.toList_inj, Layout.instruction]
  · rw [if_neg (mt hsmall.1 h), if_neg h, List.map_cons, movk_lines, AArch64.Instr.text, hlowest]
    simp [← String.toList_inj, Layout.instruction, AArch64.Quarter.shift]

theorem load_x8664 (dst : String) (value : Int64) :
    (X8664.load dst value).map X8664.Instr.text = x8664.constant dst value := by
  rw [X8664.load, constant]
  by_cases h : -0x80000000 ≤ value.toInt ∧ value.toInt ≤ 0x7fffffff
  · have hvalue : value.toInt32.toInt = value.toInt := by
      rw [Int64.toInt_toInt32]
      exact Int.bmod_eq_of_le (by omega) (by omega)
    rw [if_pos (by omega), if_pos h, List.map_singleton, X8664.Instr.text, hvalue]
    simp [← String.toList_inj, Layout.instruction]
  · rw [if_neg (by omega), if_neg h, List.map_singleton, X8664.Instr.text]
    simp [← String.toList_inj, Layout.instruction]

theorem load_eq (arch : Arch) : arch.target.load = arch.constant := by
  funext dst value
  cases arch with
  | aarch64 => exact load_aarch64 dst value
  | x8664 => exact load_x8664 dst value

theorem arithLines_eq (arch : Arch) : arch.target.arithLines = arch.operation := by
  funext op left right
  rw [← List.map_inj_right fun _ _ => String.toList_inj.1]
  cases arch with
  | aarch64 =>
    cases op <;>
      simp [Target.arithLines, target, AArch64.target, AArch64.arith, AArch64.Instr.text,
        AArch64.opcode, operation, Layout.instruction]
  | x8664 =>
    cases op <;>
      simp [Target.arithLines, target, X8664.target, X8664.arith, X8664.Instr.text, X8664.pair,
        operation, Layout.instruction, Layout.lone]

theorem registers_eq (arch : Arch) : arch.target.registers = arch.ownRegisters := by
  cases arch <;> rfl

theorem preamble_eq (arch : Arch) : arch.target.preamble = arch.opening := by
  cases arch <;> rfl

theorem postamble_eq (arch : Arch) : arch.target.postamble = arch.closing := by
  cases arch <;> rfl

theorem code_eq (arch : Arch) : arch.target.code = arch.code := by
  funext names e k
  rw [Target.code, code, load_eq, arithLines_eq]

end Arch

/-- Complete specification of the generated text: the only failure is running out of registers,
which happens exactly when the tree needs more than there are, and the program is the post-order
code of the tree from place zero on, between the first and the last lines of its instruction set. -/
theorem emit_spec (e : Expr) (arch : Arch) (registers : Option (List String)) :
    let names := (registers.getD arch.ownRegisters).eraseDups
    (emit e arch registers = .error (.register .exhausted) ↔ names.length < e.need) ∧
      (e.need ≤ names.length → emit e arch registers =
        .ok (arch.opening ++ arch.code names e 0 ++ arch.closing)) ∧
      ∀ err, emit e arch registers = .error err → err = .register .exhausted := by
  intro names
  have h := arch.target.emit_eq arch.arith_ne_none e registers
  rw [arch.registers_eq, arch.preamble_eq, arch.postamble_eq, arch.code_eq] at h
  change emit e arch registers = if e.need ≤ names.length then _ else _ at h
  by_cases hneed : e.need ≤ names.length
  · rw [if_pos hneed] at h
    refine ⟨?_, fun _ => h, ?_⟩
    · rw [h]
      simp [hneed]
    · intro err herr
      rw [h] at herr
      cases herr
  · rw [if_neg hneed] at h
    refine ⟨?_, fun hle => absurd hle hneed, ?_⟩
    · rw [h]
      simpa using hneed
    · intro err herr
      rw [h] at herr
      cases herr
      rfl

-- A quarter that is zero is left out.
example : Arch.aarch64.code ["x8"] (.literal 0x100000002) 0 =
    ["\tmovz    x8, #2", "\tmovk    x8, #1, lsl #32"] := rfl

end ArithCompiler
