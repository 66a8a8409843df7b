import ArithCompiler.Proofs.Target.Line
import ArithCompiler.Proofs.Target.Machine

/-! # Generated code on AArch64

A semantics of the instructions of the target, a reader of its lines, and the correctness of whole
programs. Constants are built from their 16-bit quarters: `movz` clears what the register held
before, so a quarter that is zero can be left out, and every word is reached whatever came before.
-/

namespace ArithCompiler.AArch64

open Machine Layout

/-- Division as the hardware does it: toward zero, with zero for a divisor of zero, and with the
quotient reduced to 64 bits. -/
def sdiv (a b : Int64) : Int64 := if b = 0 then 0 else Int64.ofInt (a.toInt.tdiv b.toInt)

def compute : BinOp → Int64 → Int64 → Int64
  | .add, a, b => a + b
  | .sub, a, b => a - b
  | .mul, a, b => a * b
  | .div, a, b => sdiv a b

/-- Replace the sixteen bits of a word that start at the given bit. -/
def insertBits (word : BitVec 64) (value : BitVec 16) (shift : Nat) : BitVec 64 :=
  (word &&& ~~~(0xffff#64 <<< shift)) ||| (value.setWidth 64 <<< shift)

/-- One instruction. `movz` clears the other bits of its register, `movk` keeps them. -/
def step (i : Instr) (regs : Registers) : Except Stop Registers :=
  match i with
  | .mov dst value | .movz dst value =>
    .ok (Function.update regs dst (.ofBitVec (value.toBitVec.setWidth 64)))
  | .movk dst value quarter =>
    .ok (Function.update regs dst
      (.ofBitVec (insertBits (regs dst).toBitVec value.toBitVec quarter.shift)))
  | .arith op dst left right => .ok (Function.update regs dst (compute op (regs left) (regs right)))
  | .svc => .error .systemCall

/-- Whether an instruction is one of those that expressions are compiled to. -/
def Instr.computes : Instr → Bool
  | .svc => false
  | _ => true

inductive Operand where
  | register (name : String)
  | const (value : Nat)
  | shift (amount : Nat)
  deriving DecidableEq, Repr, Inhabited

def operand? : List Char → Option Operand
  | '#' :: text => (decimal? text).map .const
  | 'l' :: 's' :: 'l' :: ' ' :: '#' :: text => (decimal? text).map .shift
  | text => (name? text).map .register

def quarter? (shift : Nat) : Option Quarter :=
  [Quarter.second, .third, .fourth].find? (·.shift = shift)

def immediate? (value : Nat) : Option UInt16 :=
  if value < 0x10000 then some (UInt16.ofNat value) else none

/-- The instruction of an opcode and its operands. A constant must fit in sixteen bits. -/
def assemble? (opcode : String) (operands : List Operand) : Option Instr :=
  match opcode, operands with
  | "mov", [.register dst, .const value] => (immediate? value).map (.mov dst)
  | "movz", [.register dst, .const value] => (immediate? value).map (.movz dst)
  | "movk", [.register dst, .const value, .shift amount] =>
    match immediate? value, quarter? amount with
    | some bits, some quarter => some (.movk dst bits quarter)
    | _, _ => none
  | "add", [.register dst, .register left, .register right] => some (.arith .add dst left right)
  | "sub", [.register dst, .register left, .register right] => some (.arith .sub dst left right)
  | "mul", [.register dst, .register left, .register right] => some (.arith .mul dst left right)
  | "sdiv", [.register dst, .register left, .register right] => some (.arith .div dst left right)
  | _, _ => none

def read? : String → Option Instr := readWith operand? assemble?

/-- The registers that an instruction names. -/
def Instr.names : Instr → List String
  | .mov dst _ | .movz dst _ | .movk dst _ _ => [dst]
  | .arith _ dst left right => [dst, left, right]
  | .svc => []

theorem reads_register {name : String} (h : IsName name) :
    Reads operand? name.toList (.register name) := by
  have hblank : ' ' ∉ name.toList := fun hmem => absurd (h.2 ' ' hmem) (by decide)
  have hmark : '#' ∉ name.toList := fun hmem => absurd (h.2 '#' hmem) (by decide)
  refine ⟨⟨by simpa using h.1, fun hhead => hblank (List.mem_of_head? hhead), h.comma_notMem⟩, ?_⟩
  unfold operand?
  split
  · next text htext => simp [htext] at hmark
  · next text htext => simp [htext] at hmark
  · rw [name?_toList h]
    rfl

theorem reads_const (value : Nat) : Reads operand? ('#' :: value.repr.toList) (.const value) := by
  refine ⟨isOperand_cons (by decide) (by decide) (comma_notMem_repr value), ?_⟩
  rw [operand?, decimal?_repr]
  rfl

theorem reads_shift (amount : Nat) :
    Reads operand? ('l' :: 's' :: 'l' :: ' ' :: '#' :: amount.repr.toList) (.shift amount) := by
  refine ⟨isOperand_cons (by decide) (by decide) ?_, ?_⟩
  · simpa using comma_notMem_repr amount
  · rw [operand?, decimal?_repr]
    rfl

theorem immediate?_toNat (value : UInt16) : immediate? value.toNat = some value := by
  rw [immediate?, if_pos value.toNat_lt, UInt16.ofNat_toNat]

theorem quarter?_shift (quarter : Quarter) : quarter? quarter.shift = some quarter := by
  cases quarter <;> rfl

theorem read?_const {opcode dst : String} (hop : ' ' ∉ opcode.toList)
    (hlen : opcode.toList.length < 8) (hd : IsName dst) (value : Nat) :
    read? (instruction opcode (dst ++ ", #" ++ value.repr)) =
      assemble? opcode [.register dst, .const value] := by
  refine readWith_instruction operand? assemble? hop hlen ?_
    (.cons (reads_register hd) (.cons (reads_const value) .nil))
  simp [join]

theorem read?_arith {opcode dst left right : String} (hop : ' ' ∉ opcode.toList)
    (hlen : opcode.toList.length < 8) (hd : IsName dst) (hl : IsName left) (hr : IsName right) :
    read? (instruction opcode (dst ++ ", " ++ left ++ ", " ++ right)) =
      assemble? opcode [.register dst, .register left, .register right] := by
  refine readWith_instruction operand? assemble? hop hlen ?_
    (.cons (reads_register hd) (.cons (reads_register hl) (.cons (reads_register hr) .nil)))
  simp [join]

/-- The text of an instruction reads back as that instruction. -/
theorem read?_text (i : Instr) (hc : i.computes) (hn : ∀ name ∈ i.names, IsName name) :
    read? i.text = some i := by
  cases i with
  | mov dst value | movz dst value =>
    have hd : IsName dst := hn dst (by simp [Instr.names])
    rw [Instr.text, read?_const (by decide) (by decide) hd]
    simp [assemble?, immediate?_toNat]
  | movk dst value quarter =>
    have hd : IsName dst := hn dst (by simp [Instr.names])
    rw [Instr.text, read?, readWith_instruction operand? assemble? (by decide) (by decide)
      (by simp [join]) (.cons (reads_register hd)
        (.cons (reads_const value.toNat) (.cons (reads_shift quarter.shift) .nil)))]
    simp [assemble?, immediate?_toNat, quarter?_shift]
  | arith op dst left right =>
    have hd : IsName dst := hn dst (by simp [Instr.names])
    have hl : IsName left := hn left (by simp [Instr.names])
    have hr : IsName right := hn right (by simp [Instr.names])
    cases op <;>
      rw [Instr.text, opcode, read?_arith (by decide) (by decide) hd hl hr] <;>
      simp [assemble?]
  | svc => cases hc

/-- The bits of a word below bit `n`. -/
def low (word : BitVec 64) (n : Nat) : BitVec 64 := (word.setWidth n).setWidth 64

theorem getLsbD_low (word : BitVec 64) (n i : Nat) :
    (low word n).getLsbD i = (decide (i < n) && word.getLsbD i) := by
  simp only [low, BitVec.getLsbD_setWidth]
  by_cases hi : i < 64
  · simp [hi]
  · simp [BitVec.getLsbD_of_ge word i (by omega)]

theorem low_full (word : BitVec 64) : low word 64 = word := by
  simp [low]

theorem getLsbD_mask (i : Nat) : (0xffff#64).getLsbD i = decide (i < 16) := by
  have h : 0xffff#64 = (BitVec.allOnes 16).setWidth 64 := rfl
  rw [h, BitVec.getLsbD_setWidth, BitVec.getLsbD_allOnes]
  by_cases hi : i < 16
  · have hi' : i < 64 := by omega
    simp [hi, hi']
  · simp [hi]

/-- Sixteen more bits of a word are in place after they are inserted above the lower ones. -/
theorem insertBits_low (word : BitVec 64) (shift : Nat) :
    insertBits (low word shift) ((word >>> shift).setWidth 16) shift = low word (shift + 16) := by
  apply BitVec.eq_of_getLsbD_eq
  intro i hi
  simp only [insertBits, BitVec.getLsbD_or, BitVec.getLsbD_and, BitVec.getLsbD_not,
    BitVec.getLsbD_shiftLeft, BitVec.getLsbD_setWidth, BitVec.getLsbD_ushiftRight, getLsbD_low,
    getLsbD_mask, hi]
  by_cases hbelow : i < shift
  · have hlt : i < shift + 16 := by omega
    simp [hbelow, hlt]
  · by_cases hin : i - shift < 16
    · have hlt : i < shift + 16 := by omega
      have hwide : i - shift < 64 := by omega
      have hadd : shift + (i - shift) = i := by omega
      simp [hbelow, hin, hlt, hwide, hadd]
    · have hge : ¬i < shift + 16 := by omega
      simp [hbelow, hin, hge]

/-- Sixteen bits that are zero need not be inserted. -/
theorem low_of_zero {word : BitVec 64} {shift : Nat} (h : (word >>> shift).setWidth 16 = 0#16) :
    low word shift = low word (shift + 16) := by
  apply BitVec.eq_of_getLsbD_eq
  intro i hi
  rw [getLsbD_low, getLsbD_low]
  by_cases hin : shift ≤ i ∧ i < shift + 16
  · have hbit := congrArg (fun bits => bits.getLsbD (i - shift)) h
    have hadd : shift + (i - shift) = i := by omega
    have hlt : i - shift < 16 := by omega
    simp only [BitVec.getLsbD_setWidth, BitVec.getLsbD_ushiftRight, hadd, hlt] at hbit
    have hzero : word.getLsbD i = false := by simpa using hbit
    simp [hzero]
  · have hiff : i < shift ↔ i < shift + 16 := by omega
    simp [hiff]

theorem toBitVec_bitsAt (value : Int64) (quarter : Quarter) :
    (bitsAt value quarter.shift).toBitVec = (value.toBitVec >>> quarter.shift).setWidth 16 := by
  cases quarter <;> simp [bitsAt, Quarter.shift]

theorem toBitVec_bitsAt_zero (value : Int64) :
    (bitsAt value 0).toBitVec.setWidth 64 = low value.toBitVec 16 := by
  simp [bitsAt, low]

/-- The instruction for one quarter, none for a quarter that is zero. -/
def quarterCode (dst : String) (value : Int64) (quarter : Quarter) : List Instr :=
  if bitsAt value quarter.shift = 0 then [] else [.movk dst (bitsAt value quarter.shift) quarter]

theorem load_wide {dst : String} {value : Int64} (h : ¬(0 ≤ value ∧ value ≤ 0xffff)) :
    load dst value = [.movz dst (bitsAt value 0)] ++ (quarterCode dst value .second ++
      (quarterCode dst value .third ++ quarterCode dst value .fourth)) := by
  have hquarter : ∀ quarter : Quarter,
      (let bits := bitsAt value quarter.shift
        if bits = 0 then none else some (Instr.movk dst bits quarter)).toList =
          quarterCode dst value quarter := by
    intro quarter
    rw [quarterCode]
    split <;> simp_all
  rw [load, if_neg h, List.filterMap_eq_flatMap_toList]
  simp only [hquarter, List.flatMap_cons, List.flatMap_nil, List.append_nil, List.singleton_append]

/-- One quarter adds its bits to the lower ones. -/
theorem leaves_quarterCode {dst : String} {value : Int64} {regs : Registers} (quarter : Quarter)
    (h : regs dst = .ofBitVec (low value.toBitVec quarter.shift)) (kept : List String) :
    Leaves step (quarterCode dst value quarter) regs dst kept
      (some (.ofBitVec (low value.toBitVec (quarter.shift + 16)))) := by
  unfold quarterCode
  split
  · next hzero =>
    have hbits : (value.toBitVec >>> quarter.shift).setWidth 16 = 0#16 := by
      rw [← toBitVec_bitsAt, hzero]
      rfl
    refine ⟨regs, rfl, ?_, fun _ _ _ => rfl⟩
    rw [h, low_of_zero hbits]
  · apply Leaves.of_step
    rw [step, h, Int64.toBitVec_ofBitVec, toBitVec_bitsAt, insertBits_low]

theorem low_of_small {value : Int64} (h : 0 ≤ value ∧ value ≤ 0xffff) :
    low value.toBitVec 16 = value.toBitVec := by
  have hmin : (0 : Int64).toInt ≤ value.toInt := Int64.le_iff_toInt_le.1 h.1
  have hmax : value.toInt ≤ (0xffff : Int64).toInt := Int64.le_iff_toInt_le.1 h.2
  have hint : value.toInt = _ := BitVec.toInt_eq_toNat_cond value.toBitVec
  have hzero : (0 : Int64).toInt = 0 := rfl
  have hlast : (0xffff : Int64).toInt = 0xffff := rfl
  have hlt := value.toBitVec.isLt
  have hsmall : value.toBitVec.toNat < 2 ^ 16 := by
    split at hint <;> omega
  apply BitVec.eq_of_toNat_eq
  rw [low, BitVec.toNat_setWidth, BitVec.toNat_setWidth, Nat.mod_eq_of_lt hsmall,
    Nat.mod_eq_of_lt hlt]

/-- Every constant is built exactly, whatever the register held before. -/
theorem leaves_load (dst : String) (value : Int64) (regs : Registers) (kept : List String) :
    Leaves step (load dst value) regs dst kept (some value) := by
  by_cases h : 0 ≤ value ∧ value ≤ 0xffff
  · rw [load, if_pos h]
    apply Leaves.of_step
    rw [step, toBitVec_bitsAt_zero, low_of_small h, Int64.ofBitVec_toBitVec]
  · rw [load_wide h]
    have hz : Leaves step [.movz dst (bitsAt value 0)] regs dst kept
        (some (.ofBitVec (low value.toBitVec 16))) := by
      apply Leaves.of_step
      rw [step, toBitVec_bitsAt_zero]
    refine hz.trans fun regs₁ h₁ => ?_
    refine (leaves_quarterCode .second h₁ kept).trans fun regs₂ h₂ => ?_
    refine (leaves_quarterCode .third h₂ kept).trans fun regs₃ h₃ => ?_
    have h₄ := leaves_quarterCode .fourth h₃ kept
    have hfull : low value.toBitVec (Quarter.fourth.shift + 16) = value.toBitVec :=
      low_full value.toBitVec
    rwa [hfull, Int64.ofBitVec_toBitVec] at h₄

theorem compute_eq_wrap (op : BinOp) (a b : Int64) : compute op a b = op.wrap a b := by
  cases op with
  | add => exact (BinOp.wrap_add a b).symm
  | sub => exact (BinOp.wrap_sub a b).symm
  | mul => exact (BinOp.wrap_mul a b).symm
  | div =>
    rw [compute, sdiv, BinOp.wrap, BinOp.exact]
    split
    · next hzero =>
      rw [hzero]
      simp
    · rfl

/-- The code of the target is right on every pool. -/
theorem implements (names : List String) :
    Implements step load arith (fun op a b => some (op.wrap a b)) names where
  load dst _ value regs := leaves_load dst value regs names
  arith op left _ right _ _ regs := by
    apply Leaves.of_step
    rw [step, compute_eq_wrap]

theorem writes_target : Writes target Instr.text load arith where
  load _ _ := rfl
  arith _ := rfl

theorem load_computes {dst : String} (hd : IsName dst) (value : Int64) :
    ∀ i ∈ load dst value, i.computes ∧ ∀ name ∈ i.names, IsName name := by
  intro i hi
  by_cases h : 0 ≤ value ∧ value ≤ 0xffff
  · rw [load, if_pos h, List.mem_singleton] at hi
    rw [hi]
    simp [Instr.computes, Instr.names, hd]
  · rw [load, if_neg h, List.mem_cons, List.mem_filterMap] at hi
    rcases hi with rfl | ⟨quarter, -, hq⟩
    · simp [Instr.computes, Instr.names, hd]
    · simp only at hq
      split at hq
      · cases hq
      · cases hq
        simp [Instr.computes, Instr.names, hd]

theorem arith_computes (op : BinOp) {left right : String} (hl : IsName left) (hr : IsName right) :
    ∀ i ∈ arith op left right, i.computes ∧ ∀ name ∈ i.names, IsName name := by
  simp [arith, Instr.computes, Instr.names, hl, hr]

/-- Programs for AArch64 are correct for every tree and every pool. The lines between the first
three and the last three read back as instructions, and from any register contents these leave in
the register that the generator returned the value of the tree in wrapping 64-bit arithmetic, which
is the checked value wherever there is one. -/
theorem emit_computes (e : Expr) (registers : Option (List String))
    (hnames : ∀ names ∈ registers, ∀ name ∈ names, IsName name) (lines : List String)
    (hemit : emit e .aarch64 registers = .ok lines) :
    ∃ (body : List String) (instrs : List Instr) (result : Register),
      lines = target.preamble ++ body ++ target.postamble ∧
      target.preamble.length = 3 ∧ target.postamble.length = 3 ∧
      body.mapM read? = some instrs ∧ (∀ i ∈ instrs, i.computes) ∧
      ((Assembly.start target registers).generate target e).1 = .ok result ∧
      (∀ regs : Registers, ∃ regs', run step instrs regs = .ok regs' ∧
        regs' result.name = e.wrapped) ∧
      ∀ v, e.eval = .ok v → e.wrapped = v := by
  have hpool := forall_mem_pool target.registers (by decide) hnames
  obtain ⟨instrs, result, hlines, hcomputes, hgen, hleaves⟩ := writes_target.program
    (implements _) (fun dst hd => load_computes (hpool dst hd))
    (fun op left hl right hr => arith_computes op (hpool left hl) (hpool right hr)) hemit
  refine ⟨instrs.map Instr.text, instrs, result, hlines, rfl, rfl,
    mapM_map_text fun i hi => read?_text i (hcomputes i hi).1 (hcomputes i hi).2,
    fun i hi => (hcomputes i hi).1, hgen, fun regs => ?_, fun v hv => ?_⟩
  · have h := hleaves regs
    rw [e.evalWith_wrap] at h
    rcases h with ⟨regs', hrun, hres, -⟩
    exact ⟨regs', hrun, hres⟩
  · have h := Expr.evalWith_of_eval
      (fun _ _ _ _ h => congrArg some (BinOp.wrap_of_apply h)) hv
    rw [e.evalWith_wrap] at h
    exact Option.some.inj h

/-- A wide negative constant is divided, with registers of the caller's choice. -/
theorem emit_computes_quotient :
    ∃ (body : List String) (instrs : List Instr) (result : Register),
      emit (.binary .sub (.literal 1) (.binary .div (.literal (-4294967299)) (.literal 65536)))
          .aarch64 (some ["x20", "x21", "x20", "x22"]) =
        .ok (target.preamble ++ body ++ target.postamble) ∧
      body.mapM read? = some instrs ∧
      ∀ regs : Registers, ∃ regs', run step instrs regs = .ok regs' ∧ regs' result.name = 65537 := by
  obtain ⟨body, instrs, result, hlines, -, -, hread, -, -, hruns, hvalue⟩ := emit_computes
    (.binary .sub (.literal 1) (.binary .div (.literal (-4294967299)) (.literal 65536)))
    (some ["x20", "x21", "x20", "x22"]) (by rintro _ ⟨⟩; decide) _ rfl
  refine ⟨body, instrs, result, ?_, hread, ?_⟩
  · rw [← hlines]
    rfl
  · rw [← hvalue 65537 rfl]
    exact hruns

end ArithCompiler.AArch64
