import ArithCompiler.Proofs.Target.Line
import ArithCompiler.Proofs.Target.Machine

/-! # Generated code on x86-64

A semantics of the instructions of the target, a reader of its lines, and the correctness of whole
programs: every line between the first and the last three reads back as an instruction, and running
these instructions from any register contents gives the wrapped value of the tree, or a divide error
exactly when its evaluation meets a division that has no 64-bit quotient.
-/

namespace ArithCompiler.X8664

open Machine Layout

/-- One instruction. A division takes its dividend from `rdx` and `rax` together, and stops the
machine when the quotient is not a 64-bit number. -/
def step (i : Instr) (regs : Registers) : Except Stop Registers :=
  match i with
  | .movConst value dst => .ok (Function.update regs dst value.toInt64)
  | .movWide value dst => .ok (Function.update regs dst value)
  | .mov src dst => .ok (Function.update regs dst (regs src))
  | .add src dst => .ok (Function.update regs dst (regs dst + regs src))
  | .sub src dst => .ok (Function.update regs dst (regs dst - regs src))
  | .mul src dst => .ok (Function.update regs dst (regs dst * regs src))
  | .xor src dst => .ok (Function.update regs dst (regs dst ^^^ regs src))
  | .cqto => .ok (Function.update regs "rdx" (if regs "rax" < 0 then -1 else 0))
  | .div divisor =>
    let dividend := (regs "rdx").toInt * 0x10000000000000000 + (regs "rax").toUInt64.toNat
    let quotient := dividend.tdiv (regs divisor).toInt
    if regs divisor = 0 then .error .divideError
    else
      match fit? quotient with
      | none => .error .divideError
      | some q =>
        .ok (Function.update (Function.update regs "rax" q) "rdx"
          (Int64.ofInt (dividend.tmod (regs divisor).toInt)))
  | .syscall => .error .systemCall

/-- Whether an instruction is one of those that expressions are compiled to. -/
def Instr.computes : Instr → Bool
  | .xor _ _ | .syscall => false
  | _ => true

inductive Operand where
  | const (value : Int)
  | register (name : String)
  deriving DecidableEq, Repr, Inhabited

def operand? : List Char → Option Operand
  | '$' :: text => (integer? text).map .const
  | '%' :: text => (name? text).map .register
  | _ => none

/-- The instruction of an opcode and its operands. A constant must fit in the instruction. -/
def assemble? (opcode : String) (operands : List Operand) : Option Instr :=
  match opcode, operands with
  | "movq", [.const value, .register dst] =>
    if -0x80000000 ≤ value ∧ value < 0x80000000 then some (.movConst (Int32.ofInt value) dst)
    else none
  | "movabsq", [.const value, .register dst] => (fit? value).map (.movWide · dst)
  | "movq", [.register src, .register dst] => some (.mov src dst)
  | "addq", [.register src, .register dst] => some (.add src dst)
  | "subq", [.register src, .register dst] => some (.sub src dst)
  | "imulq", [.register src, .register dst] => some (.mul src dst)
  | "cqto", [] => some .cqto
  | "idivq", [.register divisor] => some (.div divisor)
  | _, _ => none

def read? : String → Option Instr := readWith operand? assemble?

/-- The registers that an instruction names. -/
def Instr.names : Instr → List String
  | .movConst _ dst | .movWide _ dst => [dst]
  | .mov src dst | .add src dst | .sub src dst | .mul src dst | .xor src dst => [src, dst]
  | .div divisor => [divisor]
  | .cqto | .syscall => []

theorem reads_register {name : String} (h : IsName name) :
    Reads operand? ('%' :: name.toList) (.register name) := by
  refine ⟨isOperand_cons (by decide) (by decide) h.comma_notMem, ?_⟩
  rw [operand?, name?_toList h]
  rfl

theorem reads_const (value : Int) : Reads operand? ('$' :: value.repr.toList) (.const value) := by
  refine ⟨isOperand_cons (by decide) (by decide) (comma_notMem_repr_int value), ?_⟩
  rw [operand?, integer?_repr]
  rfl

theorem read?_const {opcode dst : String} (hop : ' ' ∉ opcode.toList)
    (hlen : opcode.toList.length < 8) (value : Int) (hd : IsName dst) :
    read? (instruction opcode ("$" ++ value.repr ++ ", %" ++ dst)) =
      assemble? opcode [.const value, .register dst] := by
  refine readWith_instruction operand? assemble? hop hlen ?_
    (.cons (reads_const value) (.cons (reads_register hd) .nil))
  simp [join]

theorem read?_pair {opcode src dst : String} (hop : ' ' ∉ opcode.toList)
    (hlen : opcode.toList.length < 8) (hs : IsName src) (hd : IsName dst) :
    read? (instruction opcode (pair src dst)) =
      assemble? opcode [.register src, .register dst] := by
  refine readWith_instruction operand? assemble? hop hlen ?_
    (.cons (reads_register hs) (.cons (reads_register hd) .nil))
  simp [pair, join]

theorem assemble?_movConst (value : Int32) (dst : String) :
    assemble? "movq" [.const value.toInt, .register dst] = some (.movConst value dst) := by
  have h : -0x80000000 ≤ value.toInt ∧ value.toInt < 0x80000000 := ⟨value.le_toInt, value.toInt_lt⟩
  simp [assemble?, h]

/-- The text of an instruction reads back as that instruction. -/
theorem read?_text (i : Instr) (hc : i.computes) (hn : ∀ name ∈ i.names, IsName name) :
    read? i.text = some i := by
  cases i with
  | movConst value dst =>
    have hd : IsName dst := hn dst (by simp [Instr.names])
    rw [Instr.text, read?_const (by decide) (by decide) _ hd, assemble?_movConst]
  | movWide value dst =>
    have hd : IsName dst := hn dst (by simp [Instr.names])
    rw [Instr.text, read?_const (by decide) (by decide) _ hd]
    simp [assemble?, fit?_toInt]
  | mov src dst | add src dst | sub src dst | mul src dst =>
    have hs : IsName src := hn src (by simp [Instr.names])
    have hd : IsName dst := hn dst (by simp [Instr.names])
    rw [Instr.text, read?_pair (by decide) (by decide) hs hd]
    simp [assemble?]
  | xor src dst => cases hc
  | cqto =>
    rw [Instr.text, read?, readWith_lone operand? assemble? (by decide)]
    simp [assemble?]
  | div divisor =>
    have hd : IsName divisor := hn divisor (by simp [Instr.names])
    rw [Instr.text, read?, readWith_instruction operand? assemble? (by decide) (by decide)
      (by simp [join]) (.cons (reads_register hd) .nil)]
    simp [assemble?]
  | syscall => cases hc

theorem toInt64_toInt32 {value : Int64}
    (h : -0x80000000 ≤ value.toInt ∧ value.toInt < 0x80000000) : value.toInt32.toInt64 = value := by
  apply Int64.toInt_inj.1
  rw [Int32.toInt_toInt64, Int64.toInt_toInt32]
  exact Int.bmod_eq_of_le (by omega) (by omega)

theorem run_load (dst : String) (value : Int64) (regs : Registers) :
    run step (load dst value) regs = .ok (Function.update regs dst value) := by
  unfold load
  split
  · next h => simp only [run, step, toInt64_toInt32 h]
  · rfl

theorem leaves_load (dst : String) (value : Int64) (regs : Registers) (kept : List String) :
    Leaves step (load dst value) regs dst kept (some value) := by
  refine ⟨_, run_load dst value regs, Function.update_self .., ?_⟩
  intro name _ hne
  exact Function.update_of_ne hne ..

/-- With the sign of `rax` in `rdx`, the dividend is the word in `rax`. -/
theorem dividend_cqto (a : Int64) :
    (if a < 0 then (-1 : Int64) else 0).toInt * 0x10000000000000000 + a.toUInt64.toNat = a.toInt := by
  have hnat : a.toUInt64.toNat = a.toBitVec.toNat := by
    rw [← UInt64.toNat_toBitVec, Int64.toBitVec_toUInt64]
  have hlt := a.toBitVec.isLt
  have hint : a.toInt = _ := BitVec.toInt_eq_toNat_cond a.toBitVec
  have hneg : a < 0 ↔ a.toInt < 0 := Int64.lt_iff_toInt_lt
  have hone : (-1 : Int64).toInt = -1 := rfl
  have hzero : (0 : Int64).toInt = 0 := rfl
  by_cases h : a < 0
  · rw [if_pos h, hone, hnat]
    rw [hneg] at h
    split at hint <;> omega
  · rw [if_neg h, hzero, hnat]
    rw [hneg] at h
    split at hint <;> omega

/-- The quotient of two words is a word exactly when a faulting machine divides them. -/
theorem fit?_tdiv (a : Int64) {b : Int64} (hb : b ≠ 0) :
    fit? (a.toInt.tdiv b.toInt) = BinOp.div.trap? a b := by
  by_cases h : a = Int64.minValue ∧ b = -1
  · rcases h with ⟨rfl, rfl⟩
    rfl
  · have hdiv : a.toInt.tdiv b.toInt = (a / b).toInt := by
      by_cases ha : a = Int64.minValue
      · exact (Int64.toInt_div_of_ne_right a b fun hb' => h ⟨ha, hb'⟩).symm
      · exact (Int64.toInt_div_of_ne_left a b ha).symm
    rw [hdiv, fit?_toInt, BinOp.trap?, if_neg (by simp [hb, h]), BinOp.wrap_div]

theorem step_div {regs : Registers} (hrdx : regs "rdx" = if regs "rax" < 0 then -1 else 0)
    (divisor : String) :
    match BinOp.div.trap? (regs "rax") (regs divisor) with
    | none => step (.div divisor) regs = .error .divideError
    | some q => ∃ r, step (.div divisor) regs =
        .ok (Function.update (Function.update regs "rax" q) "rdx" r) := by
  by_cases hb : regs divisor = 0
  · have htrap : BinOp.div.trap? (regs "rax") (regs divisor) = none := by simp [BinOp.trap?, hb]
    rw [htrap]
    simp [step, hb]
  · have hdividend : (regs "rdx").toInt * 0x10000000000000000 + (regs "rax").toUInt64.toNat =
        (regs "rax").toInt := by
      rw [hrdx]
      exact dividend_cqto (regs "rax")
    have hfit := fit?_tdiv (regs "rax") hb
    simp only [step, hdividend, hb, if_false, hfit]
    cases BinOp.div.trap? (regs "rax") (regs divisor) with
    | none => rfl
    | some q => exact ⟨_, rfl⟩

/-- A division goes through `rax` and `rdx` and leaves all other registers but the left one. -/
theorem leaves_div {left right : String} {names : List String} (hr : right ∈ names)
    (hnames : ∀ name ∈ names, name ≠ "rax" ∧ name ≠ "rdx") (regs : Registers) :
    Leaves step (arith .div left right) regs left names
      (BinOp.div.trap? (regs left) (regs right)) := by
  let regs₁ := Function.update regs "rax" (regs left)
  let regs₂ := Function.update regs₁ "rdx" (if regs₁ "rax" < 0 then -1 else 0)
  have hrun : run step [.mov left "rax", .cqto] regs = .ok regs₂ := rfl
  have hkept : ∀ name ∈ names, regs₂ name = regs name := by
    intro name hname
    rcases hnames name hname with ⟨hrax, hrdx⟩
    simp [regs₂, regs₁, hrax, hrdx]
  have hrax : regs₂ "rax" = regs left := by simp [regs₂, regs₁]
  have hrdx : regs₂ "rdx" = if regs₂ "rax" < 0 then -1 else 0 := by simp [regs₂, regs₁]
  have hdiv := step_div hrdx right
  rw [hrax, hkept right hr] at hdiv
  change Leaves step ([.mov left "rax", .cqto] ++ [.div right, .mov "rax" left]) regs left names _
  refine Leaves.after hrun (fun name h _ => hkept name h) (List.Subset.refl names) ?_
  cases htrap : BinOp.div.trap? (regs left) (regs right) with
  | none =>
    rw [htrap] at hdiv
    simp only at hdiv
    rw [Leaves, run, hdiv]
  | some q =>
    rw [htrap] at hdiv
    rcases hdiv with ⟨r, hstep⟩
    refine ⟨Function.update (Function.update (Function.update regs₂ "rax" q) "rdx" r) left q,
      ?_, Function.update_self .., ?_⟩
    · simp only [run, hstep]
      rfl
    · intro name hname hne
      rcases hnames name hname with ⟨hrax, hrdx⟩
      simp [hne, hrax, hrdx]

/-- An operation is right wherever it stands, with one exception: neither the right operand of a
division nor a register that has to be kept may be one of the two that it goes through. -/
theorem leaves_arith (op : BinOp) {left right : String} {kept : List String}
    (h : op = .div → ∀ name ∈ right :: kept, name ≠ "rax" ∧ name ≠ "rdx") (regs : Registers) :
    Leaves step (arith op left right) regs left kept (op.trap? (regs left) (regs right)) := by
  cases op with
  | add =>
    apply Leaves.of_step
    rw [BinOp.wrap_add]
    rfl
  | sub =>
    apply Leaves.of_step
    rw [BinOp.wrap_sub]
    rfl
  | mul =>
    apply Leaves.of_step
    rw [BinOp.wrap_mul]
    rfl
  | div =>
    have hright : right ∈ right :: kept := List.mem_cons_self
    exact (leaves_div hright (h rfl) regs).mono (List.subset_cons_self right kept)

/-- On registers other than `rax` and `rdx` the code of the target is right. -/
theorem implements {names : List String} (hnames : ∀ name ∈ names, name ≠ "rax" ∧ name ≠ "rdx") :
    Implements step load arith BinOp.trap? names where
  load dst _ value regs := leaves_load dst value regs names
  arith op left _ right hr _ regs := by
    refine leaves_arith op (fun _ name hname => ?_) regs
    rcases List.mem_cons.1 hname with rfl | hname
    · exact hnames _ hr
    · exact hnames name hname

theorem writes_target : Writes target Instr.text load arith where
  load _ _ := rfl
  arith _ := rfl

theorem load_computes {dst : String} (hd : IsName dst) (value : Int64) :
    ∀ i ∈ load dst value, i.computes ∧ ∀ name ∈ i.names, IsName name := by
  unfold load
  split <;> simp [Instr.computes, Instr.names, hd]

theorem arith_computes (op : BinOp) {left right : String} (hl : IsName left) (hr : IsName right) :
    ∀ i ∈ arith op left right, i.computes ∧ ∀ name ∈ i.names, IsName name := by
  have hrax : IsName "rax" := by decide
  cases op <;> simp [arith, Instr.computes, Instr.names, hl, hr, hrax]

/-- Programs for x86-64 are correct for every tree and every pool without the two registers of the
division. The lines between the first three and the last three read back as instructions, and from
any register contents these end in a divide error exactly when evaluation of the tree in wrapping
64-bit arithmetic meets a division by zero or of the least number by -1. Otherwise they leave the
value in the register that the generator returned. -/
theorem emit_simulates (e : Expr) (registers : Option (List String))
    (hnames : ∀ names ∈ registers, ∀ name ∈ names, IsName name ∧ name ≠ "rax" ∧ name ≠ "rdx")
    (lines : List String) (hemit : emit e .x8664 registers = .ok lines) :
    ∃ (body : List String) (instrs : List Instr) (result : Register),
      lines = target.preamble ++ body ++ target.postamble ∧
      target.preamble.length = 3 ∧ target.postamble.length = 3 ∧
      body.mapM read? = some instrs ∧ (∀ i ∈ instrs, i.computes) ∧
      ((Assembly.start target registers).generate target e).1 = .ok result ∧
      ∀ regs : Registers,
        (run step instrs regs = .error .divideError ↔ e.evalWith BinOp.trap? = none) ∧
        (∀ v, e.evalWith BinOp.trap? = some v →
          ∃ regs', run step instrs regs = .ok regs' ∧ regs' result.name = v) ∧
        (∀ v, e.eval = .ok v →
          ∃ regs', run step instrs regs = .ok regs' ∧ regs' result.name = v) := by
  have hpool := forall_mem_pool target.registers (by decide) hnames
  obtain ⟨instrs, result, hlines, hcomputes, hgen, hleaves⟩ := writes_target.program
    (implements fun name h => (hpool name h).2)
    (fun dst hd => load_computes (hpool dst hd).1)
    (fun op left hl right hr => arith_computes op (hpool left hl).1 (hpool right hr).1) hemit
  refine ⟨instrs.map Instr.text, instrs, result, hlines, rfl, rfl,
    mapM_map_text fun i hi => read?_text i (hcomputes i hi).1 (hcomputes i hi).2,
    fun i hi => (hcomputes i hi).1, hgen, fun regs => ?_⟩
  have hvalue : ∀ v, e.evalWith BinOp.trap? = some v →
      ∃ regs', run step instrs regs = .ok regs' ∧ regs' result.name = v := by
    intro v hv
    have h := hleaves regs
    rw [hv] at h
    rcases h with ⟨regs', hrun, hres, -⟩
    exact ⟨regs', hrun, hres⟩
  refine ⟨⟨fun hstop => ?_, fun hnone => ?_⟩, hvalue, fun v hv => ?_⟩
  · cases hv : e.evalWith BinOp.trap? with
    | none => rfl
    | some v =>
      rcases hvalue v hv with ⟨regs', hrun, -⟩
      rw [hrun] at hstop
      cases hstop
  · have h := hleaves regs
    rwa [hnone] at h
  · exact hvalue v (Expr.evalWith_of_eval (fun _ _ _ _ => BinOp.trap?_of_apply) hv)

/-- The quotient of the least number by -3 is taken from 1, with registers of the caller's choice. -/
theorem emit_simulates_quotient :
    ∃ (body : List String) (instrs : List Instr) (result : Register),
      emit (.binary .sub (.literal 1) (.binary .div (.literal Int64.minValue) (.literal (-3))))
          .x8664 (some ["rbx", "r12", "rbx", "r13"]) =
        .ok (target.preamble ++ body ++ target.postamble) ∧
      body.mapM read? = some instrs ∧
      ∀ regs : Registers, ∃ regs', run step instrs regs = .ok regs' ∧
        regs' result.name = -3074457345618258601 := by
  obtain ⟨body, instrs, result, hlines, -, -, hread, -, -, hruns⟩ := emit_simulates
    (.binary .sub (.literal 1) (.binary .div (.literal Int64.minValue) (.literal (-3))))
    (some ["rbx", "r12", "rbx", "r13"]) (by rintro _ ⟨⟩; decide) _ rfl
  refine ⟨body, instrs, result, ?_, hread, fun regs => (hruns regs).2.2 _ rfl⟩
  rw [← hlines]
  rfl

end ArithCompiler.X8664
