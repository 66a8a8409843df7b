import ArithCompiler.Proofs.Codegen.Runs
import ArithCompiler.Proofs.Target.X8664

/-! # Registers of the caller's choice on x86-64

A list of registers that replaces those of the target is taken as it is, with `rax` and `rdx` in it
or not. A division goes through these two, so it destroys a left operand that waits in one of them,
and it does not find its right operand there; its own left operand may be in either. A list is
therefore right for all trees exactly when it has neither of the two, save as the first of at most
two registers.
-/

namespace ArithCompiler.X8664

open Machine Layout

/-- The general-purpose registers. -/
def generalRegisters : List String :=
  ["rax", "rbx", "rcx", "rdx", "rsi", "rdi", "rbp", "rsp",
    "r8", "r9", "r10", "r11", "r12", "r13", "r14", "r15"]

/-- A register that no division goes through. -/
def Untouched (name : String) : Prop := name ≠ "rax" ∧ name ≠ "rdx"

instance (name : String) : Decidable (Untouched name) :=
  inferInstanceAs (Decidable (name ≠ "rax" ∧ name ≠ "rdx"))

theorem eq_of_not_untouched {name : String} (h : ¬Untouched name) :
    name = "rax" ∨ name = "rdx" := by
  rw [Untouched] at h
  tauto

/-- The lines are a program for `v`: those between the first three and the last three read back as
instructions, which run to their end from any register contents and leave `v` in the register. -/
def Computes (lines : List String) (register : String) (v : Int64) : Prop :=
  ∃ (body : List String) (instrs : List Instr),
    lines = target.preamble ++ body ++ target.postamble ∧ body.mapM read? = some instrs ∧
      ∀ regs : Registers, ∃ regs', run step instrs regs = .ok regs' ∧ regs' register = v

/-- With these registers, whatever is emitted for a tree that has a value computes that value. -/
def Reliable (names : List String) : Prop :=
  ∀ e lines v, emit e .x8664 (some names) = .ok lines → e.eval = .ok v →
    ∃ result, ((Assembly.start target (some names)).generate target e).1 = .ok result ∧
      Computes lines result.name v

theorem isName_of_general {name : String} (h : name ∈ generalRegisters) : IsName name := by
  have hall : ∀ name ∈ generalRegisters, IsName name := by decide
  exact hall name h

/-- A program is known by its instructions. -/
theorem computes_iff {instrs : List Instr}
    (hread : (instrs.map Instr.text).mapM read? = some instrs) (register : String) (v : Int64) :
    Computes (target.preamble ++ instrs.map Instr.text ++ target.postamble) register v ↔
      ∀ regs : Registers, ∃ regs', run step instrs regs = .ok regs' ∧ regs' register = v := by
  refine ⟨?_, fun hruns => ⟨_, instrs, rfl, hread, hruns⟩⟩
  rintro ⟨body, instrs', hlines, hread', hruns⟩
  rw [List.append_left_inj, List.append_right_inj] at hlines
  rw [← hlines, hread] at hread'
  cases hread'
  exact hruns

section

variable {names : List String}

theorem read?_postorder (hnames : ∀ name ∈ names, name ∈ generalRegisters) (e : Expr)
    (hneed : e.need ≤ names.length) :
    ((e.postorder load arith names 0).map Instr.text).mapM read? =
      some (e.postorder load arith names 0) := by
  have hname (name : String) (h : name ∈ names) : IsName name := isName_of_general (hnames name h)
  have hcomputes := mem_postorder (fun dst hd => load_computes (hname dst hd))
    (fun op left hl right hr => arith_computes op (hname left hl) (hname right hr)) e 0 (by omega)
  exact mapM_map_text fun i hi => read?_text i (hcomputes i hi).1 (hcomputes i hi).2

/-- What makes a list reliable, without the text of programs: the post-order code of each tree that
needs no more registers runs to its value. -/
theorem reliable_iff_runs (hnodup : names.Nodup)
    (hnames : ∀ name ∈ names, name ∈ generalRegisters) :
    Reliable names ↔ ∀ (e : Expr) (v : Int64), e.need ≤ names.length → e.eval = .ok v →
      ∀ regs : Registers, ∃ regs', run step (e.postorder load arith names 0) regs = .ok regs' ∧
        regs' (names.getD 0 "") = v := by
  have ht : ∀ op, target.arith op ≠ none := fun op => Arch.arith_ne_none .x8664 op
  have hpool : ((some names).getD target.registers).eraseDups = names := eraseDups_of_nodup hnodup
  have hcode (e : Expr) : target.code names e 0 = (e.postorder load arith names 0).map Instr.text :=
    writes_target.code_eq names e 0
  constructor
  · intro hreliable e v hneed heval
    have hemit := target.emit_eq ht e (some names)
    rw [hpool, if_pos hneed, hcode] at hemit
    obtain ⟨result, hgen, hcomputes⟩ := hreliable e _ v hemit heval
    have hresult := (Target.emit_ok ht hemit).2.2
    rw [hgen, hpool] at hresult
    cases hresult
    exact (computes_iff (read?_postorder hnames e hneed) _ v).1 hcomputes
  · intro hruns e lines v hemit heval
    obtain ⟨hneed, rfl, hgen⟩ := Target.emit_ok ht hemit
    rw [hpool] at hneed hgen
    refine ⟨_, hgen, ?_⟩
    rw [hpool, hcode, computes_iff (read?_postorder hnames e hneed)]
    exact hruns e v hneed heval

/-- At level `k` the operation harms no operand: if it is a division, then neither its right operand
nor a left one that waits below is in a register that it goes through. -/
def Harmless (names : List String) (op : BinOp) (k : Nat) : Prop :=
  op = .div → ∀ name ∈ names.getD (k + 1) "" :: names.take k, Untouched name

/-- A tree without harmful divisions runs to its value, whatever the list has in other places. -/
theorem run_of_harmless (hnodup : names.Nodup) {e : Expr} (hneed : e.need ≤ names.length)
    (hlevels : e.Levels (Harmless names) 0) {v : Int64} (heval : e.eval = .ok v)
    (regs : Registers) :
    ∃ regs', run step (e.postorder load arith names 0) regs = .ok regs' ∧
      regs' (names.getD 0 "") = v := by
  have hleaves := leaves_postorder hnodup (fun k _ value regs => leaves_load _ value regs _)
    (fun op k _ hharmless regs => leaves_arith op hharmless regs) e 0 (by omega) hlevels regs
  rw [Expr.evalWith_of_eval (fun _ _ _ _ => BinOp.trap?_of_apply) heval] at hleaves
  obtain ⟨regs', hrun, hv, -⟩ := hleaves
  exact ⟨regs', hrun, hv⟩

/-- The division of zero by one, the least that goes wrong. -/
def zeroByOne : Expr := .binary .div (.literal 0) (.literal 1)

/-- Zeros are added from the left, so that the tree itself is at level `n`. -/
def raised (e : Expr) : Nat → Expr
  | 0 => e
  | n + 1 => .binary .add (.literal 0) (raised e n)

theorem need_raised (e : Expr) (n : Nat) : (raised e n).need = n + e.need := by
  induction n with
  | zero => simp [raised]
  | succ n ih =>
    have hpos := e.need_pos
    rw [raised, Expr.need, Expr.need, ih]
    omega

theorem eval_raised {e : Expr} (h : e.eval = .ok 0) (n : Nat) : (raised e n).eval = .ok 0 := by
  induction n with
  | zero => exact h
  | succ n ih =>
    rw [raised, Expr.eval, ih]
    rfl

theorem run_raised_error {e : Expr} {stop : Stop} (n k : Nat)
    (h : ∀ regs, run step (e.postorder load arith names (k + n)) regs = .error stop)
    (regs : Registers) : run step ((raised e n).postorder load arith names k) regs = .error stop := by
  induction n generalizing k regs with
  | zero => exact h regs
  | succ n ih =>
    rw [raised, Expr.postorder, Expr.postorder, List.append_assoc,
      run_append_of_ok step (run_load _ _ regs)]
    refine run_append_of_error step (ih (k + 1) ?_ _) _
    rwa [Nat.add_right_comm, Nat.add_assoc]

/-- Zero in the left operand is zero in both registers of the division, and so in a divisor there. -/
theorem run_div_error {left right : String} (hright : ¬Untouched right) {regs : Registers}
    (hleft : regs left = 0) : run step (arith .div left right) regs = .error .divideError := by
  rcases eq_of_not_untouched hright with rfl | rfl <;> simp [arith, run, step, hleft]

/-- A quotient of zero is left in both registers of the division. -/
theorem run_div_zero {left right : String} (hright : Untouched right) {regs : Registers}
    (hleft : regs left = 0) (hone : regs right = 1) :
    ∃ regs', run step (arith .div left right) regs = .ok regs' ∧
      regs' left = 0 ∧ ∀ name, ¬Untouched name → regs' name = 0 := by
  obtain ⟨hrax, hrdx⟩ := hright
  have hnat : (Int64.toUInt64 0).toNat = 0 := rfl
  have hfit : fit? 0 = some 0 := rfl
  let cleared := Function.update (Function.update regs "rax" 0) "rdx" 0
  refine ⟨Function.update (Function.update (Function.update cleared "rax" 0) "rdx" 0) left 0,
    ?_, Function.update_self .., ?_⟩
  · simp [arith, run, step, hleft, hone, hrax, hrdx, hnat, hfit, cleared]
  · intro name hname
    rcases eq_of_not_untouched hname with rfl | rfl <;> simp [Function.update_apply]

theorem getD_ne_getD_succ (hnodup : names.Nodup) {k : Nat} (hk : k + 1 < names.length) :
    names.getD k "" ≠ names.getD (k + 1) "" :=
  getD_ne_of_mem_take hnodup hk (getD_mem_take (by omega))

/-- A divisor is not found in a register that the division goes through. -/
theorem run_zeroByOne_error (hnodup : names.Nodup) {k : Nat} (hk : k + 1 < names.length)
    (htouched : ¬Untouched (names.getD (k + 1) "")) (regs : Registers) :
    run step (zeroByOne.postorder load arith names k) regs = .error .divideError := by
  simp only [zeroByOne, Expr.postorder, List.append_assoc]
  rw [run_append_of_ok step (run_load _ _ regs), run_append_of_ok step (run_load _ _ _)]
  apply run_div_error htouched
  rw [Function.update_of_ne (getD_ne_getD_succ hnodup hk), Function.update_self]

theorem untouched_of_reliable (hnodup : names.Nodup)
    (hnames : ∀ name ∈ names, name ∈ generalRegisters) (h : Reliable names) {k : Nat}
    (hk : k + 1 < names.length) : Untouched (names.getD (k + 1) "") := by
  by_contra htouched
  have hneed : (raised zeroByOne k).need ≤ names.length := by
    rw [need_raised]
    exact hk
  have heval : (raised zeroByOne k).eval = .ok 0 := eval_raised rfl k
  have herror (regs : Registers) :
      run step ((raised zeroByOne k).postorder load arith names 0) regs = .error .divideError := by
    apply run_raised_error
    rw [Nat.zero_add]
    exact run_zeroByOne_error hnodup hk htouched
  obtain ⟨regs', hrun, -⟩ := (reliable_iff_runs hnodup hnames).1 h _ _ hneed heval fun _ => 0
  rw [herror] at hrun
  cases hrun

/-- One less the division of zero by one, at two levels. -/
def oneLessZero : Expr := .binary .sub (.literal 1) zeroByOne

/-- A left operand that waits in a register of the division is lost. -/
theorem run_oneLessZero (hnodup : names.Nodup) (hlength : 2 < names.length)
    (htouched : ¬Untouched (names.getD 0 "")) (hright : Untouched (names.getD 2 ""))
    (regs : Registers) :
    ∃ regs', run step (oneLessZero.postorder load arith names 0) regs = .ok regs' ∧
      regs' (names.getD 0 "") = 0 := by
  let loaded := Function.update (Function.update (Function.update regs (names.getD 0 "") 1)
    (names.getD 1 "") 0) (names.getD 2 "") 1
  have hleft : loaded (names.getD 1 "") = 0 :=
    (Function.update_of_ne (getD_ne_getD_succ hnodup hlength) ..).trans (Function.update_self ..)
  have hone : loaded (names.getD 2 "") = 1 := Function.update_self ..
  obtain ⟨divided, hdiv, hquotient, hlost⟩ := run_div_zero hright hleft hone
  simp only [oneLessZero, zeroByOne, Expr.postorder, List.append_assoc]
  rw [run_append_of_ok step (run_load _ _ regs), run_append_of_ok step (run_load _ _ _),
    run_append_of_ok step (run_load _ _ _), run_append_of_ok step hdiv]
  refine ⟨_, rfl, ?_⟩
  rw [Function.update_self, hlost _ htouched, hquotient]
  rfl

/-- With such a list, no operation of a tree harms an operand. -/
theorem levels_harmless (htail : ∀ name ∈ names.tail, Untouched name)
    (hhead : 2 < names.length → ∀ name ∈ names.head?, Untouched name) {e : Expr}
    (hneed : e.need ≤ names.length) : e.Levels (Harmless names) 0 := by
  apply Expr.levels_of_need (n := names.length) ?_ e 0 (by omega)
  intro op k hk _ name hname
  cases names with
  | nil => cases hk
  | cons first rest =>
    rcases List.mem_cons.1 hname with rfl | hname
    · exact htail _ (getD_mem (Nat.lt_of_succ_lt_succ hk))
    · rcases List.mem_cons.1 (List.mem_of_mem_take hname) with rfl | hrest
      · -- The first register waits only above level zero, so there are three registers.
        have hpos : 0 < k := by
          apply Nat.pos_of_ne_zero
          rintro rfl
          cases hname
        exact hhead (by omega) _ rfl
      · exact htail name hrest

/-- A list of registers is right for all trees exactly when divisions go through none of them, save
for the first of at most two: neither the right operand of a division nor a left operand that waits
may be in `rax` or `rdx`, and only the left operand of the division itself may. -/
theorem reliable_iff (names : List String) (hnodup : names.Nodup)
    (hnames : ∀ name ∈ names, name ∈ generalRegisters) :
    Reliable names ↔ (∀ name ∈ names.tail, Untouched name) ∧
      (2 < names.length → ∀ name ∈ names.head?, Untouched name) := by
  constructor
  · intro h
    have hright (k : Nat) (hk : k + 1 < names.length) : Untouched (names.getD (k + 1) "") :=
      untouched_of_reliable hnodup hnames h hk
    refine ⟨fun name hname => ?_, fun hlength name hname => ?_⟩
    · obtain ⟨k, hk, rfl⟩ := List.mem_iff_getElem.1 hname
      rw [List.length_tail] at hk
      have hk' : k + 1 < names.length := by omega
      simpa [hk'] using hright k hk'
    · by_contra htouched
      have hfirst : names.getD 0 "" = name := by
        rw [List.getD_eq_getElem?_getD, ← List.head?_eq_getElem?, Option.mem_def.1 hname]
        rfl
      rw [← hfirst] at htouched
      obtain ⟨regs₁, hrun₁, hlost⟩ := run_oneLessZero hnodup hlength htouched (hright 1 hlength)
        fun _ => 0
      obtain ⟨regs₂, hrun₂, hone⟩ := (reliable_iff_runs hnodup hnames).1 h oneLessZero 1 hlength rfl
        fun _ => 0
      rw [hrun₁] at hrun₂
      cases hrun₂
      rw [hlost] at hone
      cases hone
  · rintro ⟨htail, hhead⟩
    rw [reliable_iff_runs hnodup hnames]
    intro e v hneed heval
    exact run_of_harmless hnodup hneed (levels_harmless htail hhead hneed) heval

end

/-- The dividend may be in `rdx`, the divisor may not. -/
theorem reliable_iff_rdx : Reliable ["rdx", "r9"] ∧ ¬Reliable ["r9", "rdx"] := by
  constructor
  · rw [reliable_iff ["rdx", "r9"] (by decide) (by decide)]
    decide
  · rw [reliable_iff ["r9", "rdx"] (by decide) (by decide)]
    decide

/-- The quotient of 10 by 3 comes out as 1, without a fault: the divisor was to be in `rax`, where
the division puts its dividend. -/
theorem quotient_by_itself :
    let names := ["rcx", "rax", "rbx"]
    let e : Expr := .binary .div (.literal 10) (.literal 3)
    (names.Nodup ∧ ∀ name ∈ names, name ∈ generalRegisters) ∧ e.eval = .ok 3 ∧
      (∃ lines, emit e .x8664 (some names) = .ok lines ∧
        ((Assembly.start target (some names)).generate target e).1 = .ok ⟨0, "rcx"⟩ ∧
        Computes lines "rcx" 1) ∧
      ¬Reliable names := by
  intro names e
  have hnodup : names.Nodup := by decide
  have hnames : ∀ name ∈ names, name ∈ generalRegisters := by decide
  refine ⟨⟨hnodup, hnames⟩, rfl, ⟨_, rfl, rfl, ?_⟩, fun h => ?_⟩
  · apply (computes_iff (read?_postorder hnames e (by decide)) "rcx" 1).2
    intro regs
    have hten : Int64.toUInt64 10 = 10 := rfl
    have hfit : fit? 1 = some 1 := rfl
    simp only [e, names, Expr.postorder, List.append_assoc]
    rw [run_append_of_ok step (run_load _ _ regs), run_append_of_ok step (run_load _ _ _)]
    simp [arith, run, step, hten, hfit]
  · have hright := untouched_of_reliable hnodup hnames h (k := 0) (by decide)
    exact absurd hright (by decide)

end ArithCompiler.X8664
