import ArithCompiler.Expr.Eval
import ArithCompiler.Proofs.Codegen.Stack
import Mathlib.Logic.Function.Basic

/-! # Machines that run generated code

A machine has one 64-bit word under each register name. Its instructions are run in order until one
of them stops the machine. Post-order code computes the value of its tree on every machine on which
the code of one constant and of one operation is right, provided that this code leaves the other
registers of the pool alone.
-/

namespace ArithCompiler

/-- The result of an operation, reduced to 64 bits. A division by zero gives zero. -/
def BinOp.wrap (op : BinOp) (a b : Int64) : Int64 := Int64.ofInt (op.exact a.toInt b.toInt)

theorem BinOp.wrap_add (a b : Int64) : BinOp.add.wrap a b = a + b := by
  rw [wrap, exact, Int64.ofInt_add, Int64.ofInt_toInt, Int64.ofInt_toInt]

theorem BinOp.wrap_sub (a b : Int64) : BinOp.sub.wrap a b = a - b := by
  rw [wrap, exact, Int64.ofInt_sub, Int64.ofInt_toInt, Int64.ofInt_toInt]

theorem BinOp.wrap_mul (a b : Int64) : BinOp.mul.wrap a b = a * b := by
  rw [wrap, exact, Int64.ofInt_mul, Int64.ofInt_toInt, Int64.ofInt_toInt]

theorem BinOp.wrap_div (a b : Int64) : BinOp.div.wrap a b = a / b := by
  apply Int64.toInt_inj.1
  rw [wrap, exact, Int64.toInt_ofInt, Int64.toInt_div]

theorem fit?_toInt (a : Int64) : fit? a.toInt = some a := by
  rw [fit?, if_pos ⟨a.le_toInt, a.toInt_lt⟩, Int64.ofInt_toInt]

/-- The result of an operation where a division without a 64-bit quotient is a fault. -/
def BinOp.trap? (op : BinOp) (a b : Int64) : Option Int64 :=
  if op = .div ∧ (b = 0 ∨ a = Int64.minValue ∧ b = -1) then none else some (op.wrap a b)

namespace Expr

/-- Evaluation in post-order with the given operations, up to the first that has no result. -/
def evalWith (apply : BinOp → Int64 → Int64 → Option Int64) : Expr → Option Int64
  | literal value => some value
  | binary op left right =>
    match left.evalWith apply with
    | none => none
    | some a =>
      match right.evalWith apply with
      | none => none
      | some b => apply op a b

theorem evalWith_binary (apply : BinOp → Int64 → Int64 → Option Int64) (op : BinOp)
    (left right : Expr) : (binary op left right).evalWith apply =
      (left.evalWith apply).bind fun a => (right.evalWith apply).bind (apply op a) := by
  rw [evalWith]
  cases left.evalWith apply with
  | none => rfl
  | some a => cases right.evalWith apply <;> rfl

/-- The value of a tree in wrapping 64-bit arithmetic. -/
def wrapped : Expr → Int64
  | literal value => value
  | binary op left right => op.wrap left.wrapped right.wrapped

theorem evalWith_wrap (e : Expr) :
    e.evalWith (fun op a b => some (op.wrap a b)) = some e.wrapped := by
  induction e with
  | literal value => rfl
  | binary op left right ihl ihr => rw [evalWith, ihl, ihr, wrapped]

/-- Each operation of a tree at level `k` is one that may stand at its own level. -/
def Levels (P : BinOp → Nat → Prop) : Expr → Nat → Prop
  | literal _, _ => True
  | binary op left right, k => P op k ∧ left.Levels P k ∧ right.Levels P (k + 1)

/-- With `n` registers there is an operation at level `k` only when `k + 1` is a level, too. -/
theorem levels_of_need {P : BinOp → Nat → Prop} {n : Nat} (h : ∀ op k, k + 1 < n → P op k)
    (e : Expr) (k : Nat) (hk : k + e.need ≤ n) : e.Levels P k := by
  induction e generalizing k with
  | literal value => trivial
  | binary op left right ihl ihr =>
    rw [need] at hk
    have hpos := right.need_pos
    exact ⟨h op k (by omega), ihl k (by omega), ihr (k + 1) (by omega)⟩

/-- Where checked evaluation has a value, the given operations lead to the same one as long as each
of them agrees with its checked form. -/
theorem evalWith_of_eval {apply : BinOp → Int64 → Int64 → Option Int64}
    (h : ∀ op a b c, BinOp.apply op a b = .ok c → apply op a b = some c) {e : Expr} {v : Int64}
    (he : e.eval = .ok v) : e.evalWith apply = some v := by
  induction e generalizing v with
  | literal value =>
    cases he
    rfl
  | binary op left right ihl ihr =>
    rw [eval] at he
    split at he
    · cases he
    · next a ha =>
      split at he
      · cases he
      · next b hb =>
        rw [evalWith, ihl ha, ihr hb]
        exact h op a b v he

end Expr

/-- A checked result is the wrapped one. -/
theorem BinOp.wrap_of_apply {op : BinOp} {a b c : Int64} (h : op.apply a b = .ok c) :
    op.wrap a b = c := by
  rw [BinOp.apply, fit?] at h
  split at h
  · cases h
  · split at h
    · next hfit =>
      split at hfit
      · cases h
        exact Option.some.inj hfit
      · cases hfit
    · cases h

/-- A checked result is the one of a machine that faults. -/
theorem BinOp.trap?_of_apply {op : BinOp} {a b c : Int64} (h : op.apply a b = .ok c) :
    op.trap? a b = some c := by
  have hw := wrap_of_apply h
  rw [BinOp.trap?, if_neg, hw]
  rintro ⟨rfl, rfl | ⟨rfl, rfl⟩⟩
  · cases h
  · have hover : BinOp.apply .div Int64.minValue (-1) = .error (.overflow .div) := rfl
    rw [hover] at h
    cases h

/-- What each register holds. -/
abbrev Registers := String → Int64

/-- Why a machine stops. -/
inductive Stop where
  | divideError
  | systemCall
  deriving DecidableEq, Repr, Inhabited

namespace Machine

variable {ι : Type} (step : ι → Registers → Except Stop Registers)

/-- Run instructions in order until one of them stops the machine. -/
def run : List ι → Registers → Except Stop Registers
  | [], regs => .ok regs
  | i :: rest, regs =>
    match step i regs with
    | .error stop => .error stop
    | .ok regs => run rest regs

theorem run_append_of_ok {first : List ι} {regs regs' : Registers}
    (h : run step first regs = .ok regs') (second : List ι) :
    run step (first ++ second) regs = run step second regs' := by
  induction first generalizing regs with
  | nil =>
    cases h
    rfl
  | cons i rest ih =>
    rw [run] at h
    rw [List.cons_append, run]
    cases hi : step i regs with
    | error stop =>
      rw [hi] at h
      cases h
    | ok regs₁ =>
      rw [hi] at h
      exact ih h

theorem run_append_of_error {first : List ι} {regs : Registers} {stop : Stop}
    (h : run step first regs = .error stop) (second : List ι) :
    run step (first ++ second) regs = .error stop := by
  induction first generalizing regs with
  | nil => cases h
  | cons i rest ih =>
    rw [run] at h
    rw [List.cons_append, run]
    cases hi : step i regs with
    | error stop' =>
      rw [hi] at h
      exact h
    | ok regs₁ =>
      rw [hi] at h
      exact ih h

/-- What code does from the given registers: it ends in a divide error when there is no value, and
else it leaves the value in `dst` and every other register of `kept` as it was. -/
def Leaves (code : List ι) (regs : Registers) (dst : String) (kept : List String) :
    Option Int64 → Prop
  | none => run step code regs = .error .divideError
  | some v => ∃ regs', run step code regs = .ok regs' ∧ regs' dst = v ∧
      ∀ name ∈ kept, name ≠ dst → regs' name = regs name

/-- The code of constants and operations does what it should on the registers of a pool. -/
structure Implements (load : String → Int64 → List ι)
    (arith : BinOp → String → String → List ι)
    (apply : BinOp → Int64 → Int64 → Option Int64) (names : List String) : Prop where
  load : ∀ dst ∈ names, ∀ value regs, Leaves step (load dst value) regs dst names (some value)
  arith : ∀ op, ∀ left ∈ names, ∀ right ∈ names, left ≠ right → ∀ regs,
    Leaves step (arith op left right) regs left names (apply op (regs left) (regs right))

variable {step}

theorem Leaves.mono {code : List ι} {regs : Registers} {dst : String} {kept kept' : List String}
    {value : Option Int64} (h : Leaves step code regs dst kept' value) (hsub : kept ⊆ kept') :
    Leaves step code regs dst kept value := by
  cases value with
  | none => exact h
  | some v =>
    rcases h with ⟨regs', hrun, hv, hkept⟩
    exact ⟨regs', hrun, hv, fun name hname => hkept name (hsub hname)⟩

/-- Code that comes after code which kept the registers in question. -/
theorem Leaves.after {first second : List ι} {regs regs₁ : Registers} {dst : String}
    {kept kept' : List String} {value : Option Int64} (hrun : run step first regs = .ok regs₁)
    (hkept : ∀ name ∈ kept, name ≠ dst → regs₁ name = regs name) (hsub : kept ⊆ kept')
    (h : Leaves step second regs₁ dst kept' value) :
    Leaves step (first ++ second) regs dst kept value := by
  cases value with
  | none => exact (run_append_of_ok step hrun second).trans h
  | some v =>
    rcases h with ⟨regs₂, hrun₂, hv, hkept₂⟩
    refine ⟨regs₂, (run_append_of_ok step hrun second).trans hrun₂, hv, ?_⟩
    intro name hname hne
    exact (hkept₂ name (hsub hname) hne).trans (hkept name hname hne)

/-- Code whose effect depends only on the value that earlier code left behind. -/
theorem Leaves.trans {first second : List ι} {regs : Registers} {dst : String}
    {kept : List String} {v : Int64} {value : Option Int64}
    (hfirst : Leaves step first regs dst kept (some v))
    (hsecond : ∀ regs₁, regs₁ dst = v → Leaves step second regs₁ dst kept value) :
    Leaves step (first ++ second) regs dst kept value := by
  rcases hfirst with ⟨regs₁, hrun, hv, hkept⟩
  exact Leaves.after hrun hkept (List.Subset.refl kept) (hsecond regs₁ hv)

theorem Leaves.of_step {i : ι} {regs : Registers} {dst : String} {v : Int64}
    (h : step i regs = .ok (Function.update regs dst v)) (kept : List String) :
    Leaves step [i] regs dst kept (some v) := by
  refine ⟨Function.update regs dst v, ?_, Function.update_self dst v regs, ?_⟩
  · rw [run, h]
    rfl
  · intro name _ hne
    exact Function.update_of_ne hne v regs

theorem getD_mem {names : List String} {k : Nat} (hk : k < names.length) :
    names.getD k "" ∈ names := by
  simp [hk]

theorem getD_mem_take {names : List String} {k : Nat} (hk : k < names.length) :
    names.getD k "" ∈ names.take (k + 1) :=
  List.mem_take_iff_getElem.2 ⟨k, by omega, by simp [hk]⟩

theorem getD_ne_of_mem_take {names : List String} (hn : names.Nodup) {k : Nat}
    (hk : k < names.length) {name : String} (hname : name ∈ names.take k) :
    name ≠ names.getD k "" := by
  rcases List.mem_take_iff_getElem.1 hname with ⟨j, hj, rfl⟩
  have hjk : j < k := by omega
  have h := List.pairwise_iff_getElem.1 hn j k (by omega) hk hjk
  simpa [hk] using h

/-- The code of an operation at level `k`: the left operand, which is kept while the right one is
computed one level up, and then the operation itself on both. -/
theorem Leaves.binary {first second third : List ι} {regs : Registers} {names : List String}
    {k : Nat} (hn : names.Nodup) (hk : k + 1 < names.length) {left right : Option Int64}
    {apply : Int64 → Int64 → Option Int64}
    (hfirst : Leaves step first regs (names.getD k "") (names.take k) left)
    (hsecond : ∀ regs, Leaves step second regs (names.getD (k + 1) "") (names.take (k + 1)) right)
    (hthird : ∀ regs, Leaves step third regs (names.getD k "") (names.take k)
      (apply (regs (names.getD k "")) (regs (names.getD (k + 1) "")))) :
    Leaves step (first ++ second ++ third) regs (names.getD k "") (names.take k)
      (left.bind fun a => right.bind (apply a)) := by
  rw [List.append_assoc]
  cases left with
  | none => exact run_append_of_error step hfirst _
  | some a =>
    rcases hfirst with ⟨regs₁, hrun₁, ha, hkept₁⟩
    refine Leaves.after hrun₁ hkept₁ (List.Subset.refl _) ?_
    have hr := hsecond regs₁
    cases right with
    | none => exact run_append_of_error step hr _
    | some b =>
      rcases hr with ⟨regs₂, hrun₂, hb, hkept₂⟩
      have hne : names.getD k "" ≠ names.getD (k + 1) "" :=
        getD_ne_of_mem_take hn hk (getD_mem_take (by omega))
      have ha₂ : regs₂ (names.getD k "") = a :=
        (hkept₂ _ (getD_mem_take (by omega)) hne).trans ha
      have hop := hthird regs₂
      rw [ha₂, hb] at hop
      refine Leaves.after hrun₂ ?_ (List.Subset.refl _) hop
      intro name hname _
      have hname' : name ∈ names.take (k + 1) :=
        (List.take_subset_take_left names (Nat.le_succ k)) hname
      exact hkept₂ name hname' (getD_ne_of_mem_take hn hk hname')

/-- Post-order code at level `k` runs to the value of its tree, when constants are right at every
level and operations are right at the levels at which they occur. The invariant is that the registers
below level `k`, which hold the left operands still waiting, are never written. -/
theorem leaves_postorder {load : String → Int64 → List ι}
    {arith : BinOp → String → String → List ι} {apply : BinOp → Int64 → Int64 → Option Int64}
    {names : List String} {P : BinOp → Nat → Prop} (hn : names.Nodup)
    (hload : ∀ k < names.length, ∀ value regs,
      Leaves step (load (names.getD k "") value) regs (names.getD k "") (names.take k) (some value))
    (harith : ∀ op k, k + 1 < names.length → P op k → ∀ regs,
      Leaves step (arith op (names.getD k "") (names.getD (k + 1) "")) regs (names.getD k "")
        (names.take k) (apply op (regs (names.getD k "")) (regs (names.getD (k + 1) ""))))
    (e : Expr) (k : Nat) (hk : k + e.need ≤ names.length) (hlevels : e.Levels P k)
    (regs : Registers) :
    Leaves step (e.postorder load arith names k) regs (names.getD k "") (names.take k)
      (e.evalWith apply) := by
  induction e generalizing k regs with
  | literal value => exact hload k hk value regs
  | binary op left right ihl ihr =>
    rcases hlevels with ⟨hop, hleft, hright⟩
    rw [Expr.need] at hk
    have hpos := right.need_pos
    rw [Expr.postorder, Expr.evalWith_binary]
    exact Leaves.binary hn (by omega) (ihl k (by omega) hleft regs)
      (ihr (k + 1) (by omega) hright) (harith op k (by omega) hop)

/-- On a machine that implements the target, all operations are right at every level. -/
theorem Implements.leaves_postorder {load : String → Int64 → List ι}
    {arith : BinOp → String → String → List ι} {apply : BinOp → Int64 → Int64 → Option Int64}
    {names : List String} (h : Implements step load arith apply names) (hn : names.Nodup)
    (e : Expr) (k : Nat) (hk : k + e.need ≤ names.length) (regs : Registers) :
    Leaves step (e.postorder load arith names k) regs (names.getD k "") (names.take k)
      (e.evalWith apply) := by
  have hlevels : e.Levels (fun _ _ => True) k := Expr.levels_of_need (fun _ _ _ => trivial) e k hk
  refine Machine.leaves_postorder hn ?_ ?_ e k hk hlevels regs
  · intro k hk value regs
    exact (h.load _ (getD_mem hk) value regs).mono (List.take_subset k names)
  · intro op k hk _ regs
    have hne : names.getD k "" ≠ names.getD (k + 1) "" :=
      getD_ne_of_mem_take hn hk (getD_mem_take (by omega))
    exact (h.arith op _ (getD_mem (by omega)) _ (getD_mem hk) hne regs).mono
      (List.take_subset k names)

theorem map_postorder {α β : Type} (f : α → β) (load : String → Int64 → List α)
    (arith : BinOp → String → String → List α) (names : List String) (e : Expr) (k : Nat) :
    (e.postorder load arith names k).map f =
      e.postorder (fun dst value => (load dst value).map f)
        (fun op left right => (arith op left right).map f) names k := by
  induction e generalizing k with
  | literal value => rfl
  | binary op left right ihl ihr =>
    simp only [Expr.postorder, List.map_append, ihl, ihr]

theorem mem_postorder {α : Type} {load : String → Int64 → List α}
    {arith : BinOp → String → String → List α} {names : List String} {P : α → Prop}
    (hload : ∀ dst ∈ names, ∀ value, ∀ i ∈ load dst value, P i)
    (harith : ∀ op, ∀ left ∈ names, ∀ right ∈ names, ∀ i ∈ arith op left right, P i)
    (e : Expr) (k : Nat) (hk : k + e.need ≤ names.length) :
    ∀ i ∈ e.postorder load arith names k, P i := by
  induction e generalizing k with
  | literal value => exact hload _ (getD_mem hk) value
  | binary op left right ihl ihr =>
    rw [Expr.need] at hk
    have hpos := right.need_pos
    intro i hi
    rw [Expr.postorder, List.mem_append, List.mem_append] at hi
    rcases hi with (hi | hi) | hi
    · exact ihl k (by omega) i hi
    · exact ihr (k + 1) (by omega) i hi
    · exact harith op _ (getD_mem (by omega)) _ (getD_mem (by omega)) i hi

/-- A target whose lines are the texts of instructions. -/
structure Writes (t : Target) (text : ι → String) (load : String → Int64 → List ι)
    (arith : BinOp → String → String → List ι) : Prop where
  load : ∀ dst value, t.load dst value = (load dst value).map text
  arith : ∀ op, t.arith op = some fun left right => (arith op left right).map text

theorem Writes.code_eq {t : Target} {text : ι → String} {load : String → Int64 → List ι}
    {arith : BinOp → String → String → List ι} (h : Writes t text load arith)
    (names : List String) (e : Expr) (k : Nat) :
    t.code names e k = (e.postorder load arith names k).map text := by
  have hload : t.load = fun dst value => (load dst value).map text := by
    funext dst value
    exact h.load dst value
  have harith : t.arithLines = fun op left right => (arith op left right).map text := by
    funext op left right
    rw [Target.arithLines, h.arith]
  rw [Target.code, hload, harith, map_postorder]

/-- What holds of the target's own registers and of those that replace them holds of the pool. -/
theorem forall_mem_pool {P : String → Prop} {registers : Option (List String)} (own : List String)
    (hown : ∀ name ∈ own, P name) (h : ∀ names ∈ registers, ∀ name ∈ names, P name) :
    ∀ name ∈ (registers.getD own).eraseDups, P name := by
  intro name hname
  rw [List.mem_eraseDups] at hname
  cases registers with
  | none => exact hown name hname
  | some names => exact h names rfl name hname

/-- A whole program on a machine that implements its target: its lines are the texts of
instructions, which leave the value of the tree in the register that the generator returned. -/
theorem Writes.program {t : Target} {text : ι → String} {load : String → Int64 → List ι}
    {arith : BinOp → String → String → List ι} (h : Writes t text load arith) {P : ι → Prop}
    {apply : BinOp → Int64 → Int64 → Option Int64} {registers : Option (List String)}
    (himp : Implements step load arith apply (registers.getD t.registers).eraseDups)
    (hload : ∀ dst ∈ (registers.getD t.registers).eraseDups, ∀ value, ∀ i ∈ load dst value, P i)
    (harith : ∀ op, ∀ left ∈ (registers.getD t.registers).eraseDups,
      ∀ right ∈ (registers.getD t.registers).eraseDups, ∀ i ∈ arith op left right, P i)
    {e : Expr} {lines : List String} (hemit : t.emit e registers = .ok lines) :
    ∃ (instrs : List ι) (result : Register),
      lines = t.preamble ++ instrs.map text ++ t.postamble ∧ (∀ i ∈ instrs, P i) ∧
        ((Assembly.start t registers).generate t e).1 = .ok result ∧
        ∀ regs, Leaves step instrs regs result.name [] (e.evalWith apply) := by
  have ht : ∀ op, t.arith op ≠ none := fun op => by simp [h.arith op]
  rcases Target.emit_ok ht hemit with ⟨hneed, hlines, hgen⟩
  refine ⟨_, _, ?_, ?_, hgen, fun regs => himp.leaves_postorder (nodup_eraseDups _) e 0 ?_ regs⟩
  · rw [hlines, h.code_eq]
  · exact mem_postorder hload harith e 0 (by omega)
  · omega

end Machine

end ArithCompiler
