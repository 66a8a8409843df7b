import ArithCompiler.Codegen.Generate

/-! # The register pool as a stack

The pool hands out the first free register, and post-order code gives registers back in the
opposite order. The registers in use are therefore always the first ones of the pool, and the whole
program can be written down without a pool: the code of a tree at level `k` leaves its value in
register `k` and uses no register below.
-/

namespace ArithCompiler

/-- The number of registers that a tree needs, when the left operand of an operation waits while
the right one is computed. -/
def Expr.need : Expr → Nat
  | literal _ => 1
  | binary _ left right => max left.need (1 + right.need)

theorem Expr.need_pos (e : Expr) : 0 < e.need := by
  induction e with
  | literal value => exact Nat.one_pos
  | binary op left right ihl ihr =>
    rw [need]
    omega

/-- Post-order code at level `k`, where `load` and `arith` give the code of constants and of
operations on named registers. -/
def Expr.postorder {α : Type} (load : String → Int64 → List α)
    (arith : BinOp → String → String → List α) (names : List String) : Expr → Nat → List α
  | literal value, k => load (names.getD k "") value
  | binary op left right, k =>
    left.postorder load arith names k ++ right.postorder load arith names (k + 1) ++
      arith op (names.getD k "") (names.getD (k + 1) "")

/-- The lines of an operation, none where the target lacks it. -/
def Target.arithLines (t : Target) (op : BinOp) (left right : String) : List String :=
  match t.arith op with
  | none => []
  | some lines => lines left right

/-- The lines of a tree at level `k`, with the given registers. -/
def Target.code (t : Target) (names : List String) (e : Expr) (k : Nat) : List String :=
  e.postorder t.load t.arithLines names k

namespace Pool

theorem eq_of_slots {p q : Pool} (h : p.slots = q.slots) : p = q := by
  cases p
  cases q
  simpa using h

theorem length_names (p : Pool) : p.names.length = p.size := List.length_map _

theorem map_name_mapIdx (slots : List Slot) (free : Nat → Bool) :
    (slots.mapIdx fun i slot => { slot with free := free i }).map Slot.name =
      slots.map Slot.name := by
  apply List.ext_getElem?
  intro i
  cases h : slots[i]? <;> simp [h]

/-- The same registers, of which exactly the first `k` are in use. -/
def holding (p : Pool) (k : Nat) : Pool where
  slots := p.slots.mapIdx fun i slot => { slot with free := decide (k ≤ i) }
  distinct := by
    rw [map_name_mapIdx]
    exact p.distinct

/-- The handle of the register at place `k`. -/
def register (p : Pool) (k : Nat) : Register := ⟨k, p.names.getD k ""⟩

theorem getElem?_holding (p : Pool) (k i : Nat) :
    (p.holding k).slots[i]? = p.slots[i]?.map fun slot => { slot with free := decide (k ≤ i) } := by
  simp [holding]

theorem getElem_holding (p : Pool) (k i : Nat) (hi : i < p.slots.length)
    (hi' : i < (p.holding k).slots.length) :
    (p.holding k).slots[i] = { p.slots[i] with free := decide (k ≤ i) } := by
  simp [holding]

theorem length_holding (p : Pool) (k : Nat) : (p.holding k).slots.length = p.size := by
  simp [size, holding]

theorem releaseAll_eq_holding (p : Pool) : p.releaseAll = p.holding 0 := by
  apply eq_of_slots
  apply List.ext_getElem?
  intro i
  rw [getElem?_holding]
  simp [releaseAll]

/-- Setting the one flag in which two stacks differ leads from one to the other. -/
theorem mark_holding (p : Pool) {k j m : Nat} {free : Bool} (hm : free = decide (j ≤ m))
    (h : ∀ i, i ≠ m → (k ≤ i ↔ j ≤ i)) : (p.holding k).mark m free = p.holding j := by
  apply eq_of_slots
  apply List.ext_getElem?
  intro i
  rw [mark, List.getElem?_modify, getElem?_holding, getElem?_holding]
  by_cases him : m = i
  · subst i
    simp [Option.map_map, Function.comp_def, hm]
  · simp [him, h i (Ne.symm him)]

/-- While `k` registers are held, the next one handed out is register `k`. -/
theorem allocate_holding (p : Pool) (k : Nat) :
    (p.holding k).allocate =
      if k < p.size then .ok (p.register k, p.holding (k + 1)) else .error .exhausted := by
  have hlen : (p.holding k).slots.length = p.slots.length := p.length_holding k
  by_cases hk : k < p.slots.length
  · have hfind : (p.holding k).slots.findFinIdx? (·.free) = some ⟨k, hlen ▸ hk⟩ := by
      rw [List.findFinIdx?_eq_some_iff]
      constructor
      · rw [Fin.getElem_fin, p.getElem_holding k k hk]
        simp
      · rintro ⟨j, hj⟩ hjk
        have hlt : j < k := hjk
        rw [Fin.getElem_fin, p.getElem_holding k j (hlen ▸ hj)]
        simpa using hlt
    have hmark : (p.holding k).mark k false = p.holding (k + 1) :=
      p.mark_holding (by simp) (fun i hi => by omega)
    rw [allocate, hfind, size, if_pos hk]
    simp only [hmark, Fin.getElem_fin, p.getElem_holding k k hk]
    simp [register, names, hk]
  · have hfind : (p.holding k).slots.findFinIdx? (·.free) = none := by
      rw [List.findFinIdx?_eq_none_iff]
      intro slot hslot
      rcases List.mem_iff_getElem.1 hslot with ⟨i, hi, rfl⟩
      have hlt : i < k := by omega
      rw [p.getElem_holding k i (hlen ▸ hi)]
      simpa using hlt
    rw [allocate, hfind, size, if_neg hk]

/-- The register on top of the stack is in use. -/
theorem slot?_holding (p : Pool) (k : Nat) (hk : k < p.size) :
    (p.holding (k + 1)).slot? (p.register k) = some ⟨(p.register k).name, false⟩ := by
  have hk' : k < p.slots.length := hk
  simp [slot?, getElem?_holding, register, names, hk']

/-- The register on top of the stack can be given back. -/
theorem release_holding (p : Pool) (k : Nat) (hk : k < p.size) :
    (p.holding (k + 1)).release (p.register k) = .ok (p.holding k) := by
  have hmark : (p.holding (k + 1)).mark k true = p.holding k :=
    p.mark_holding (by simp) (fun i hi => by omega)
  rw [release, p.slot?_holding k hk]
  simp [register, hmark]

end Pool

namespace Assembly

variable (t : Target) (p : Pool)

theorem append_lines_append (lines : Array String) (first second : List String) :
    lines ++ (first ++ second) = lines ++ first ++ second := by
  apply Array.toList_inj.1
  simp

/-- Constants go to the next register, or nowhere. -/
theorem load_holding (value : Int64) (k : Nat) (lines : Array String) :
    load t value ⟨p.holding k, lines⟩ =
      if k < p.size then
        (.ok (p.register k), ⟨p.holding (k + 1), lines ++ t.load (p.register k).name value⟩)
      else (.error (.register .exhausted), ⟨p.holding k, lines⟩) := by
  rw [load, p.allocate_holding k]
  by_cases hk : k < p.size
  · rw [if_pos hk, if_pos hk]
    rfl
  · rw [if_neg hk, if_neg hk]

/-- An operation on the two topmost registers leaves its result in the lower one. -/
theorem arith_holding (op : BinOp) (k : Nat) (hk : k + 1 < p.size) (lines : Array String) :
    arith t op (p.register k) (p.register (k + 1)) ⟨p.holding (k + 2), lines⟩ =
      match t.arith op with
      | none => (.error (.unknownOperator op), ⟨p.holding (k + 2), lines⟩)
      | some code => (.ok (p.register k),
          ⟨p.holding (k + 1), lines ++ code (p.register k).name (p.register (k + 1)).name⟩) := by
  rw [arith]
  cases t.arith op with
  | none => rfl
  | some code => simp only [append, p.release_holding (k + 1) hk]

/-- The code of a tree that was compiled at level `k`: its value is in register `k`, that register
is the only new one in use, and the lines are those of the pool-free code. -/
theorem expression_ok (e : Expr) (k : Nat) (lines : Array String) {r : Register} {a : Assembly}
    (h : expression t e ⟨p.holding k, lines⟩ = (.ok r, a)) :
    k < p.size ∧ r = p.register k ∧ a = ⟨p.holding (k + 1), lines ++ t.code p.names e k⟩ := by
  induction e generalizing k lines r a with
  | literal value =>
    rw [expression, load_holding] at h
    split at h
    · next hk =>
      cases h
      exact ⟨hk, rfl, rfl⟩
    · cases h
  | binary op left right ihl ihr =>
    rw [expression] at h
    split at h
    · cases h
    · next l a₁ hl =>
      rcases ihl k lines hl with ⟨hk, rfl, rfl⟩
      split at h
      · cases h
      · next r a₂ hr =>
        rcases ihr (k + 1) _ hr with ⟨hk', rfl, rfl⟩
        rw [arith_holding t p op k hk'] at h
        split at h
        · cases h
        · next code hcode =>
          cases h
          refine ⟨hk, rfl, ?_⟩
          simp only [Target.code, Expr.postorder, Target.arithLines, hcode, Pool.register,
            append_lines_append]

/-- Whether a tree can be compiled at level `k` depends only on the number of registers it needs. -/
theorem expression_fst (ht : ∀ op, t.arith op ≠ none) (e : Expr) (k : Nat)
    (lines : Array String) :
    (expression t e ⟨p.holding k, lines⟩).1 =
      if k + e.need ≤ p.size then .ok (p.register k) else .error (.register .exhausted) := by
  induction e generalizing k lines with
  | literal value =>
    rw [expression, load_holding, Expr.need]
    by_cases hk : k < p.size
    · rw [if_pos hk, if_pos (Nat.succ_le_of_lt hk)]
    · rw [if_neg hk, if_neg (by omega)]
  | binary op left right ihl ihr =>
    have hl := ihl k lines
    rw [expression, Expr.need]
    split
    · next e' a' he =>
      rw [he] at hl
      split at hl
      · cases hl
      · rw [if_neg (by omega)]
        exact hl
    · next l a₁ he =>
      have hneed : k + left.need ≤ p.size := by
        rw [he] at hl
        split at hl
        · assumption
        · cases hl
      rcases expression_ok t p left k lines he with ⟨hk, rfl, rfl⟩
      have hr := ihr (k + 1) (lines ++ t.code p.names left k)
      split
      · next e' a' he' =>
        rw [he'] at hr
        split at hr
        · cases hr
        · rw [if_neg (by omega)]
          exact hr
      · next r a₂ he' =>
        rcases expression_ok t p right (k + 1) _ he' with ⟨hk', rfl, rfl⟩
        have hneed' : k + 1 + right.need ≤ p.size := by
          rw [he'] at hr
          split at hr
          · assumption
          · cases hr
        rw [arith_holding t p op k hk', if_pos (by omega)]
        cases hcode : t.arith op with
        | none => exact absurd hcode (ht op)
        | some code => rfl

theorem reset_append (a : Assembly) (lines : List String) :
    a.reset.append lines = ⟨a.pool.holding 0, lines.toArray⟩ := by
  simp [reset, append, Pool.releaseAll_eq_holding]

/-- A run of the generator on a target with all operations: it fails when the tree needs more
registers than there are, and else it writes the three parts of the program and returns the first
register. -/
theorem generate_cases (ht : ∀ op, t.arith op ≠ none) (e : Expr) (a : Assembly) :
    (a.pool.size < e.need ∧ (generate t e a).1 = .error (.register .exhausted)) ∨
      (e.need ≤ a.pool.size ∧ generate t e a = (.ok (a.pool.register 0),
        ⟨a.pool.holding 1, (t.preamble ++ t.code a.pool.names e 0 ++ t.postamble).toArray⟩)) := by
  have hfst := expression_fst t a.pool ht e 0 t.preamble.toArray
  rw [generate, reset_append]
  rcases hx : expression t e ⟨a.pool.holding 0, t.preamble.toArray⟩ with ⟨err | r, b⟩
  · rw [hx] at hfst
    split at hfst
    · cases hfst
    · exact .inl ⟨by omega, hfst⟩
  · rw [hx] at hfst
    split at hfst
    · rcases expression_ok t a.pool e 0 _ hx with ⟨-, rfl, rfl⟩
      refine .inr ⟨by omega, ?_⟩
      simp [append]
    · cases hfst

end Assembly

/-- The program of a tree on a target with all operations. -/
theorem Target.emit_eq (t : Target) (ht : ∀ op, t.arith op ≠ none) (e : Expr)
    (registers : Option (List String)) :
    t.emit e registers =
      if e.need ≤ (registers.getD t.registers).eraseDups.length then
        .ok (t.preamble ++ t.code (registers.getD t.registers).eraseDups e 0 ++ t.postamble)
      else .error (.register .exhausted) := by
  have hnames : (Assembly.start t registers).pool.names = (registers.getD t.registers).eraseDups :=
    Pool.names_ofNames _
  rw [← hnames, Pool.length_names, Target.emit]
  rcases Assembly.generate_cases t ht e (Assembly.start t registers) with ⟨hlt, hfst⟩ | ⟨hle, heq⟩
  · rw [if_neg (by omega)]
    split
    · next hx => simp [hx] at hfst
    · next hx =>
      rw [hx] at hfst
      cases hfst
      rfl
  · rw [if_pos hle, heq]

/-- What a successful run says: there were enough registers, and the result is in the first one. -/
theorem Target.emit_ok {t : Target} (ht : ∀ op, t.arith op ≠ none) {e : Expr}
    {registers : Option (List String)} {lines : List String} (h : t.emit e registers = .ok lines) :
    let names := (registers.getD t.registers).eraseDups
    e.need ≤ names.length ∧ lines = t.preamble ++ t.code names e 0 ++ t.postamble ∧
      ((Assembly.start t registers).generate t e).1 = .ok ⟨0, names.getD 0 ""⟩ := by
  intro names
  have hnames : (Assembly.start t registers).pool.names = names := Pool.names_ofNames _
  have hlen : (Assembly.start t registers).pool.size = names.length := by
    rw [← hnames, Pool.length_names]
  have heq := t.emit_eq ht e registers
  rw [h] at heq
  split at heq
  · next hneed =>
    refine ⟨hneed, Except.ok.inj heq, ?_⟩
    rcases Assembly.generate_cases t ht e (Assembly.start t registers) with ⟨hlt, -⟩ | ⟨-, hgen⟩
    · rw [hlen] at hlt
      exact absurd hneed (Nat.not_le_of_lt hlt)
    · rw [hgen, Pool.register, hnames]
  · cases heq

theorem Arch.arith_ne_none (arch : Arch) (op : BinOp) : arch.target.arith op ≠ none := by
  cases arch <;> simp [Arch.target, AArch64.target, X8664.target]

end ArithCompiler
