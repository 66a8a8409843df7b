import ArithCompiler.Proofs.Codegen.Stack
import ArithCompiler.Proofs.Expr.Chain
import Mathlib.Data.List.Chain

/-! # The registers that a source needs

The tree of a chain leans to the left: the right operand of `*` and `/` is a literal, and the right
operand of the signs `+` and `-` is a product. Two registers are therefore enough for a product and
three for a sum of any length, and a sum does with two exactly when every product after a sign is a
single literal.
-/

namespace ArithCompiler

namespace Expr

/-- A literal that is multiplied and divided by literals. -/
inductive IsProduct : Expr → Prop
  | literal (value : Int64) : IsProduct (literal value)
  | factor {op : BinOp} {left : Expr} (hop : op.isFactor = true) (hl : IsProduct left)
      (value : Int64) : IsProduct (binary op left (literal value))

/-- A product to which products are added and from which they are subtracted. -/
inductive IsSum : Expr → Prop
  | product {e : Expr} (h : IsProduct e) : IsSum e
  | summand {op : BinOp} {left right : Expr} (hop : op.isFactor = false) (hl : IsSum left)
      (hr : IsProduct right) : IsSum (binary op left right)

theorem isProduct_products {first : Expr} (h : first.IsProduct) (ops : List (BinOp × Int64)) :
    (products first ops).1.IsProduct := by
  induction ops generalizing first with
  | nil => exact h
  | cons step ops ih =>
    cases hf : step.1.isFactor with
    | true =>
      rw [products, if_pos hf]
      exact ih (.factor hf h step.2)
    | false => simpa [products, hf] using h

theorem isSum_join {left : Expr} (h : left.IsSum) {steps : List (BinOp × Expr)}
    (hsteps : ∀ step ∈ steps, step.1.isFactor = false ∧ step.2.IsProduct) :
    (left.join steps).IsSum := by
  induction steps generalizing left with
  | nil => exact h
  | cons step steps ih =>
    obtain ⟨⟨hop, hright⟩, hlater⟩ := List.forall_mem_cons.1 hsteps
    exact ih (.summand hop h hright) hlater

/-- The products after the first one, with the signs before them. -/
theorem isProduct_of_mem_products (first : Expr) (ops : List (BinOp × Int64)) :
    ∀ step ∈ (products first ops).2, step.1.isFactor = false ∧ step.2.IsProduct := by
  induction ops generalizing first with
  | nil => simp [products]
  | cons step ops ih =>
    cases hf : step.1.isFactor with
    | true =>
      rw [products, if_pos hf]
      exact ih _
    | false =>
      simp only [products, hf, Bool.false_eq_true, if_false, List.forall_mem_cons, true_and]
      exact ⟨isProduct_products (.literal step.2) ops, ih _⟩

/-- The shape of every tree that a chain stands for. -/
theorem isSum_ofChain (first : Int64) (ops : List (BinOp × Int64)) : (ofChain first ops).IsSum :=
  isSum_join (.product (isProduct_products (.literal first) ops))
    (isProduct_of_mem_products (literal first) ops)

theorem IsProduct.need_le {e : Expr} (h : e.IsProduct) : e.need ≤ 2 := by
  induction h with
  | literal value => exact Nat.le_succ 1
  | factor hop hl value ih =>
    rw [need, need]
    omega

theorem IsSum.need_le {e : Expr} (h : e.IsSum) : e.need ≤ 3 := by
  induction h with
  | product h => exact Nat.le_succ_of_le h.need_le
  | summand hop hl hr ih =>
    have := hr.need_le
    rw [need]
    omega

theorem need_le_one_iff {e : Expr} : e.need ≤ 1 ↔ e.isLeaf = true := by
  cases e with
  | literal value => simp [need, isLeaf]
  | binary op left right =>
    have := right.need_pos
    simp only [need, isLeaf, Bool.false_eq_true, iff_false]
    omega

/-- The right operand of every `+` and `-` is a single literal. -/
def PlainSums : Expr → Prop
  | literal _ => True
  | binary op left right =>
    left.PlainSums ∧ right.PlainSums ∧ (op.isFactor = false → right.isLeaf = true)

theorem IsProduct.plainSums {e : Expr} (h : e.IsProduct) : e.PlainSums := by
  induction h with
  | literal value => trivial
  | factor hop hl value ih => exact ⟨ih, trivial, fun _ => rfl⟩

theorem IsSum.need_le_two_iff {e : Expr} (h : e.IsSum) : e.need ≤ 2 ↔ e.PlainSums := by
  induction h with
  | product h => exact iff_of_true h.need_le h.plainSums
  | summand hop hl hr ih =>
    simp only [PlainSums, ← ih, hr.plainSums, hop, ← need_le_one_iff, need, true_and, true_implies]
    omega

end Expr

/-- No `+` or `-` is followed by a product of more than one literal: the operator after it is again
`+` or `-`. -/
def PlainSummands (ops : List (BinOp × Int64)) : Prop :=
  ops.IsChain fun step next => step.1.isFactor = false → next.1.isFactor = false

theorem plainSummands_cons {step : BinOp × Int64} {ops : List (BinOp × Int64)} :
    PlainSummands (step :: ops) ↔
      (step.1.isFactor = false → ∀ next ∈ ops.head?, next.1.isFactor = false) ∧
        PlainSummands ops := by
  rw [PlainSummands, List.isChain_cons]
  constructor
  · rintro ⟨hhead, hchain⟩
    exact ⟨fun hf next hnext => hhead next hnext hf, hchain⟩
  · rintro ⟨hhead, hchain⟩
    exact ⟨fun next hnext hf => hhead hf next hnext, hchain⟩

namespace Expr

theorem plainSums_of_join {left : Expr} {steps : List (BinOp × Expr)}
    (h : (left.join steps).PlainSums) : left.PlainSums := by
  induction steps generalizing left with
  | nil => exact h
  | cons step steps ih => exact (ih h).1

theorem height_eq_zero_of_isLeaf {e : Expr} (h : e.isLeaf = true) : e.height = 0 := by
  cases e with
  | literal value => rfl
  | binary op left right => cases h

/-- The first product is a single literal only when no factor comes first. -/
theorem head_of_isLeaf_products {value : Int64} {ops : List (BinOp × Int64)}
    (h : (products (literal value) ops).1.isLeaf = true) :
    ∀ step ∈ ops.head?, step.1.isFactor = false := by
  cases ops with
  | nil => simp
  | cons step ops =>
    cases hf : step.1.isFactor with
    | false => simpa using hf
    | true =>
      have hheight := height_le_products (binary step.1 (literal value) (literal step.2)) ops
      rw [products, if_pos hf] at h
      rw [height_eq_zero_of_isLeaf h] at hheight
      simp [height] at hheight

theorem plainSums_grow_iff {left : Expr} (h : left.PlainSums) (ops : List (BinOp × Int64)) :
    (left.grow ops).PlainSums ↔ PlainSummands ops := by
  induction ops generalizing left with
  | nil => exact iff_of_true h .nil
  | cons step ops ih =>
    have hnode : (binary step.1 left (literal step.2)).PlainSums := ⟨h, trivial, fun _ => rfl⟩
    rw [plainSummands_cons, ← ih hnode]
    cases hf : step.1.isFactor with
    | true => simp [grow_factor left step.2 ops hf]
    | false =>
      rw [grow_summand left step.2 ops hf]
      by_cases hhead : ∀ next ∈ ops.head?, next.1.isFactor = false
      · rw [products_of_head hhead, ← grow_of_head _ _ hhead]
        exact ⟨fun hplain => ⟨fun _ => hhead, hplain⟩, And.right⟩
      · -- The factor after the literal puts a product on the right of the sign.
        apply iff_of_false
        · intro hplain
          exact hhead (head_of_isLeaf_products ((plainSums_of_join hplain).2.2 hf))
        · intro hchain
          exact hhead (hchain.1 rfl)

theorem plainSums_ofChain_iff (first : Int64) (ops : List (BinOp × Int64)) :
    (ofChain first ops).PlainSums ↔ PlainSummands ops :=
  plainSums_grow_iff (IsProduct.literal first).plainSums ops

end Expr

/-- Code is generated exactly when there are as many registers as the tree needs. -/
theorem emit_isOk_iff (e : Expr) (arch : Arch) (registers : Option (List String)) :
    (∃ lines, emit e arch registers = .ok lines) ↔
      e.need ≤ (registers.getD arch.target.registers).eraseDups.length := by
  rw [emit, arch.target.emit_eq arch.arith_ne_none]
  split <;> simp_all

/-- Accepted sources do not run out of registers: three are enough for any of them, so the target's
own are, and two are enough exactly for those in which the operand after each `+` and `-` is a
single literal. -/
theorem emit_parsed {σ : Type} [TokenSource σ] {tokens rest : σ} {t : Expr}
    (h : parse tokens = (.ok t, rest)) (arch : Arch) :
    (∀ registers : Option (List String),
      3 ≤ (registers.getD arch.target.registers).eraseDups.length →
        ∃ lines, emit t arch registers = .ok lines) ∧
      (∃ lines, emit t arch none = .ok lines) ∧
      ∃ first ops last, Begins 0 tokens first ops last rest ∧ (PlainSummands ops ↔ t.PlainSums) ∧
        ∀ registers : Option (List String),
          (registers.getD arch.target.registers).eraseDups.length = 2 →
            ((∃ lines, emit t arch registers = .ok lines) ↔ PlainSummands ops) := by
  obtain ⟨first, ops, last, hbegins, rfl, -⟩ := parse_eq_ok_iff.1 h
  have hsum := Expr.isSum_ofChain first ops
  have hplain := Expr.plainSums_ofChain_iff first ops
  have hthree (registers : Option (List String))
      (hlen : 3 ≤ (registers.getD arch.target.registers).eraseDups.length) :
      ∃ lines, emit (.ofChain first ops) arch registers = .ok lines :=
    (emit_isOk_iff _ arch registers).2 (Nat.le_trans hsum.need_le hlen)
  have hown : 3 ≤ arch.target.registers.eraseDups.length := by cases arch <;> decide
  refine ⟨hthree, hthree none hown, first, ops, last, hbegins, hplain.symm, ?_⟩
  intro registers hlen
  rw [emit_isOk_iff, hlen, hsum.need_le_two_iff, hplain]

/-- A product after `+` needs the third register. -/
theorem emit_parsed_product :
    let token (value : Token) : Located Token := ⟨value, .single {}⟩
    let source : Replay := ⟨token (.literal 1), [token .plus, token (.literal 2), token .star,
      token (.literal 3), token .eof]⟩
    ∃ t rest, parse source = (.ok t, rest) ∧ (∃ lines, emit t .x8664 none = .ok lines) ∧
      (∃ lines, emit t .x8664 (some ["r12", "r13", "r12", "r14"]) = .ok lines) ∧
      ¬ ∃ lines, emit t .x8664 (some ["r12", "r13", "r12"]) = .ok lines := by
  intro token source
  have h : parse source = (.ok (.binary .add (.literal 1) (.binary .mul (.literal 2) (.literal 3))),
      ⟨token .eof, []⟩) := by cbv
  obtain ⟨hthree, hown, first, ops, last, -, hplain, htwo⟩ := emit_parsed h .x8664
  have hnot : ¬ PlainSummands ops := by
    rw [hplain]
    simp [Expr.PlainSums, Expr.isLeaf, BinOp.isFactor]
  refine ⟨_, _, h, hown, hthree _ (by decide), ?_⟩
  intro hlines
  exact hnot ((htwo _ (by decide)).1 hlines)

end ArithCompiler
