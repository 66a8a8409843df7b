import ArithCompiler.Expr.Parse

/-! # Chains of operands and the trees they stand for

A chain is a literal and a list of operators, each with the literal after it. Its tree is built in
two rounds: the runs of `*` and `/` are folded to the left into products, then the products are
folded to the left by `+` and `-`. The parser builds the same tree from any token source, as far as
the operators bind tighter than its limit, and its depth counter is the height of the tree.
-/

namespace ArithCompiler

/-- Whether the operator joins the factors of one product. -/
def BinOp.isFactor : BinOp → Bool
  | mul | div => true
  | add | sub => false

theorem BinOp.precedence_lt_iff {op other : BinOp} :
    op.precedence < other.precedence ↔ op.isFactor = false ∧ other.isFactor = true := by
  cases op <;> cases other <;> decide

namespace Expr

/-- Operands joined to `left` from the left. -/
def join (left : Expr) (steps : List (BinOp × Expr)) : Expr :=
  steps.foldl (fun left step => binary step.1 left step.2) left

/-- The first product of a chain, begun by `first`, and the later ones with the operators before
them. -/
def products (first : Expr) : List (BinOp × Int64) → Expr × List (BinOp × Expr)
  | [] => (first, [])
  | (op, value) :: ops =>
    if op.isFactor then products (binary op first (literal value)) ops
    else (first, (op, (products (literal value) ops).1) :: (products (literal value) ops).2)

/-- A left operand extended by the operators and literals that follow it. -/
def grow (left : Expr) (ops : List (BinOp × Int64)) : Expr :=
  (products left ops).1.join (products left ops).2

/-- The tree of a chain. -/
def ofChain (first : Int64) (ops : List (BinOp × Int64)) : Expr := (literal first).grow ops

theorem height_le_join (left : Expr) (steps : List (BinOp × Expr)) :
    left.height ≤ (left.join steps).height := by
  induction steps generalizing left with
  | nil => exact Nat.le_refl _
  | cons step steps ih =>
    have h := ih (binary step.1 left step.2)
    simp only [height] at h
    simp only [join, List.foldl_cons] at h ⊢
    omega

theorem height_le_products (first : Expr) (ops : List (BinOp × Int64)) :
    first.height ≤ (products first ops).1.height := by
  induction ops generalizing first with
  | nil => exact Nat.le_refl _
  | cons step ops ih =>
    by_cases hf : step.1.isFactor
    · have h := ih (binary step.1 first (literal step.2))
      simp only [height] at h
      simp only [products, hf, if_true]
      omega
    · simp [products, hf]

theorem height_le_grow (left : Expr) (ops : List (BinOp × Int64)) :
    left.height ≤ (left.grow ops).height :=
  Nat.le_trans (height_le_products left ops) (height_le_join _ _)

/-- No later factor belongs to the first product when no factor comes first. -/
theorem products_of_head {first : Expr} {ops : List (BinOp × Int64)}
    (h : ∀ step ∈ ops.head?, step.1.isFactor = false) : (products first ops).1 = first := by
  cases ops with
  | nil => rfl
  | cons step ops => simp [products, h step (by simp)]

/-- The later products do not depend on how the first one begins. -/
theorem products_snd (first other : Expr) (ops : List (BinOp × Int64)) :
    (products first ops).2 = (products other ops).2 := by
  induction ops generalizing first other with
  | nil => rfl
  | cons step ops ih =>
    by_cases hf : step.1.isFactor
    · simp only [products, hf, if_true]
      exact ih _ _
    · simp [products, hf]

theorem products_append (first : Expr) {factors ops : List (BinOp × Int64)}
    (h : ∀ step ∈ factors, step.1.isFactor = true) :
    products first (factors ++ ops) = products (first.grow factors) ops := by
  induction factors generalizing first with
  | nil => rfl
  | cons step factors ih =>
    have hf : step.1.isFactor = true := h step (by simp)
    have hrest := ih (binary step.1 first (literal step.2))
      fun other ho => h other (List.mem_cons_of_mem _ ho)
    simp only [List.cons_append, products, hf, if_true, grow] at hrest ⊢
    exact hrest

@[simp] theorem grow_nil (left : Expr) : left.grow [] = left := rfl

theorem grow_factor (left : Expr) (value : Int64) {op : BinOp} (ops : List (BinOp × Int64))
    (hf : op.isFactor = true) :
    left.grow ((op, value) :: ops) = (binary op left (literal value)).grow ops := by
  simp [grow, products, hf]

theorem grow_summand (left : Expr) (value : Int64) {op : BinOp} (ops : List (BinOp × Int64))
    (hf : op.isFactor = false) :
    left.grow ((op, value) :: ops) =
      (binary op left (products (literal value) ops).1).join (products (literal value) ops).2 := by
  simp [grow, products, hf, join]

theorem grow_of_head (left other : Expr) {ops : List (BinOp × Int64)}
    (h : ∀ step ∈ ops.head?, step.1.isFactor = false) :
    left.grow ops = left.join (products other ops).2 := by
  rw [grow, products_of_head h, products_snd left other]

/-- The right operand of an operator takes the operators that bind tighter, and the rest goes on
from the joined pair. -/
theorem grow_cons (left : Expr) (value : Int64) {op : BinOp} {tighter ops : List (BinOp × Int64)}
    (ht : ∀ step ∈ tighter, op.precedence < step.1.precedence)
    (hs : ∀ step ∈ ops.head?, step.1.precedence ≤ op.precedence) :
    left.grow ((op, value) :: (tighter ++ ops)) =
      (binary op left ((literal value).grow tighter)).grow ops := by
  simp only [← Nat.not_lt, BinOp.precedence_lt_iff] at ht hs
  cases hf : op.isFactor with
  | true =>
    -- Nothing binds tighter than an operator between factors.
    have hnil : tighter = [] :=
      List.eq_nil_iff_forall_not_mem.2 fun step hstep => by simpa [hf] using (ht step hstep).1
    rw [hnil, List.nil_append, grow_nil, grow_factor left value ops hf]
  | false =>
    have hhead : ∀ step ∈ ops.head?, step.1.isFactor = false := by simpa [hf] using hs
    have hproducts : products (literal value) (tighter ++ ops) =
        products ((literal value).grow tighter) ops :=
      products_append _ fun step hstep => (ht step hstep).2
    rw [grow_summand left value _ hf, hproducts, products_of_head hhead,
      grow_of_head _ ((literal value).grow tighter) hhead]

example : ofChain 1 [(.add, 2), (.mul, 3), (.sub, 4)] =
    binary .sub (binary .add (literal 1) (binary .mul (literal 2) (literal 3))) (literal 4) := rfl

end Expr

section Source

variable {σ : Type} [TokenSource σ]

/-- A token after which no operand is taken: the end, or an operator that does not bind tighter
than `limit`. -/
def Token.Stops (limit : Nat) (token : Token) : Prop :=
  token = .eof ∨ ∃ op, BinOp.ofToken? token = some op ∧ op.precedence ≤ limit

namespace Token.Stops

variable {limit tight : Nat} {token : Token}

theorem mono (h : token.Stops limit) (hle : limit ≤ tight) : token.Stops tight := by
  rcases h with h | ⟨op, hop, hprec⟩
  · exact .inl h
  · exact .inr ⟨op, hop, Nat.le_trans hprec hle⟩

theorem precedence_le {op : BinOp} (h : token.Stops limit) (hop : BinOp.ofToken? token = some op) :
    op.precedence ≤ limit := by
  rcases h with rfl | ⟨other, hother, hprec⟩
  · simp [BinOp.ofToken?] at hop
  · rw [hop, Option.some.injEq] at hother
    rwa [hother]

/-- Every operator binds tighter than nothing. -/
theorem eq_eof (h : token.Stops 0) : token = .eof := by
  rcases h with h | ⟨op, -, hprec⟩
  · exact h
  · cases op <;> simp [BinOp.precedence] at hprec

end Token.Stops

/-- After the token `ahead`, the source delivers the operators and literals `ops`, where `ahead` is
the first operator and all bind tighter than `limit`, and then `last`, which stops them. -/
inductive Follows (limit : Nat) :
    Located Token → σ → List (BinOp × Int64) → Located Token → σ → Prop
  | stop {ahead : Located Token} {tokens : σ} (h : ahead.value.Stops limit) :
      Follows limit ahead tokens [] ahead tokens
  | step {ahead ahead' last : Located Token} {tokens mid mid' rest : σ} {op : BinOp}
      {value : Int64} {span : Span} {ops : List (BinOp × Int64)}
      (hop : BinOp.ofToken? ahead.value = some op) (hlt : limit < op.precedence)
      (hvalue : TokenSource.scan tokens = (.ok ⟨.literal value, span⟩, mid))
      (hahead : TokenSource.scan mid = (.ok ahead', mid'))
      (later : Follows limit ahead' mid' ops last rest) :
      Follows limit ahead tokens ((op, value) :: ops) last rest

/-- The source delivers the chain of `first` and `ops`, all of them tighter than `limit`, and then
`last`, which stops it. -/
def Begins (limit : Nat) (tokens : σ) (first : Int64) (ops : List (BinOp × Int64))
    (last : Located Token) (rest : σ) : Prop :=
  ∃ span mid ahead mid', TokenSource.scan tokens = (.ok ⟨.literal first, span⟩, mid) ∧
    TokenSource.scan mid = (.ok ahead, mid') ∧ Follows limit ahead mid' ops last rest

namespace Follows

variable {limit tight : Nat} {ahead last : Located Token} {tokens rest : σ}
  {ops : List (BinOp × Int64)}

theorem last_stops (h : Follows limit ahead tokens ops last rest) : last.value.Stops limit := by
  induction h with
  | stop h => exact h
  | step _ _ _ _ _ ih => exact ih

theorem tighter (h : Follows limit ahead tokens ops last rest) :
    ∀ step ∈ ops, limit < step.1.precedence := by
  induction h with
  | stop h => simp
  | step hop hlt _ _ _ ih => simpa using ⟨hlt, fun op value hmem => ih (op, value) hmem⟩

/-- The first operator is the token ahead. -/
theorem head (h : Follows limit ahead tokens ops last rest) :
    ∀ step ∈ ops.head?, BinOp.ofToken? ahead.value = some step.1 := by
  cases h with
  | stop h => simp
  | step hop => simpa using hop

/-- A chain of tight operators goes on with looser ones. -/
theorem append {mid : Located Token} {tokens' : σ} {later : List (BinOp × Int64)}
    (h : Follows tight ahead tokens ops mid tokens') (hle : limit ≤ tight)
    (hlater : Follows limit mid tokens' later last rest) :
    Follows limit ahead tokens (ops ++ later) last rest := by
  induction h with
  | stop _ => exact hlater
  | step hop hlt hvalue hahead _ ih =>
    exact .step hop (Nat.lt_of_le_of_lt hle hlt) hvalue hahead (ih hlater)

/-- A chain begins with the operators that bind tighter than a larger limit. -/
theorem split (h : Follows limit ahead tokens ops last rest) (hle : limit ≤ tight) :
    ∃ first later mid tokens', ops = first ++ later ∧ Follows tight ahead tokens first mid tokens' ∧
      Follows limit mid tokens' later last rest := by
  induction h with
  | stop h => exact ⟨[], [], _, _, rfl, .stop (h.mono hle), .stop h⟩
  | step hop hlt hvalue hahead hrest ih =>
    rename_i op value span ops
    by_cases htight : tight < op.precedence
    · rcases ih with ⟨first, later, mid, tokens', rfl, hfirst, hlater⟩
      exact ⟨(op, value) :: first, later, mid, tokens', rfl,
        .step hop htight hvalue hahead hfirst, hlater⟩
    · exact ⟨[], _, _, _, rfl, .stop (.inr ⟨op, hop, Nat.le_of_not_lt htight⟩),
        .step hop hlt hvalue hahead hrest⟩

/-- The tree of an operator whose right operand is the chain of tighter ones. -/
theorem grow_cons {op : BinOp} {mid : Located Token} {tokens' : σ} {later : List (BinOp × Int64)}
    (h : Follows op.precedence ahead tokens ops mid tokens')
    (hlater : Follows limit mid tokens' later last rest) (left : Expr) (value : Int64) :
    left.grow ((op, value) :: (ops ++ later)) =
      (Expr.binary op left ((Expr.literal value).grow ops)).grow later :=
  Expr.grow_cons left value h.tighter fun step hstep =>
    h.last_stops.precedence_le (hlater.head step hstep)

end Follows

namespace Parser

theorem next_eq_ok_iff {tokens rest : σ} {token : Located Token} :
    next tokens = (.ok token, rest) ↔ TokenSource.scan tokens = (.ok token, rest) := by
  unfold next
  split <;> simp_all

theorem operand_eq_ok_iff {tokens rest : σ} {value : Int64} :
    operand tokens = (.ok value, rest) ↔
      ∃ span, TokenSource.scan tokens = (.ok ⟨.literal value, span⟩, rest) := by
  simp only [← next_eq_ok_iff]
  unfold operand
  split <;> simp_all

theorem climb_eq {limit : Nat} {tokens mid mid' : σ} {value : Int64} {span : Span}
    {ahead : Located Token} (hvalue : TokenSource.scan tokens = (.ok ⟨.literal value, span⟩, mid))
    (hahead : TokenSource.scan mid = (.ok ahead, mid')) :
    climb limit tokens = extend limit ⟨.literal value, 0, ahead⟩ mid' := by
  rw [climb, operand_eq_ok_iff.2 ⟨span, hvalue⟩]
  simp only [next_eq_ok_iff.2 hahead]

theorem extend_of_stops {limit : Nat} {left : Parsed} {tokens : σ}
    (h : left.lookahead.value.Stops limit) : extend limit left tokens = (.ok left, tokens) := by
  rw [extend]
  rcases h with heof | ⟨op, hop, hprec⟩
  · rw [if_pos heof]
  · simp [hop, hprec]

/-- One round of `extend`: the operator ahead takes its right operand. -/
theorem extend_of_climb {limit : Nat} (left : Parsed) {right : Parsed} {tokens mid : σ} {op : BinOp}
    (hop : BinOp.ofToken? left.lookahead.value = some op) (hlt : limit < op.precedence)
    (hright : climb op.precedence tokens = (.ok right, mid))
    (hdepth : 1 + max left.depth right.depth ≤ maxDepth) :
    extend limit left tokens =
      extend limit ⟨.binary op left.expr right.expr, 1 + max left.depth right.depth,
        right.lookahead⟩ mid := by
  have heof : left.lookahead.value ≠ .eof := by
    intro heof
    simp [heof, BinOp.ofToken?] at hop
  rw [extend, if_neg heof]
  simp only [hop, Nat.not_le.2 hlt, if_false, hright, Nat.not_lt.2 hdepth]

/-- Every chain whose tree is not too deep is parsed, and nothing beyond the token that stops it. -/
theorem extend_follows {limit : Nat} {left : Expr} {ahead last : Located Token} {tokens rest : σ}
    {ops : List (BinOp × Int64)} (h : Follows limit ahead tokens ops last rest)
    (hle : (left.grow ops).height ≤ maxDepth) :
    extend limit ⟨left, left.height, ahead⟩ tokens =
      (.ok ⟨left.grow ops, (left.grow ops).height, last⟩, rest) := by
  -- The right operand and the later operators are both shorter than the chain.
  induction hn : ops.length using Nat.strongRecOn
    generalizing limit left ahead tokens last rest ops with
  | _ n ih =>
    cases h with
    | stop h => exact extend_of_stops h
    | @step _ ahead' _ _ mid mid' _ op value span ops hop hlt hvalue hahead hlater =>
      obtain ⟨tighter, later, ahead₂, mid₂, rfl, htighter, hrest⟩ := hlater.split (Nat.le_of_lt hlt)
      have hshorter : tighter.length < n ∧ later.length < n := by
        simp only [List.length_cons, List.length_append] at hn
        omega
      rw [htighter.grow_cons hrest] at hle ⊢
      have hnode : (Expr.binary op left ((Expr.literal value).grow tighter)).height ≤ maxDepth :=
        Nat.le_trans (Expr.height_le_grow _ later) hle
      have hright : climb op.precedence tokens =
          (.ok ⟨(Expr.literal value).grow tighter, ((Expr.literal value).grow tighter).height,
            ahead₂⟩, mid₂) := by
        rw [climb_eq hvalue hahead]
        apply ih tighter.length hshorter.1 htighter _ rfl
        simp only [Expr.height] at hnode
        omega
      rw [extend_of_climb ⟨left, left.height, ahead⟩ hop hlt hright hnode]
      exact ih later.length hshorter.2 hrest hle rfl

/-- A chain tighter than `limit` begins the source, and `parsed` is its tree with its height. -/
def Climbs (limit : Nat) (tokens : σ) (parsed : Parsed) (rest : σ) : Prop :=
  ∃ first ops, Begins limit tokens first ops parsed.lookahead rest ∧
    parsed.expr = .ofChain first ops ∧ parsed.depth = parsed.expr.height ∧ parsed.depth ≤ maxDepth

/-- Operators tighter than `limit` follow `left`, and `parsed` is the tree they grow from it. -/
def Extends (limit : Nat) (left : Parsed) (tokens : σ) (parsed : Parsed) (rest : σ) : Prop :=
  ∃ ops, Follows limit left.lookahead tokens ops parsed.lookahead rest ∧
    parsed.expr = left.expr.grow ops ∧ parsed.depth = parsed.expr.height ∧ parsed.depth ≤ maxDepth

theorem Extends.of_stops {limit : Nat} {left : Parsed} {tokens : σ}
    (h : left.lookahead.value.Stops limit) (hdepth : left.depth = left.expr.height)
    (hle : left.depth ≤ maxDepth) : Extends limit left tokens left tokens :=
  ⟨[], .stop h, rfl, hdepth, hle⟩

/-- The operator ahead, its right operand and what follows that operand extend the left one. -/
theorem Extends.of_climbs {limit : Nat} {left right parsed : Parsed} {tokens mid rest : σ}
    {op : BinOp} {depth : Nat} (hop : BinOp.ofToken? left.lookahead.value = some op)
    (hlt : limit < op.precedence) (hright : Climbs op.precedence tokens right mid)
    (hrest : Extends limit ⟨.binary op left.expr right.expr, depth, right.lookahead⟩ mid
      parsed rest) :
    Extends limit left tokens parsed rest := by
  rcases hright with ⟨value, tighter, hbegins, hexpr, -, -⟩
  rcases hbegins with ⟨span, mid₁, ahead, mid₂, hvalue, hahead, hfollows⟩
  rcases hrest with ⟨ops, hlater, hgrow, hheight, hle⟩
  refine ⟨(op, value) :: (tighter ++ ops), ?_, ?_, hheight, hle⟩
  · exact .step hop hlt hvalue hahead (hfollows.append (Nat.le_of_lt hlt) hlater)
  · rw [hgrow, hexpr, hfollows.grow_cons hlater, Expr.ofChain]

/-- By the recursion of the parser: the depth of the left operand is its height at every round. -/
theorem climb_extend_sound :
    (∀ (limit : Nat) (tokens : σ) (parsed : Parsed) (rest : σ),
      climb limit tokens = (.ok parsed, rest) → Climbs limit tokens parsed rest) ∧
    ∀ (limit : Nat) (left : Parsed) (tokens : σ) (parsed : Parsed) (rest : σ),
      left.depth = left.expr.height → left.depth ≤ maxDepth →
      extend limit left tokens = (.ok parsed, rest) → Extends limit left tokens parsed rest := by
  apply climb.mutual_induct
  case case1 =>
    intro limit tokens e mid hoperand parsed rest h
    rw [climb, hoperand] at h
    simp at h
  case case2 =>
    intro limit tokens value mid hoperand e mid' hnext parsed rest h
    rw [climb, hoperand] at h
    simp [hnext] at h
  case case3 =>
    intro limit tokens value mid hoperand ahead mid' hnext ih parsed rest h
    rw [climb, hoperand] at h
    simp only [hnext] at h
    rcases ih parsed rest rfl (Nat.zero_le _) h with ⟨ops, hfollows, hgrow, hheight, hle⟩
    rcases operand_eq_ok_iff.1 hoperand with ⟨span, hvalue⟩
    exact ⟨value, ops, ⟨span, mid, ahead, mid', hvalue, next_eq_ok_iff.1 hnext, hfollows⟩, hgrow,
      hheight, hle⟩
  case case4 =>
    intro limit left tokens heof parsed rest hdepth hle h
    rw [extend, if_pos heof] at h
    cases h
    exact .of_stops (.inl heof) hdepth hle
  case case5 =>
    intro limit left tokens heof hop parsed rest hdepth hle h
    rw [extend, if_neg heof, hop] at h
    simp at h
  case case6 =>
    intro limit left tokens heof op hop hprec parsed rest hdepth hle h
    rw [extend, if_neg heof, hop] at h
    simp only [hprec, if_true] at h
    cases h
    exact .of_stops (.inr ⟨op, hop, hprec⟩) hdepth hle
  case case7 =>
    intro limit left tokens heof op hop hprec e mid hclimb _ parsed rest hdepth hle h
    rw [extend, if_neg heof, hop] at h
    simp [hprec, hclimb] at h
  case case8 =>
    intro limit left tokens heof op hop hprec right mid hclimb depth hdeep _ parsed rest hdepth hle
      h
    rw [extend, if_neg heof, hop] at h
    simp [hprec, hclimb, depth, hdeep] at h
  case case9 =>
    intro limit left tokens heof op hop hprec right mid hclimb depth hdeep ihr ih parsed rest hdepth
      hle h
    rw [extend, if_neg heof, hop] at h
    simp only [hprec, if_false, hclimb, hdeep, depth] at h
    have hright := ihr right mid hclimb
    refine .of_climbs hop (Nat.lt_of_not_le hprec) hright (ih parsed rest ?_ ?_ h)
    · rcases hright with ⟨_, _, _, _, hheight, _⟩
      simp only [depth, Expr.height, hdepth, hheight]
    · exact Nat.le_of_not_lt hdeep

/-- What parsing with a limit accepts, and the tree it builds. -/
theorem climb_ok_iff {limit : Nat} {tokens rest : σ} {parsed : Parsed} :
    climb limit tokens = (.ok parsed, rest) ↔ Climbs limit tokens parsed rest := by
  constructor
  · exact climb_extend_sound.1 limit tokens parsed rest
  · rintro ⟨first, ops, ⟨span, mid, ahead, mid', hvalue, hahead, hfollows⟩, hexpr, hheight, hle⟩
    rw [hheight, hexpr] at hle
    rw [climb_eq hvalue hahead, ← Expr.height.eq_1 first, extend_follows hfollows hle]
    cases parsed
    simp_all [Expr.ofChain]

end Parser

theorem Begins.last_eof {tokens rest : σ} {first : Int64} {ops : List (BinOp × Int64)}
    {last : Located Token} (h : Begins 0 tokens first ops last rest) : last.value = .eof := by
  rcases h with ⟨_, _, _, _, _, _, hfollows⟩
  exact hfollows.last_stops.eq_eof

/-- A source is accepted exactly when it delivers a chain up to its end whose tree is not too
deep. -/
theorem parse_eq_ok_iff {tokens rest : σ} {t : Expr} :
    parse tokens = (.ok t, rest) ↔
      ∃ first ops last, Begins 0 tokens first ops last rest ∧ t = .ofChain first ops ∧
        t.height ≤ maxDepth := by
  constructor
  · intro h
    simp only [parse, Parser.expression] at h
    generalize hclimb : Parser.climb 0 tokens = result at h
    rcases result with ⟨_ | parsed, mid⟩
    · simp at h
    · rcases Parser.climb_ok_iff.1 hclimb with ⟨first, ops, hbegins, hexpr, hheight, hle⟩
      simp only [hbegins.last_eof, if_true, Prod.mk.injEq, Except.ok.injEq] at h
      rcases h with ⟨rfl, rfl⟩
      exact ⟨first, ops, parsed.lookahead, hbegins, hexpr, hheight ▸ hle⟩
  · rintro ⟨first, ops, last, hbegins, ht, hle⟩
    have hclimb : Parser.climb 0 tokens = (.ok ⟨t, t.height, last⟩, rest) :=
      Parser.climb_ok_iff.2 ⟨first, ops, hbegins, ht, rfl, hle⟩
    simp [parse, Parser.expression, hclimb, hbegins.last_eof]

end Source

end ArithCompiler
