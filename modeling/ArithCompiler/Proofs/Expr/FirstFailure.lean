import ArithCompiler.Proofs.Expr.Verdict

/-! # The first failure of a source

The parser is compared with the reader of results. The operators that wait outside of a nested call
bind no tighter than its limit, and the innermost of them is the limit; so the call returns exactly
when the next token completes that operator. The parser therefore answers with the first verdict,
and it has scanned nothing beyond the result that decides.
-/

namespace ArithCompiler

namespace Unfinished

variable {token : Token} {s s' s'' : Unfinished}

/-- For the next token `s` is as good as `s'`: it completes some nodes more, none of them too deep,
and then the same as `s'`. -/
def Reduces (token : Token) (s s' : Unfinished) : Prop :=
  ∃ done, s.nodes token = done ++ s'.nodes token ∧ (∀ node ∈ done, isDeep node = false) ∧
    s.complete token = s'.complete token

theorem Reduces.refl (token : Token) (s : Unfinished) : Reduces token s s :=
  ⟨[], rfl, by simp, rfl⟩

theorem Reduces.trans (h : Reduces token s s') (h' : Reduces token s' s'') :
    Reduces token s s'' := by
  obtain ⟨done, hnodes, hdone, hrest⟩ := h
  obtain ⟨done', hnodes', hdone', hrest'⟩ := h'
  refine ⟨done ++ done', by rw [hnodes, hnodes', List.append_assoc], ?_, hrest.trans hrest'⟩
  intro node hnode
  rcases List.mem_append.1 hnode with hnode | hnode
  · exact hdone node hnode
  · exact hdone' node hnode

theorem nodes_cons {w : Waiting} (ws : List Waiting) (e : Expr) (h : token.completes w.op = true) :
    nodes ⟨w :: ws, e⟩ token =
      ⟨.binary w.op w.left e, w.span⟩ :: nodes ⟨ws, .binary w.op w.left e⟩ token := by
  simp [nodes, nodesOf, h]

/-- The innermost operator is completed, and its node is the new operand. -/
theorem Reduces.node {w : Waiting} (ws : List Waiting) {e : Expr}
    (h : token.completes w.op = true)
    (hdeep : isDeep ⟨.binary w.op w.left e, w.span⟩ = false) :
    Reduces token ⟨w :: ws, e⟩ ⟨ws, .binary w.op w.left e⟩ := by
  refine ⟨[⟨.binary w.op w.left e, w.span⟩], nodes_cons ws e h, by simpa using hdeep, ?_⟩
  simp [complete, h]

theorem Reduces.find? (h : Reduces token s s') :
    (s.nodes token).find? isDeep = (s'.nodes token).find? isDeep := by
  obtain ⟨done, hnodes, hdone, -⟩ := h
  have hnone : done.find? isDeep = none := by simpa [List.find?_eq_none] using hdone
  rw [hnodes, List.find?_append, hnone, Option.none_or]

end Unfinished

/-- The parser stands before the token at `n`: nothing is decided yet, and for that token all that
was read is the left operand inside of the operators `ws`. -/
structure Stands (r : Nat → ScanResult) (ws : List Waiting) (left : Parsed) (n : Nat) : Prop where
  undecided : Undecided r n
  odd : n % 2 = 1
  token : r n = .ok left.lookahead
  reduces : (unfinished r n).Reduces left.lookahead.value ⟨ws, left.expr⟩
  depth : left.depth = left.expr.height

namespace Stands

variable {r : Nat → ScanResult} {n : Nat} {ws : List Waiting} {left right : Parsed} {op : BinOp}
  {span : Span}

theorem of_literal {value : Int64} {ahead : Located Token} (h : Undecided r n) (heven : n % 2 = 0)
    (hvalue : r n = .ok ⟨.literal value, span⟩) (hahead : r (n + 1) = .ok ahead) :
    Stands r (unfinished r n).waiting ⟨.literal value, 0, ahead⟩ (n + 1) := by
  obtain ⟨hverdict, hoperand⟩ := verdict?_literal heven hvalue
  constructor
  · exact h.succ hverdict
  · omega
  · exact hahead
  · rw [hoperand]
    exact .refl _ _
  · rfl

theorem stray?_eq_none (h : Stands r ws left n)
    (hliteral : left.lookahead.value.isLiteral = false) : stray? n (r n) = none := by
  simp [h.token, stray?, h.odd, hliteral]

theorem find?_completedAt (h : Stands r ws left n) :
    (completedAt r n).find? isDeep =
      (Unfinished.nodes ⟨ws, left.expr⟩ left.lookahead.value).find? isDeep := by
  rw [completedAt, h.token]
  exact h.reduces.find?

/-- A literal in the place of an operator. -/
theorem verdict?_literal (h : Stands r ws left n) (heof : left.lookahead.value ≠ .eof)
    (hop : BinOp.ofToken? left.lookahead.value = none) :
    verdict? r n = some (.error (left.lookahead.map .expectedOperator)) := by
  apply verdict?_of_stray
  have hliteral : left.lookahead.value.isLiteral = true := by
    cases hvalue : left.lookahead.value <;> simp_all [BinOp.ofToken?, Token.isLiteral]
  simp [h.token, stray?, h.odd, hliteral]

/-- An operator that binds tighter than all that wait completes nothing and waits inside of them. -/
theorem operator (h : Stands r ws left n) (hop : BinOp.ofToken? left.lookahead.value = some op)
    (hws : ∀ w ∈ ws, w.op.precedence < op.precedence) :
    Undecided r (n + 1) ∧
      (unfinished r (n + 1)).waiting = ⟨left.expr, op, left.lookahead.span⟩ :: ws := by
  have hstops : left.lookahead.value.Stops op.precedence := .inr ⟨op, hop, Nat.le_refl _⟩
  have hnot : ∀ w ∈ ws, left.lookahead.value.completes w.op = false := by
    intro w hw
    rw [Bool.eq_false_iff, Ne, Token.completes_iff]
    intro hstops
    exact Nat.not_le_of_lt (hws w hw) (hstops.precedence_le hop)
  obtain ⟨hnodes, hrest⟩ := Unfinished.complete_of_not left.expr hnot
  constructor
  · apply h.undecided.succ
    have hend : isEnd (r n) = false := by
      rw [h.token, isEnd, decide_eq_false_iff_not]
      intro heof
      simp [heof, BinOp.ofToken?] at hop
    simp [verdict?, h.stray?_eq_none hstops.isLiteral, h.find?_completedAt, hnodes, hend]
  · obtain ⟨-, -, -, hcomplete⟩ := h.reduces
    rw [unfinished, h.token, Unfinished.read_operator _ hop, hcomplete, hrest]

/-- The token after the right operand completes the operator: its node is too deep. -/
theorem verdict?_tooDeep (h : Stands r (⟨left.expr, op, span⟩ :: ws) right n)
    (hstops : right.lookahead.value.Stops op.precedence) (hleft : left.depth = left.expr.height)
    (hdeep : maxDepth < 1 + max left.depth right.depth) :
    verdict? r n = some (.error ⟨.tooDeep, span⟩) := by
  have hnode : isDeep ⟨.binary op left.expr right.expr, span⟩ = true := by
    simpa [isDeep, Expr.height, ← hleft, ← h.depth] using hdeep
  have hcompletes := Token.completes_iff.2 hstops
  have hfind := h.find?_completedAt
  rw [Unfinished.nodes_cons ws right.expr hcompletes, List.find?_cons, hnode] at hfind
  simp [verdict?, h.stray?_eq_none hstops.isLiteral, hfind]

/-- The token after the right operand completes the operator: its node is the new left operand. -/
theorem binary (h : Stands r (⟨left.expr, op, span⟩ :: ws) right n)
    (hstops : right.lookahead.value.Stops op.precedence) (hleft : left.depth = left.expr.height)
    (hdeep : 1 + max left.depth right.depth ≤ maxDepth) :
    Stands r ws ⟨.binary op left.expr right.expr, 1 + max left.depth right.depth,
      right.lookahead⟩ n := by
  have hnode : isDeep ⟨.binary op left.expr right.expr, span⟩ = false := by
    simpa [isDeep, Expr.height, ← hleft, ← h.depth] using hdeep
  constructor
  · exact h.undecided
  · exact h.odd
  · exact h.token
  · exact h.reduces.trans (.node ws (Token.completes_iff.2 hstops) hnode)
  · simp only [Expr.height, hleft, h.depth]

/-- At the end nothing waits any more. -/
theorem verdict?_eof (h : Stands r [] left n) (hstops : left.lookahead.value.Stops 0) :
    verdict? r n = some (.ok left.expr) := by
  have heof := hstops.eq_eof
  have hfind : (completedAt r n).find? isDeep = none := by
    rw [h.find?_completedAt]
    rfl
  have hoperand : (unfinished r (n + 1)).operand = left.expr := by
    obtain ⟨-, -, -, hcomplete⟩ := h.reduces
    rw [unfinished, h.token, Unfinished.read_eof _ heof, hcomplete]
    rfl
  have hend : isEnd (r n) = true := by
    rw [h.token, isEnd, heof, decide_eq_true rfl]
  simp [verdict?, h.stray?_eq_none hstops.isLiteral, hfind, hend, hoperand]

end Stands

section Parser

variable {σ : Type} [TokenSource σ]

open TokenSource

/-- What the parser answers inside of the operators `ws`: it stands before a token that stops it, or
it gives the first verdict. -/
def Answers (origin : σ) (limit : Nat) (ws : List Waiting) :
    Except (Located ParseError) Parsed × σ → Prop
  | (.ok parsed, rest) => ∃ n, Stands (results origin) ws parsed n ∧
      parsed.lookahead.value.Stops limit ∧ rest = after origin (n + 1)
  | (.error e, rest) => ∃ n, FirstVerdict (results origin) n (.error e) ∧
      rest = after origin (n + 1)

namespace Parser

theorem next_error {origin rest : σ} {n : Nat} {e : Located ParseError}
    (h : next (after origin n) = (.error e, rest)) :
    stray? n (results origin n) = some e ∧ rest = after origin (n + 1) := by
  rw [next, scan_after] at h
  cases hresult : results origin n with
  | ok token => simp [hresult] at h
  | error cause =>
    rw [hresult] at h
    cases h
    exact ⟨rfl, rfl⟩

theorem next_ok {origin rest : σ} {n : Nat} {token : Located Token}
    (h : next (after origin n) = (.ok token, rest)) :
    results origin n = .ok token ∧ rest = after origin (n + 1) := by
  rw [next_eq_ok_iff, scan_after, Prod.mk.injEq] at h
  exact ⟨h.1, h.2.symm⟩

theorem operand_error {origin rest : σ} {n : Nat} (heven : n % 2 = 0) {e : Located ParseError}
    (h : operand (after origin n) = (.error e, rest)) :
    stray? n (results origin n) = some e ∧ rest = after origin (n + 1) := by
  rw [operand] at h
  split at h
  · next hnext =>
    cases h
    exact next_error hnext
  · cases h
  · next found span rest' hliteral hnext =>
    obtain ⟨hresult, rfl⟩ := next_ok hnext
    cases h
    have hother : found.isLiteral = false := by
      cases found with
      | literal value => exact absurd rfl (hliteral value)
      | _ => rfl
    simp [hresult, stray?, heven, hother, Located.map]

theorem operand_ok {origin rest : σ} {n : Nat} {value : Int64}
    (h : operand (after origin n) = (.ok value, rest)) :
    ∃ span, results origin n = .ok ⟨.literal value, span⟩ ∧ rest = after origin (n + 1) := by
  obtain ⟨span, hscan⟩ := operand_eq_ok_iff.1 h
  obtain ⟨hresult, hrest⟩ := next_ok (next_eq_ok_iff.2 hscan)
  exact ⟨span, hresult, hrest⟩

/-- What the parser does with a literal at an even index, inside of the operators read so far. -/
def ClimbAnswers (origin : σ) (limit : Nat) (tokens : σ) : Prop :=
  ∀ n, tokens = after origin n → n % 2 = 0 → Undecided (results origin) n →
    (∀ w ∈ (unfinished (results origin) n).waiting, w.op.precedence ≤ limit) →
    Answers origin limit (unfinished (results origin) n).waiting (climb limit tokens)

/-- What the parser does with a left operand inside of the operators `ws`. -/
def ExtendAnswers (origin : σ) (limit : Nat) (left : Parsed) (tokens : σ) : Prop :=
  ∀ n ws, tokens = after origin (n + 1) → Stands (results origin) ws left n →
    (∀ w ∈ ws, w.op.precedence ≤ limit) → Answers origin limit ws (extend limit left tokens)

/-- The right operand of the operator ahead is read inside of that operator. -/
theorem ClimbAnswers.right {origin : σ} {limit n : Nat} {left : Parsed} {ws : List Waiting}
    {op : BinOp} (h : ClimbAnswers origin op.precedence (after origin (n + 1)))
    (hleft : Stands (results origin) ws left n)
    (hop : BinOp.ofToken? left.lookahead.value = some op) (hprec : ¬ op.precedence ≤ limit)
    (hws : ∀ w ∈ ws, w.op.precedence ≤ limit) :
    Answers origin op.precedence (⟨left.expr, op, left.lookahead.span⟩ :: ws)
      (climb op.precedence (after origin (n + 1))) := by
  have hlt : ∀ w ∈ ws, w.op.precedence < op.precedence := fun w hw =>
    Nat.lt_of_le_of_lt (hws w hw) (Nat.lt_of_not_le hprec)
  obtain ⟨hundecided, hwaiting⟩ := hleft.operator hop hlt
  rw [← hwaiting]
  apply h (n + 1) rfl _ hundecided
  · rw [hwaiting, List.forall_mem_cons]
    exact ⟨Nat.le_refl _, fun w hw => Nat.le_of_lt (hlt w hw)⟩
  · have := hleft.odd
    omega

/-- By the recursion of the parser: what a call inside of an operator leaves is what the next token
completes for that operator. -/
theorem climb_extend_answers (origin : σ) :
    (∀ limit tokens, ClimbAnswers origin limit tokens) ∧
      ∀ limit left tokens, ExtendAnswers origin limit left tokens := by
  apply climb.mutual_induct
  case case1 =>
    rintro limit tokens e mid hoperand n rfl heven hundecided hws
    obtain ⟨hstray, rfl⟩ := operand_error heven hoperand
    rw [climb, hoperand]
    exact ⟨n, ⟨hundecided, verdict?_of_stray hstray⟩, rfl⟩
  case case2 =>
    rintro limit tokens value mid hoperand e mid' hnext n rfl heven hundecided hws
    obtain ⟨span, hvalue, rfl⟩ := operand_ok hoperand
    obtain ⟨hstray, rfl⟩ := next_error hnext
    rw [climb, hoperand]
    simp only [hnext]
    have hundecided' := hundecided.succ (verdict?_literal heven hvalue).1
    exact ⟨n + 1, ⟨hundecided', verdict?_of_stray hstray⟩, rfl⟩
  case case3 =>
    rintro limit tokens value mid hoperand ahead mid' hnext ih n rfl heven hundecided hws
    obtain ⟨span, hvalue, rfl⟩ := operand_ok hoperand
    obtain ⟨hahead, rfl⟩ := next_ok hnext
    rw [climb, hoperand]
    simp only [hnext]
    exact ih (n + 1) _ rfl (.of_literal hundecided heven hvalue hahead) hws
  case case4 =>
    rintro limit left tokens heof n ws rfl hleft hws
    rw [extend, if_pos heof]
    exact ⟨n, hleft, .inl heof, rfl⟩
  case case5 =>
    rintro limit left tokens heof hop n ws rfl hleft hws
    rw [extend, if_neg heof, hop]
    exact ⟨n, ⟨hleft.undecided, hleft.verdict?_literal heof hop⟩, rfl⟩
  case case6 =>
    rintro limit left tokens heof op hop hprec n ws rfl hleft hws
    rw [extend, if_neg heof, hop]
    simp only [hprec, if_true]
    exact ⟨n, hleft, .inr ⟨op, hop, hprec⟩, rfl⟩
  case case7 =>
    rintro limit left tokens heof op hop hprec e mid hclimb ih n ws rfl hleft hws
    have hright := ih.right hleft hop hprec hws
    rw [hclimb] at hright
    rw [extend, if_neg heof, hop]
    simp only [hprec, if_false, hclimb]
    exact hright
  case case8 =>
    rintro limit left tokens heof op hop hprec right mid hclimb depth hdeep ih n ws rfl hleft hws
    have hright := ih.right hleft hop hprec hws
    rw [hclimb] at hright
    obtain ⟨m, hright, hstops, rfl⟩ := hright
    rw [extend, if_neg heof, hop]
    simp only [hprec, if_false, hclimb, depth, hdeep, if_true]
    exact ⟨m, ⟨hright.undecided, hright.verdict?_tooDeep hstops hleft.depth hdeep⟩, rfl⟩
  case case9 =>
    rintro limit left tokens heof op hop hprec right mid hclimb depth hdeep ihr ih n ws rfl hleft
      hws
    have hright := ihr.right hleft hop hprec hws
    rw [hclimb] at hright
    obtain ⟨m, hright, hstops, rfl⟩ := hright
    rw [extend, if_neg heof, hop]
    simp only [hprec, if_false, hclimb, depth, hdeep]
    exact ih m ws rfl (hright.binary hstops hleft.depth (Nat.le_of_not_lt hdeep)) hws

end Parser

/-- The parser gives the verdict on its source, and has scanned up to the result that decides. -/
theorem parse_verdict (tokens : σ) :
    ∃ n, FirstVerdict (results tokens) n (parse tokens).1 ∧
      (parse tokens).2 = after tokens (n + 1) := by
  have h := (Parser.climb_extend_answers tokens).1 0 tokens 0 rfl rfl
    (fun k hk => absurd hk (Nat.not_lt_zero k)) (by simp [unfinished])
  rw [parse, Parser.expression]
  cases hclimb : Parser.climb 0 tokens with
  | mk answer rest =>
    rw [hclimb] at h
    cases answer with
    | error e =>
      obtain ⟨n, hverdict, rfl⟩ := h
      exact ⟨n, hverdict, rfl⟩
    | ok parsed =>
      obtain ⟨n, hstands, hstops, rfl⟩ := h
      simp only [hstops.eq_eof, if_true]
      exact ⟨n, ⟨hstands.undecided, hstands.verdict?_eof hstops⟩, rfl⟩

/-- A verdict on the results is the answer of the parser. -/
theorem FirstVerdict.parse_eq {tokens : σ} {n : Nat} {v : Except (Located ParseError) Expr}
    (h : FirstVerdict (results tokens) n v) : (parse tokens).1 = v := by
  obtain ⟨m, hverdict, -⟩ := parse_verdict tokens
  exact hverdict.unique h

/-- Every failure is the first possible one: a node that is too deep is reported at the operator of
the first such node, provided that it is completed before any result out of place; else the first
result out of place is reported, with its own location; and else the source is accepted. The source
is left as it is after the scan of the result that decides, so one that counts its scans has counted
no more than these. Trailing input is never reported. -/
theorem parse_first_failure (tokens : σ) :
    let r := results tokens
    ((∃ span, (parse tokens).1 = .error ⟨.tooDeep, span⟩) ↔
      ∃ n, InPlace r n ∧ ∃ node ∈ completedAt r n, 1000 < node.value.height) ∧
    (∀ span, (parse tokens).1 = .error ⟨.tooDeep, span⟩ →
      ∃ n node, FirstDeep r n node ∧ span = node.span ∧ (parse tokens).2 = after tokens (n + 1)) ∧
    ((¬ ∃ n, InPlace r n ∧ ∃ node ∈ completedAt r n, 1000 < node.value.height) →
      (∀ n e, FirstStray r n e → parse tokens = (.error e, after tokens (n + 1))) ∧
      ((¬ ∃ n e, FirstStray r n e) → ∃ n t, EndsAt r n ∧ (∀ k < n, ¬ EndsAt r k) ∧
        parse tokens = (.ok t, after tokens (n + 1)))) ∧
    ∀ found span, (parse tokens).1 ≠ .error ⟨.trailingInput found, span⟩ := by
  intro r
  obtain ⟨n, h, hrest⟩ := parse_verdict tokens
  refine ⟨⟨?_, ?_⟩, ?_, ?_, h.ne_trailingInput⟩
  · rintro ⟨span, hspan⟩
    exact h.runsDeep hspan
  · intro hdeep
    obtain ⟨node, -, hnode⟩ := h.tooDeep hdeep
    exact ⟨node.span, hnode⟩
  · intro span hspan
    obtain ⟨node, hfirst, hnode⟩ := h.tooDeep (h.runsDeep hspan)
    rw [hspan] at hnode
    cases hnode
    exact ⟨n, node, hfirst, rfl, hrest⟩
  · intro hdeep
    constructor
    · intro k e hstray
      obtain ⟨rfl, hparse⟩ := h.stray hdeep hstray
      exact Prod.ext hparse hrest
    · intro hstray
      obtain ⟨hends, hbefore, t, hparse⟩ := h.success hdeep hstray
      exact ⟨n, t, hends, hbefore, Prod.ext hparse hrest⟩

end Parser

end ArithCompiler
