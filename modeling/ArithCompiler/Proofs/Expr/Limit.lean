import ArithCompiler.Proofs.Expr.Verdict

/-! # Expressions up to a limit

A call with a limit takes one literal and then operators that bind tighter than the limit, each with
its literal, up to the first token that stops them. All of this is said by the results of the source
alone. The calls inside have limits of their own, but where the whole stops is up to the outermost.
-/

namespace ArithCompiler

open TokenSource (after results scan_after results_after)

/-- From result `n` on come the operators `ops`, all of them tighter than `limit` and each followed
by its literal, and then `last`, which stops them. -/
structure OperatorsFrom (r : Nat → ScanResult) (limit n : Nat) (ops : List (BinOp × Int64))
    (last : Located Token) : Prop where
  operator : ∀ k op value, ops[k]? = some (op, value) → limit < op.precedence ∧
    ∃ token, r (n + 2 * k) = .ok token ∧ BinOp.ofToken? token.value = some op
  literal : ∀ k op value, ops[k]? = some (op, value) →
    ∃ span, r (n + 2 * k + 1) = .ok ⟨.literal value, span⟩
  next : r (n + 2 * ops.length) = .ok last
  stops : last.value = .eof ∨
    ∃ op, BinOp.ofToken? last.value = some op ∧ op.precedence ≤ limit

theorem operatorsFrom_nil_iff {r : Nat → ScanResult} {limit n : Nat} {last : Located Token} :
    OperatorsFrom r limit n [] last ↔ r n = .ok last ∧ last.value.Stops limit := by
  constructor
  · intro h
    exact ⟨h.next, h.stops⟩
  · rintro ⟨hlast, hstops⟩
    exact ⟨by simp, by simp, hlast, hstops⟩

theorem operatorsFrom_cons_iff {r : Nat → ScanResult} {limit n : Nat} {op : BinOp} {value : Int64}
    {ops : List (BinOp × Int64)} {last : Located Token} :
    OperatorsFrom r limit n ((op, value) :: ops) last ↔
      (limit < op.precedence ∧ ∃ token, r n = .ok token ∧ BinOp.ofToken? token.value = some op) ∧
      (∃ span, r (n + 1) = .ok ⟨.literal value, span⟩) ∧
      OperatorsFrom r limit (n + 2) ops last := by
  have hshift (k : Nat) : n + 2 * (k + 1) = n + 2 + 2 * k := by omega
  constructor
  · intro h
    refine ⟨h.operator 0 op value rfl, h.literal 0 op value rfl, ?_⟩
    constructor
    · intro k op' value' hk
      rw [← hshift]
      exact h.operator (k + 1) op' value' hk
    · intro k op' value' hk
      rw [← hshift]
      exact h.literal (k + 1) op' value' hk
    · rw [← hshift]
      exact h.next
    · exact h.stops
  · rintro ⟨hop, hvalue, h⟩
    constructor
    · intro k op' value' hk
      cases k with
      | zero =>
        cases hk
        exact hop
      | succ k =>
        rw [hshift]
        exact h.operator k op' value' hk
    · intro k op' value' hk
      cases k with
      | zero =>
        cases hk
        exact hvalue
      | succ k =>
        rw [hshift]
        exact h.literal k op' value' hk
    · rw [List.length_cons, hshift]
      exact h.next
    · exact h.stops

theorem OperatorsFrom.exists_token {r : Nat → ScanResult} {limit n : Nat}
    {ops : List (BinOp × Int64)} {last : Located Token} (h : OperatorsFrom r limit n ops last) :
    ∃ token, r n = .ok token := by
  cases ops with
  | nil => exact ⟨last, h.next⟩
  | cons step ops =>
    obtain ⟨-, token, htoken, -⟩ := h.operator 0 step.1 step.2 rfl
    exact ⟨token, htoken⟩

section Source

variable {σ : Type} [TokenSource σ] {limit : Nat} {tokens rest : σ} {last : Located Token}

theorem scan_after_iff {token : Located Token} {n : Nat} :
    TokenSource.scan (after tokens n) = (.ok token, rest) ↔
      results tokens n = .ok token ∧ rest = after tokens (n + 1) := by
  rw [scan_after, Prod.mk.injEq, eq_comm (a := after tokens (n + 1))]

theorem scan_iff {token : Located Token} :
    TokenSource.scan tokens = (.ok token, rest) ↔
      results tokens 0 = .ok token ∧ rest = after tokens 1 :=
  scan_after_iff (n := 0)

/-- What follows a token is read off the results behind it. -/
theorem follows_iff {ops : List (BinOp × Int64)} {ahead : Located Token} {n : Nat}
    (hahead : results tokens n = .ok ahead) :
    Follows limit ahead (after tokens (n + 1)) ops last rest ↔
      OperatorsFrom (results tokens) limit n ops last ∧
        rest = after tokens (n + 2 * ops.length + 1) := by
  induction ops generalizing ahead n with
  | nil =>
    rw [operatorsFrom_nil_iff, hahead]
    constructor
    · intro h
      cases h with
      | stop hstops => exact ⟨⟨rfl, hstops⟩, rfl⟩
    · rintro ⟨⟨hlast, hstops⟩, rfl⟩
      cases hlast
      exact .stop hstops
  | cons step ops ih =>
    obtain ⟨op, value⟩ := step
    have hshift : n + 2 * ((op, value) :: ops).length + 1 = n + 2 + 2 * ops.length + 1 := by
      rw [List.length_cons]
      omega
    rw [operatorsFrom_cons_iff, hahead, hshift]
    constructor
    · intro h
      cases h with
      | step hop hlt hscan hscan' hlater =>
        obtain ⟨hvalue, rfl⟩ := scan_after_iff.1 hscan
        obtain ⟨hnext, rfl⟩ := scan_after_iff.1 hscan'
        obtain ⟨hops, hrest⟩ := (ih hnext).1 hlater
        exact ⟨⟨⟨hlt, ahead, rfl, hop⟩, ⟨_, hvalue⟩, hops⟩, hrest⟩
    · rintro ⟨⟨⟨hlt, token, htoken, hop⟩, ⟨span, hvalue⟩, hops⟩, hrest⟩
      cases htoken
      obtain ⟨next, hnext⟩ := hops.exists_token
      exact .step hop hlt (scan_after_iff.2 ⟨hvalue, rfl⟩) (scan_after_iff.2 ⟨hnext, rfl⟩)
        ((ih hnext).2 ⟨hops, hrest⟩)

theorem begins_iff {first : Int64} {ops : List (BinOp × Int64)} :
    Begins limit tokens first ops last rest ↔
      (∃ span, results tokens 0 = .ok ⟨.literal first, span⟩) ∧
        OperatorsFrom (results tokens) limit 1 ops last ∧
        rest = after tokens (2 * ops.length + 2) := by
  have hlength : 2 * ops.length + 2 = 1 + 2 * ops.length + 1 := by omega
  rw [hlength]
  constructor
  · rintro ⟨span, mid, ahead, mid', hscan, hscan', hfollows⟩
    obtain ⟨hvalue, rfl⟩ := scan_iff.1 hscan
    obtain ⟨hahead, rfl⟩ := scan_after_iff.1 hscan'
    exact ⟨⟨span, hvalue⟩, (follows_iff hahead).1 hfollows⟩
  · rintro ⟨⟨span, hvalue⟩, hops, hrest⟩
    obtain ⟨ahead, hahead⟩ := hops.exists_token
    exact ⟨span, after tokens 1, ahead, after tokens 2, scan_iff.2 ⟨hvalue, rfl⟩,
      scan_after_iff.2 ⟨hahead, rfl⟩, (follows_iff hahead).2 ⟨hops, hrest⟩⟩

namespace Parser

theorem expression_eq_ok_iff {t : Expr} :
    expression limit tokens = (.ok (t, last), rest) ↔
      ∃ first ops, Begins limit tokens first ops last rest ∧ t = .ofChain first ops ∧
        t.height ≤ maxDepth := by
  constructor
  · intro h
    rw [expression] at h
    split at h
    · next parsed mid hclimb =>
      cases h
      obtain ⟨first, ops, hbegins, hexpr, hdepth, hle⟩ := climb_ok_iff.1 hclimb
      rw [hdepth] at hle
      exact ⟨first, ops, hbegins, hexpr, hle⟩
    · cases h
  · rintro ⟨first, ops, hbegins, ht, hle⟩
    have hclimb : climb limit tokens = (.ok ⟨t, t.height, last⟩, rest) :=
      climb_ok_iff.2 ⟨first, ops, hbegins, ht, rfl, hle⟩
    rw [expression, hclimb]

/-- Only the operators that a limit lets through matter: the calls inside have limits of their
own. -/
theorem climb_extend_congr :
    (∀ (limit : Nat) (tokens : σ) (other : Nat),
      (∀ op : BinOp, other < op.precedence ↔ limit < op.precedence) →
      climb other tokens = climb limit tokens) ∧
    ∀ (limit : Nat) (left : Parsed) (tokens : σ) (other : Nat),
      (∀ op : BinOp, other < op.precedence ↔ limit < op.precedence) →
      extend other left tokens = extend limit left tokens := by
  apply climb.mutual_induct
  case case1 =>
    intro limit tokens e mid hoperand other hsame
    rw [climb, climb, hoperand]
  case case2 =>
    intro limit tokens value mid hoperand e mid' hnext other hsame
    rw [climb, climb, hoperand]
    simp only [hnext]
  case case3 =>
    intro limit tokens value mid hoperand ahead mid' hnext ih other hsame
    rw [climb, climb, hoperand]
    simp only [hnext]
    exact ih other hsame
  case case4 =>
    intro limit left tokens heof other hsame
    rw [extend, extend, if_pos heof, if_pos heof]
  case case5 =>
    intro limit left tokens heof hop other hsame
    rw [extend, extend, if_neg heof, if_neg heof, hop]
  case case6 =>
    intro limit left tokens heof op hop hprec other hsame
    rw [extend_of_stops (.inr ⟨op, hop, hprec⟩), extend_of_stops (.inr ⟨op, hop, ?_⟩)]
    rwa [← Nat.not_lt, hsame, Nat.not_lt]
  case case7 =>
    intro limit left tokens heof op hop hprec e mid hclimb _ other hsame
    have hother : ¬ op.precedence ≤ other := by rwa [Nat.not_le, hsame, ← Nat.not_le]
    rw [extend, extend, if_neg heof, if_neg heof, hop]
    simp only [hprec, hother, if_false, hclimb]
  case case8 =>
    intro limit left tokens heof op hop hprec right mid hclimb depth hdeep _ other hsame
    have hother : ¬ op.precedence ≤ other := by rwa [Nat.not_le, hsame, ← Nat.not_le]
    rw [extend, extend, if_neg heof, if_neg heof, hop]
    simp only [hprec, hother, if_false, hclimb, depth, hdeep, if_true]
  case case9 =>
    intro limit left tokens heof op hop hprec right mid hclimb depth hdeep _ ih other hsame
    have hlt := Nat.lt_of_not_le hprec
    have hdepth := Nat.le_of_not_lt hdeep
    rw [extend_of_climb left hop hlt hclimb hdepth,
      extend_of_climb left hop ((hsame op).2 hlt) hclimb hdepth]
    exact ih other hsame

/-- An expression with a limit is a chain of operators tighter than the limit, up to the end or the
first operator that is not tighter, provided that its tree is not too deep. With `n` operators the
source is left as it is after `2 * n + 2` scans, the last of which gave the token that stops; the
next call, with whatever limit, starts with the result behind that token. Limits that let the same
operators through give the same answer, be it an expression or an error. -/
theorem expression_limit (limit : Nat) (tokens : σ) :
    let r := results tokens
    (∀ t last rest, expression limit tokens = (.ok (t, last), rest) ↔
      ∃ first ops, (∃ span, r 0 = .ok ⟨.literal first, span⟩) ∧ OperatorsFrom r limit 1 ops last ∧
        t = .ofChain first ops ∧ t.height ≤ 1000 ∧ rest = after tokens (2 * ops.length + 2)) ∧
    (∀ t last rest, expression limit tokens = (.ok (t, last), rest) →
      ∃ n, r n = .ok last ∧ ∀ k, results rest k = r (n + 1 + k)) ∧
    ∀ other, (∀ op : BinOp, other < op.precedence ↔ limit < op.precedence) →
      expression other tokens = expression limit tokens := by
  intro r
  refine ⟨?_, ?_, ?_⟩
  · intro t last rest
    rw [expression_eq_ok_iff]
    simp only [begins_iff]
    constructor
    · rintro ⟨first, ops, ⟨hfirst, hops, hrest⟩, ht, hle⟩
      exact ⟨first, ops, hfirst, hops, ht, hle, hrest⟩
    · rintro ⟨first, ops, hfirst, hops, ht, hle, hrest⟩
      exact ⟨first, ops, ⟨hfirst, hops, hrest⟩, ht, hle⟩
  · intro t last rest h
    obtain ⟨first, ops, hbegins, -, -⟩ := expression_eq_ok_iff.1 h
    obtain ⟨-, hops, rfl⟩ := begins_iff.1 hbegins
    refine ⟨1 + 2 * ops.length, hops.next, fun k => ?_⟩
    rw [results_after]
    apply congrArg r
    omega
  · intro other hsame
    rw [expression, expression, climb_extend_congr.1 limit tokens other hsame]

-- In `2*3+4` a call with the limit of a sum takes the product and stops at the sign.
example :
    let token (value : Token) (column : Nat) : Located Token := ⟨value, .single ⟨1, column⟩⟩
    let later := [token .star 2, token (.literal 3) 3, token .plus 4, token (.literal 4) 5]
    expression 10 (⟨token (.literal 2) 1, later⟩ : Replay) =
      (.ok (.binary .mul (.literal 2) (.literal 3), token .plus 4),
        ⟨token (.literal 4) 5, []⟩) := by
  cbv

end Parser

end Source

end ArithCompiler
