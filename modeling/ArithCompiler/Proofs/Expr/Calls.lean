import ArithCompiler.Proofs.Expr.Verdict

/-! # Calls of the parser

The parser is run step by step on an explicit stack of calls. A call that has met an operator waits
there while the right operand is read by a call with a larger limit, so at most three calls are ever
under way. A round of the innermost call takes at least one operand more, which raises the depth of
its left one; so no call has more rounds than the depth limit allows, and the run ends within a
number of scans that does not depend on the source.
-/

namespace ArithCompiler.Parser

open TokenSource (after)

/-- A call that waits for the right operand of `op`, which is the token ahead of `left`. -/
structure Frame where
  limit : Nat
  left : Parsed
  op : BinOp
  deriving DecidableEq, Repr

/-- What the innermost call is about to do: take its first literal, take the token after that,
extend its left operand, or return. -/
inductive Task where
  | first (limit : Nat)
  | ahead (limit : Nat) (value : Int64)
  | extend (limit : Nat) (left : Parsed)
  | done (answer : Except (Located ParseError) Parsed)

/-- The parser between two steps: the innermost call, the calls that wait with the innermost first,
the source, and the number of scans made. -/
structure Config (σ : Type) where
  task : Task
  callers : List Frame
  tokens : σ
  scans : Nat

variable {σ : Type} [TokenSource σ]

/-- One step, with at most one scan. An answer for which nobody waits is final. -/
def step : Config σ → Config σ
  | ⟨.first limit, callers, tokens, scans⟩ =>
    match operand tokens with
    | (.error e, tokens) => ⟨.done (.error e), callers, tokens, scans + 1⟩
    | (.ok value, tokens) => ⟨.ahead limit value, callers, tokens, scans + 1⟩
  | ⟨.ahead limit value, callers, tokens, scans⟩ =>
    match next tokens with
    | (.error e, tokens) => ⟨.done (.error e), callers, tokens, scans + 1⟩
    | (.ok ahead, tokens) => ⟨.extend limit ⟨.literal value, 0, ahead⟩, callers, tokens, scans + 1⟩
  | ⟨.extend limit left, callers, tokens, scans⟩ =>
    if left.lookahead.value = .eof then ⟨.done (.ok left), callers, tokens, scans⟩
    else
      match BinOp.ofToken? left.lookahead.value with
      | none => ⟨.done (.error (left.lookahead.map .expectedOperator)), callers, tokens, scans⟩
      | some op =>
        if op.precedence ≤ limit then ⟨.done (.ok left), callers, tokens, scans⟩
        else ⟨.first op.precedence, ⟨limit, left, op⟩ :: callers, tokens, scans⟩
  | ⟨.done (.error e), _ :: callers, tokens, scans⟩ => ⟨.done (.error e), callers, tokens, scans⟩
  | ⟨.done (.ok right), ⟨limit, left, op⟩ :: callers, tokens, scans⟩ =>
    let depth := 1 + max left.depth right.depth
    if depth > maxDepth then
      ⟨.done (.error (left.lookahead.map fun _ => .tooDeep)), callers, tokens, scans⟩
    else
      ⟨.extend limit ⟨.binary op left.expr right.expr, depth, right.lookahead⟩, callers, tokens,
        scans⟩
  | ⟨.done answer, [], tokens, scans⟩ => ⟨.done answer, [], tokens, scans⟩

def run : Nat → Config σ → Config σ
  | 0, c => c
  | n + 1, c => run n (step c)

/-- A call with a limit is about to begin, and nobody waits for it. -/
def start (limit : Nat) (tokens : σ) : Config σ := ⟨.first limit, [], tokens, 0⟩

/-- The calls under way. -/
def Config.calls (c : Config σ) : Nat :=
  match c.task with
  | .done _ => c.callers.length
  | _ => c.callers.length + 1

theorem run_add (m n : Nat) (c : Config σ) : run (m + n) c = run n (run m c) := by
  induction m generalizing c with
  | zero => rw [Nat.zero_add, run]
  | succ m ih => rw [Nat.succ_add, run, ih, run]

theorem run_succ (n : Nat) (c : Config σ) : run (n + 1) c = step (run n c) := run_add n 1 c

/-- How deep calls may nest from one with this limit on: each limit is the precedence of an operator
that binds tighter than the limit before. -/
def levels (limit : Nat) : Nat :=
  if BinOp.mul.precedence ≤ limit then 1 else if BinOp.add.precedence ≤ limit then 2 else 3

theorem levels_bounds (limit : Nat) : 1 ≤ levels limit ∧ levels limit ≤ 3 := by
  unfold levels
  split
  · decide
  · split <;> decide

theorem levels_precedence {limit : Nat} {op : BinOp} (h : limit < op.precedence) :
    levels op.precedence + 1 ≤ levels limit := by
  have hlimit : ¬ BinOp.mul.precedence ≤ limit :=
    Nat.not_le.2 (Nat.lt_of_lt_of_le h op.precedence_le)
  have hlevels : levels limit = if BinOp.add.precedence ≤ limit then 2 else 3 := if_neg hlimit
  rw [hlevels]
  cases op with
  | add | sub =>
    have hloose : ¬ BinOp.add.precedence ≤ limit := Nat.not_le.2 h
    rw [if_neg hloose]
    decide
  | mul | div =>
    change 2 ≤ _
    split <;> decide

/-- Every call that waits leaves room for the calls that its limit allows. -/
def Room : List Frame → Prop
  | [] => True
  | frame :: callers => callers.length + levels frame.limit ≤ 3 ∧ Room callers

theorem next_snd (tokens : σ) : (next tokens).2 = (TokenSource.scan tokens).2 := by
  unfold next
  split <;> simp_all

theorem operand_snd (tokens : σ) : (operand tokens).2 = (TokenSource.scan tokens).2 := by
  rw [← next_snd]
  unfold operand
  split <;> simp_all

/-- What holds all along a run on a source: there is room for the calls, and the source has been
scanned as often as is counted. -/
structure Config.Legal (origin : σ) (c : Config σ) : Prop where
  waiting : Room c.callers
  innermost :
    match c.task with
    | .first limit | .ahead limit _ | .extend limit _ => c.callers.length + levels limit ≤ 3
    | .done _ => True
  counted : c.tokens = after origin c.scans

theorem start_legal (limit : Nat) (tokens : σ) : (start limit tokens).Legal tokens := by
  have hlimit : 0 + levels limit ≤ 3 := Nat.zero_add _ ▸ (levels_bounds limit).2
  exact ⟨trivial, hlimit, rfl⟩

theorem step_legal {origin : σ} (c : Config σ) (h : c.Legal origin) : (step c).Legal origin := by
  obtain ⟨task, callers, tokens, scans⟩ := c
  obtain ⟨hcallers, htask, htokens⟩ := h
  have htokens : tokens = after origin scans := htokens
  have hscan : (TokenSource.scan tokens).2 = after origin (scans + 1) := by rw [htokens, after]
  cases task with
  | first limit =>
    rw [← operand_snd] at hscan
    rw [step]
    split
    · next hoperand =>
      rw [hoperand] at hscan
      exact ⟨hcallers, trivial, hscan⟩
    · next hoperand =>
      rw [hoperand] at hscan
      exact ⟨hcallers, htask, hscan⟩
  | ahead limit value =>
    rw [← next_snd] at hscan
    rw [step]
    split
    · next hnext =>
      rw [hnext] at hscan
      exact ⟨hcallers, trivial, hscan⟩
    · next hnext =>
      rw [hnext] at hscan
      exact ⟨hcallers, htask, hscan⟩
  | extend limit left =>
    rw [step]
    split
    · exact ⟨hcallers, trivial, htokens⟩
    · split
      · exact ⟨hcallers, trivial, htokens⟩
      · split
        · exact ⟨hcallers, trivial, htokens⟩
        · next op hop hprec =>
          -- The new call has a larger limit, so it needs less room than its caller.
          have hlevels := levels_precedence (Nat.lt_of_not_le hprec)
          refine ⟨⟨htask, hcallers⟩, ?_, htokens⟩
          simp only [List.length_cons] at htask ⊢
          omega
  | done answer =>
    cases callers with
    | nil => cases answer <;> exact ⟨hcallers, trivial, htokens⟩
    | cons frame callers =>
      obtain ⟨hframe, hcallers⟩ := hcallers
      cases answer with
      | error e => exact ⟨hcallers, trivial, htokens⟩
      | ok right =>
        rw [step]
        split
        · exact ⟨hcallers, trivial, htokens⟩
        · exact ⟨hcallers, hframe, htokens⟩

theorem run_legal (limit : Nat) (tokens : σ) (n : Nat) :
    (run n (start limit tokens)).Legal tokens := by
  induction n with
  | zero => exact start_legal limit tokens
  | succ n ih =>
    rw [run_succ]
    exact step_legal _ ih

theorem Config.Legal.calls_le {origin : σ} {c : Config σ} (h : c.Legal origin) : c.calls ≤ 3 := by
  obtain ⟨task, callers, tokens, scans⟩ := c
  obtain ⟨hcallers, htask, -⟩ := h
  cases task with
  | done answer =>
    cases callers with
    | nil => exact Nat.zero_le 3
    | cons frame callers =>
      have hpos := (levels_bounds frame.limit).1
      have hframe := hcallers.1
      simp only [calls, List.length_cons]
      omega
  | first limit | ahead limit value | extend limit left =>
    have hpos := (levels_bounds limit).1
    simp only [calls] at htask ⊢
    omega

/-- The most scans of a call under which calls nest so many levels deep: two of its own, and those
of one call for each round. -/
def mostScans : Nat → Nat
  | 0 => 0
  | n + 1 => 2 + (maxDepth + 1) * mostScans n

theorem mostScans_mono {m n : Nat} (h : m ≤ n) : mostScans m ≤ mostScans n := by
  induction h with
  | refl => exact Nat.le_refl _
  | @step n h ih =>
    have hmul := Nat.le_mul_of_pos_left (mostScans n) (Nat.succ_pos maxDepth)
    exact Nat.le_trans ih (Nat.le_trans hmul (Nat.le_add_left _ 2))

theorem mostScans_levels (limit : Nat) :
    mostScans (levels limit) = 2 + (maxDepth + 1) * mostScans (levels limit - 1) := by
  obtain ⟨n, hn⟩ : ∃ n, levels limit = n + 1 :=
    Nat.exists_eq_add_of_le' (levels_bounds limit).1
  rw [hn, Nat.add_sub_cancel, mostScans]

theorem mostScans_precedence {limit : Nat} {op : BinOp} (h : limit < op.precedence) :
    mostScans (levels op.precedence) ≤ mostScans (levels limit - 1) := by
  apply mostScans_mono
  have hlevels := levels_precedence h
  omega

/-- The run comes from one configuration to the other. -/
def Leads (c c' : Config σ) : Prop := ∃ steps, run steps c = c'

theorem Leads.refl (c : Config σ) : Leads c c := ⟨0, rfl⟩

theorem Leads.head {c mid c' : Config σ} (hstep : step c = mid) (h : Leads mid c') :
    Leads c c' := by
  obtain ⟨steps, hrun⟩ := h
  refine ⟨steps + 1, ?_⟩
  rw [run, hstep, hrun]

theorem Leads.trans {c mid c' : Config σ} (h : Leads c mid) (h' : Leads mid c') : Leads c c' := by
  obtain ⟨m, rfl⟩ := h
  obtain ⟨n, rfl⟩ := h'
  exact ⟨m + n, run_add m n c⟩

/-- From this task the innermost call comes to the given answer, within so many scans, and whoever
waits for it waits on. -/
def Returns (task : Task) (tokens : σ) (most : Nat)
    (result : Except (Located ParseError) Parsed × σ) : Prop :=
  ∀ callers scans, ∃ count ≤ most,
    Leads ⟨task, callers, tokens, scans⟩ ⟨.done result.1, callers, result.2, scans + count⟩

/-- The right operand is read by a call for which the left one waits. -/
theorem Returns.right {limit : Nat} {left : Parsed} {tokens : σ} {op : BinOp}
    {result : Except (Located ParseError) Parsed × σ}
    (h : Returns (.first op.precedence) tokens (mostScans (levels op.precedence)) result)
    (hop : BinOp.ofToken? left.lookahead.value = some op) (hprec : ¬ op.precedence ≤ limit)
    (callers : List Frame) (scans : Nat) :
    ∃ count ≤ mostScans (levels limit - 1), Leads ⟨.extend limit left, callers, tokens, scans⟩
      ⟨.done result.1, ⟨limit, left, op⟩ :: callers, result.2, scans + count⟩ := by
  obtain ⟨count, hcount, hleads⟩ := h (⟨limit, left, op⟩ :: callers) scans
  have hmost := mostScans_precedence (Nat.lt_of_not_le hprec)
  refine ⟨count, Nat.le_trans hcount hmost, .head ?_ hleads⟩
  have heof : left.lookahead.value ≠ .eof := by
    intro heof
    simp [heof, BinOp.ofToken?] at hop
  rw [step, if_neg heof, hop]
  simp only [hprec, if_false]

/-- A round, and as many rounds after it as the depth allows. -/
theorem rounds_le {depth most count count' : Nat} (hdepth : depth ≤ maxDepth)
    (hcount : count ≤ most) (hcount' : count' ≤ (maxDepth - depth) * most) :
    count + count' ≤ (maxDepth + 1 - depth) * most := by
  calc count + count' ≤ most + (maxDepth - depth) * most := Nat.add_le_add hcount hcount'
    _ = (maxDepth - depth + 1) * most := by rw [Nat.succ_mul, Nat.add_comm]
    _ = (maxDepth + 1 - depth) * most := by rw [Nat.sub_add_comm hdepth]

/-- By the recursion of the parser: the limit of a call inside is larger, and every round makes the
left operand deeper. -/
theorem climb_extend_returns :
    (∀ (limit : Nat) (tokens : σ),
      Returns (.first limit) tokens (mostScans (levels limit)) (climb limit tokens)) ∧
    ∀ (limit : Nat) (left : Parsed) (tokens : σ), left.depth ≤ maxDepth →
      Returns (.extend limit left) tokens
        ((maxDepth + 1 - left.depth) * mostScans (levels limit - 1))
        (extend limit left tokens) := by
  apply climb.mutual_induct
  case case1 =>
    intro limit tokens e mid hoperand callers scans
    rw [climb, hoperand, mostScans_levels]
    refine ⟨1, by omega, .head ?_ (.refl _)⟩
    rw [step, hoperand]
  case case2 =>
    intro limit tokens value mid hoperand e mid' hnext callers scans
    rw [climb, hoperand, mostScans_levels]
    simp only [hnext]
    refine ⟨2, by omega, .head (by rw [step, hoperand]) (.head ?_ (.refl _))⟩
    rw [step, hnext]
  case case3 =>
    intro limit tokens value mid hoperand ahead mid' hnext ih callers scans
    obtain ⟨count, hcount, hleads⟩ := ih (Nat.zero_le _) callers (scans + 2)
    rw [climb, hoperand, mostScans_levels]
    simp only [hnext]
    refine ⟨2 + count, Nat.add_le_add_left hcount 2, ?_⟩
    rw [← Nat.add_assoc]
    refine .head (by rw [step, hoperand]) (.head ?_ hleads)
    rw [step, hnext]
  case case4 =>
    intro limit left tokens heof hdepth callers scans
    rw [extend, if_pos heof]
    refine ⟨0, Nat.zero_le _, .head ?_ (.refl _)⟩
    rw [step, if_pos heof, Nat.add_zero]
  case case5 =>
    intro limit left tokens heof hop hdepth callers scans
    rw [extend, if_neg heof, hop]
    refine ⟨0, Nat.zero_le _, .head ?_ (.refl _)⟩
    rw [step, if_neg heof, hop, Nat.add_zero]
  case case6 =>
    intro limit left tokens heof op hop hprec hdepth callers scans
    rw [extend, if_neg heof, hop]
    simp only [hprec, if_true]
    refine ⟨0, Nat.zero_le _, .head ?_ (.refl _)⟩
    rw [step, if_neg heof, hop]
    simp only [hprec, if_true, Nat.add_zero]
  case case7 =>
    intro limit left tokens heof op hop hprec e mid hclimb ih hdepth callers scans
    obtain ⟨count, hcount, hleads⟩ := ih.right hop hprec callers scans
    rw [hclimb] at hleads
    rw [extend, if_neg heof, hop]
    simp only [hprec, if_false, hclimb]
    exact ⟨count, rounds_le hdepth hcount (Nat.zero_le _), hleads.trans (.head rfl (.refl _))⟩
  case case8 =>
    intro limit left tokens heof op hop hprec right mid hclimb depth hdeep ih hdepth callers scans
    obtain ⟨count, hcount, hleads⟩ := ih.right hop hprec callers scans
    rw [hclimb] at hleads
    rw [extend, if_neg heof, hop]
    simp only [hprec, if_false, hclimb, depth, hdeep, if_true]
    refine ⟨count, rounds_le hdepth hcount (Nat.zero_le _), hleads.trans (.head ?_ (.refl _))⟩
    rw [step, if_pos hdeep]
  case case9 =>
    intro limit left tokens heof op hop hprec right mid hclimb depth hdeep ihr ih hdepth callers
      scans
    have hdepth' := Nat.le_of_not_lt hdeep
    obtain ⟨count, hcount, hleads⟩ := ihr.right hop hprec callers scans
    obtain ⟨count', hcount', hleads'⟩ := ih hdepth' callers (scans + count)
    rw [hclimb] at hleads
    rw [extend_of_climb left hop (Nat.lt_of_not_le hprec) hclimb hdepth']
    have hrounds : maxDepth + 1 - depth ≤ maxDepth - left.depth := by omega
    refine ⟨count + count', rounds_le hdepth hcount ?_, hleads.trans ?_⟩
    · exact Nat.le_trans hcount' (Nat.mul_le_mul_right _ hrounds)
    · rw [← Nat.add_assoc]
      refine .head ?_ hleads'
      rw [step, if_neg hdeep]

theorem parse_snd (tokens : σ) : (parse tokens).2 = (expression 0 tokens).2 := by
  rw [parse]
  split
  · next h => rw [h]
  · next h =>
    rw [h]
    split <;> rfl

/-- Parsing ends on every source, also on one that never does. The step by step run of a call
returns, with the answer of the parser, after at most `2 * (1 + 1001 + 1001 * 1001)` scans, and
never more than three calls are under way. A whole text is parsed without any further scan. -/
theorem expression_terminates (limit : Nat) (tokens : σ) :
    ∃ steps scans answer,
      run steps (start limit tokens) = ⟨.done answer, [], after tokens scans, scans⟩ ∧
      scans ≤ 2 * (1 + 1001 + 1001 * 1001) ∧
      (∀ k, (run k (start limit tokens)).calls ≤ 3) ∧
      expression limit tokens =
        (answer.map fun parsed => (parsed.expr, parsed.lookahead), after tokens scans) ∧
      (limit = 0 → (parse tokens).2 = after tokens scans) := by
  obtain ⟨scans, hscans, steps, hrun⟩ := climb_extend_returns.1 limit tokens [] 0
  rw [Nat.zero_add] at hrun
  have hrest : (climb limit tokens).2 = after tokens scans := by
    have hcounted := (run_legal limit tokens steps).counted
    rwa [start, hrun] at hcounted
  have hexpression : expression limit tokens =
      ((climb limit tokens).1.map fun parsed => (parsed.expr, parsed.lookahead),
        after tokens scans) := by
    rw [← hrest, expression]
    split
    · next h =>
      rw [h]
      rfl
    · next h =>
      rw [h]
      rfl
  refine ⟨steps, scans, (climb limit tokens).1, ?_, ?_, ?_, hexpression, ?_⟩
  · rw [start, hrun, hrest]
  · exact Nat.le_trans hscans (mostScans_mono (levels_bounds limit).2)
  · exact fun k => (run_legal limit tokens k).calls_le
  · rintro rfl
    rw [parse_snd, hexpression]

end ArithCompiler.Parser
