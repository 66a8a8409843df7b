import ArithCompiler.Proofs.Expr.Chain

/-! # What the results of a source decide

The results of a source are read one by one. The reader keeps the operators that still wait for
their right operand, and every token completes those of them that bind at least as tight as it does.
Each result by itself decides something or nothing: it may be out of place, it may complete a node
that is too deep, or it may be the end. The first decision is the verdict on the source.
-/

namespace ArithCompiler

/-- What one scan gives. -/
abbrev ScanResult := Except (Located LexError) (Located Token)

namespace TokenSource

variable {σ : Type} [TokenSource σ]

/-- The source after `n` scans. -/
def after (tokens : σ) : Nat → σ
  | 0 => tokens
  | n + 1 => (scan (after tokens n)).2

/-- The results of a source, from the first scan on. -/
def results (tokens : σ) (n : Nat) : ScanResult := (scan (after tokens n)).1

theorem scan_after (tokens : σ) (n : Nat) :
    scan (after tokens n) = (results tokens n, after tokens (n + 1)) := rfl

theorem after_succ (tokens : σ) (n : Nat) : after tokens (n + 1) = after (scan tokens).2 n := by
  induction n with
  | zero => rfl
  | succ n ih => rw [after, ih, after]

theorem results_succ (tokens : σ) (n : Nat) :
    results tokens (n + 1) = results (scan tokens).2 n := by
  rw [results, after_succ, results]

theorem after_add (tokens : σ) (m n : Nat) : after tokens (m + n) = after (after tokens m) n := by
  induction n with
  | zero => rfl
  | succ n ih => rw [← Nat.add_assoc, after, ih, after]

theorem results_after (tokens : σ) (m n : Nat) :
    results (after tokens m) n = results tokens (m + n) := by
  rw [results, ← after_add, results]

end TokenSource

/-- Whether a token completes the right operand of an operator that waits for it: the end completes
all of them, an operator those that it does not bind tighter than. -/
def Token.completes (token : Token) (op : BinOp) : Bool :=
  token = .eof || (BinOp.ofToken? token).any (·.precedence ≤ op.precedence)

theorem Token.completes_iff {token : Token} {op : BinOp} :
    token.completes op = true ↔ token.Stops op.precedence := by
  cases h : BinOp.ofToken? token <;> simp [completes, Stops, h]

/-- An operator that waits for its right operand, with the place of its token. -/
structure Waiting where
  left : Expr
  op : BinOp
  span : Span
  deriving DecidableEq, Repr

/-- What has been read: the operators that wait, the innermost first, and the operand after them. -/
structure Unfinished where
  waiting : List Waiting
  operand : Expr
  deriving DecidableEq, Repr

namespace Unfinished

/-- The nodes of waiting operators, the innermost first: each is the right operand of the next. Each
node is at the place of its operator. -/
def nodesOf : List Waiting → Expr → List (Located Expr)
  | [], _ => []
  | w :: ws, e => ⟨.binary w.op w.left e, w.span⟩ :: nodesOf ws (.binary w.op w.left e)

/-- The nodes that a token completes. -/
def nodes (s : Unfinished) (token : Token) : List (Located Expr) :=
  nodesOf (s.waiting.filter (token.completes ·.op)) s.operand

/-- What is left when a token has completed its nodes. -/
def complete (s : Unfinished) (token : Token) : Unfinished where
  waiting := s.waiting.filter (!token.completes ·.op)
  operand := (s.waiting.filter (token.completes ·.op)).foldl (fun e w => .binary w.op w.left e)
    s.operand

/-- One more result: an operator waits after what it completes, a literal is the operand. -/
def read (s : Unfinished) : ScanResult → Unfinished
  | .error _ => s
  | .ok token =>
    let rest := s.complete token.value
    match token.value, BinOp.ofToken? token.value with
    | .literal value, _ => { rest with operand := .literal value }
    | _, some op => { rest with waiting := ⟨rest.operand, op, token.span⟩ :: rest.waiting }
    | _, none => rest

/-- A token that completes none of the operators changes nothing. -/
theorem complete_of_not {token : Token} {ws : List Waiting} (e : Expr)
    (h : ∀ w ∈ ws, token.completes w.op = false) :
    nodes ⟨ws, e⟩ token = [] ∧ complete ⟨ws, e⟩ token = ⟨ws, e⟩ := by
  have hnone : ws.filter (token.completes ·.op) = [] := by simpa using h
  have hall : ws.filter (!token.completes ·.op) = ws := by simpa using h
  constructor
  · rw [nodes, hnone, nodesOf]
  · rw [complete, hnone, hall, List.foldl_nil]

theorem read_literal (s : Unfinished) (value : Int64) (span : Span) :
    s.nodes (.literal value) = [] ∧
      s.read (.ok ⟨.literal value, span⟩) = ⟨s.waiting, .literal value⟩ := by
  have hnot : ∀ w ∈ s.waiting, (Token.literal value).completes w.op = false := fun _ _ => rfl
  obtain ⟨hnodes, hrest⟩ := complete_of_not s.operand hnot
  exact ⟨hnodes, by simp only [read, hrest]⟩

theorem read_operator (s : Unfinished) {token : Located Token} {op : BinOp}
    (hop : BinOp.ofToken? token.value = some op) :
    s.read (.ok token) = ⟨⟨(s.complete token.value).operand, op, token.span⟩ ::
      (s.complete token.value).waiting, (s.complete token.value).operand⟩ := by
  cases htoken : token.value <;> simp_all [read, BinOp.ofToken?]

theorem read_eof (s : Unfinished) {token : Located Token} (heof : token.value = .eof) :
    s.read (.ok token) = s.complete token.value := by
  simp [read, heof, BinOp.ofToken?]

end Unfinished

section Results

variable (r : Nat → ScanResult)

/-- What has been read after `n` results. -/
def unfinished : Nat → Unfinished
  | 0 => ⟨[], default⟩
  | n + 1 => (unfinished n).read (r n)

/-- The nodes that result `n` completes, in the order in which it does. -/
def completedAt (n : Nat) : List (Located Expr) :=
  match r n with
  | .ok token => (unfinished r n).nodes token.value
  | .error _ => []

-- In `1+2*3-…` the last sign completes the product and then the sum.
example :
    let token (value : Token) (column : Nat) : Located Token := ⟨value, .single ⟨1, column⟩⟩
    let tokens := [token (.literal 1) 1, token .plus 2, token (.literal 2) 3, token .star 4,
      token (.literal 3) 5, token .minus 6]
    completedAt (fun n => .ok (tokens.getD n default)) 5 =
      [⟨.binary .mul (.literal 2) (.literal 3), .single ⟨1, 4⟩⟩,
        ⟨.binary .add (.literal 1) (.binary .mul (.literal 2) (.literal 3)), .single ⟨1, 2⟩⟩] := by
  decide

end Results

def Token.isLiteral : Token → Bool
  | .literal _ => true
  | _ => false

/-- The error of a result that is out of place: an error of the scan, a token other than a literal
at an even index, or a literal at an odd one. -/
def stray? (n : Nat) : ScanResult → Option (Located ParseError)
  | .error e => some (e.map .lexical)
  | .ok token =>
    if n % 2 = 0 then
      if token.value.isLiteral then none else some (token.map .expectedLiteral)
    else if token.value.isLiteral then some (token.map .expectedOperator)
    else none

theorem Token.Stops.isLiteral {limit : Nat} {token : Token} (h : token.Stops limit) :
    token.isLiteral = false := by
  cases token with
  | literal value => simp [Stops, BinOp.ofToken?] at h
  | _ => rfl

/-- A node that nests more operations than are allowed. -/
def isDeep (node : Located Expr) : Bool := maxDepth < node.value.height

def isEnd : ScanResult → Bool
  | .ok token => token.value = .eof
  | .error _ => false

section Results

variable (r : Nat → ScanResult)

/-- What result `n` decides by itself, if anything. -/
def verdict? (n : Nat) : Option (Except (Located ParseError) Expr) :=
  match stray? n (r n), (completedAt r n).find? isDeep, isEnd (r n) with
  | some e, _, _ => some (.error e)
  | none, some node, _ => some (.error ⟨.tooDeep, node.span⟩)
  | none, none, true => some (.ok (unfinished r (n + 1)).operand)
  | none, none, false => none

/-- Nothing is decided before `n`. -/
def Undecided (n : Nat) : Prop := ∀ k < n, verdict? r k = none

/-- The verdict on a source, and the result that decides it. -/
structure FirstVerdict (n : Nat) (v : Except (Located ParseError) Expr) : Prop where
  undecided : Undecided r n
  verdict : verdict? r n = some v

/-- The end of a source is `eof` at an odd index. -/
def EndsAt (n : Nat) : Prop := n % 2 = 1 ∧ isEnd (r n) = true

/-- Result `n` is the first that is out of place, and `e` is its error. Nothing beyond the end
counts. -/
def FirstStray (n : Nat) (e : Located ParseError) : Prop :=
  stray? n (r n) = some e ∧ ∀ k < n, stray? k (r k) = none ∧ ¬ EndsAt r k

/-- All results up to `n` are in place, and none before it is the end. -/
def InPlace (n : Nat) : Prop :=
  (∀ k ≤ n, stray? k (r k) = none) ∧ ∀ k < n, ¬ EndsAt r k

/-- A result in place completes a node that is too deep. -/
def RunsDeep : Prop :=
  ∃ n, InPlace r n ∧ ∃ node ∈ completedAt r n, maxDepth < node.value.height

/-- The first node that is too deep is `node`, completed by result `n` in its place. -/
def FirstDeep (n : Nat) (node : Located Expr) : Prop :=
  InPlace r n ∧ (completedAt r n).find? isDeep = some node ∧
    ∀ k < n, ∀ other ∈ completedAt r k, other.value.height ≤ maxDepth

variable {r} {n : Nat} {v : Except (Located ParseError) Expr}

theorem verdict?_of_stray {e : Located ParseError} (h : stray? n (r n) = some e) :
    verdict? r n = some (.error e) := by
  simp [verdict?, h]

/-- A literal in its place decides nothing and is the next operand. -/
theorem verdict?_literal {value : Int64} {span : Span} (heven : n % 2 = 0)
    (hr : r n = .ok ⟨.literal value, span⟩) :
    verdict? r n = none ∧ unfinished r (n + 1) = ⟨(unfinished r n).waiting, .literal value⟩ := by
  obtain ⟨hnodes, hread⟩ := (unfinished r n).read_literal value span
  constructor
  · simp [verdict?, completedAt, hr, hnodes, stray?, heven, Token.isLiteral, isEnd]
  · rw [unfinished, hr, hread]

theorem find?_isDeep_eq_none_iff {nodes : List (Located Expr)} :
    nodes.find? isDeep = none ↔ ∀ node ∈ nodes, node.value.height ≤ maxDepth := by
  simp [List.find?_eq_none, isDeep]

theorem stray?_value {e : Located ParseError} (h : stray? n (r n) = some e) :
    e.value ≠ .tooDeep ∧ ∀ found, e.value ≠ .trailingInput found := by
  cases hresult : r n with
  | error cause =>
    rw [hresult] at h
    cases h
    simp
  | ok token =>
    simp only [hresult, stray?] at h
    split at h <;> split at h <;> cases h <;> simp

/-- An `eof` in its place stands at an odd index. -/
theorem endsAt_of_isEnd (hplace : stray? n (r n) = none) (hend : isEnd (r n) = true) :
    EndsAt r n := by
  cases hresult : r n with
  | error e => simp [hresult, isEnd] at hend
  | ok token =>
    have heof : token.value = .eof := by simpa [hresult, isEnd] using hend
    have hodd : n % 2 ≠ 0 := by
      intro heven
      simp [hresult, stray?, heven, heof, Token.isLiteral] at hplace
    exact ⟨Nat.mod_two_ne_zero.1 hodd, hend⟩

theorem verdict?_cases (h : verdict? r n = some v) :
    (∃ e, stray? n (r n) = some e ∧ v = .error e) ∨
      (∃ node, stray? n (r n) = none ∧ (completedAt r n).find? isDeep = some node ∧
        v = .error ⟨.tooDeep, node.span⟩) ∨
      (stray? n (r n) = none ∧ (completedAt r n).find? isDeep = none ∧ EndsAt r n ∧
        v = .ok (unfinished r (n + 1)).operand) := by
  rw [verdict?] at h
  split at h
  · next e hstray =>
    cases h
    exact .inl ⟨e, hstray, rfl⟩
  · next node hplace hfind =>
    cases h
    exact .inr (.inl ⟨node, hplace, hfind, rfl⟩)
  · next hplace hfind hend =>
    cases h
    exact .inr (.inr ⟨hplace, hfind, endsAt_of_isEnd hplace hend, rfl⟩)
  · cases h

namespace Undecided

theorem succ (h : Undecided r n) (hn : verdict? r n = none) : Undecided r (n + 1) := by
  intro k hk
  obtain hlt | rfl := Nat.lt_succ_iff_lt_or_eq.1 hk
  · exact h k hlt
  · exact hn

theorem before (h : Undecided r n) {k : Nat} (hk : k < n) :
    stray? k (r k) = none ∧ ¬ EndsAt r k ∧
      ∀ node ∈ completedAt r k, node.value.height ≤ maxDepth := by
  have hnone := h k hk
  rw [verdict?] at hnone
  split at hnone
  · cases hnone
  · cases hnone
  · cases hnone
  · next hplace hfind hend =>
    exact ⟨hplace, fun hends => by simp [hends.2] at hend, find?_isDeep_eq_none_iff.1 hfind⟩

theorem inPlace (h : Undecided r n) (hplace : stray? n (r n) = none) : InPlace r n := by
  constructor
  · intro k hk
    obtain hlt | rfl := Nat.lt_or_eq_of_le hk
    · exact (h.before hlt).1
    · exact hplace
  · intro k hk
    exact (h.before hk).2.1

theorem firstDeep (h : Undecided r n) {node : Located Expr} (hplace : stray? n (r n) = none)
    (hfind : (completedAt r n).find? isDeep = some node) : FirstDeep r n node :=
  ⟨h.inPlace hplace, hfind, fun _ hk => (h.before hk).2.2⟩

theorem firstStray (h : Undecided r n) {e : Located ParseError}
    (hstray : stray? n (r n) = some e) : FirstStray r n e :=
  ⟨hstray, fun _ hk => ⟨(h.before hk).1, (h.before hk).2.1⟩⟩

end Undecided

theorem FirstDeep.runsDeep {node : Located Expr} (h : FirstDeep r n node) : RunsDeep r := by
  obtain ⟨hplace, hfind, -⟩ := h
  have hdeep : isDeep node = true := List.find?_some hfind
  exact ⟨n, hplace, node, List.mem_of_find?_eq_some hfind, by simpa [isDeep] using hdeep⟩

namespace FirstVerdict

theorem le_of_ne_none {m : Nat} (hv : FirstVerdict r n v) (hm : verdict? r m ≠ none) : n ≤ m :=
  Nat.le_of_not_lt fun hlt => hm (hv.undecided m hlt)

/-- There is only one first verdict. -/
theorem unique {m : Nat} {w : Except (Located ParseError) Expr} (hv : FirstVerdict r n v)
    (hw : FirstVerdict r m w) : v = w := by
  have hnm := hv.le_of_ne_none (m := m) (by simp [hw.verdict])
  have hmn := hw.le_of_ne_none (m := n) (by simp [hv.verdict])
  obtain rfl := Nat.le_antisymm hnm hmn
  exact Option.some.inj (hv.verdict.symm.trans hw.verdict)

/-- A node that is too deep is noticed where the first of them is completed. -/
theorem tooDeep (h : FirstVerdict r n v) (hdeep : RunsDeep r) :
    ∃ node, FirstDeep r n node ∧ v = .error ⟨.tooDeep, node.span⟩ := by
  obtain ⟨k, hplace, node, hnode, hheight⟩ := hdeep
  have hle : n ≤ k := by
    apply Nat.le_of_not_lt
    intro hlt
    exact Nat.not_lt_of_le ((h.undecided.before hlt).2.2 node hnode) hheight
  obtain ⟨e, hstray, -⟩ | ⟨first, hfirst, hfind, hv⟩ | ⟨-, hfind, hends, -⟩ :=
    verdict?_cases h.verdict
  · simp [hplace.1 n hle] at hstray
  · exact ⟨first, h.undecided.firstDeep hfirst hfind, hv⟩
  · obtain hlt | rfl := Nat.lt_or_eq_of_le hle
    · exact absurd hends (hplace.2 n hlt)
    · exact absurd hheight (Nat.not_lt_of_le (find?_isDeep_eq_none_iff.1 hfind node hnode))

theorem runsDeep (h : FirstVerdict r n v) {span : Span} (hv : v = .error ⟨.tooDeep, span⟩) :
    RunsDeep r := by
  obtain ⟨e, hstray, rfl⟩ | ⟨first, hfirst, hfind, -⟩ | ⟨-, -, -, rfl⟩ := verdict?_cases h.verdict
  · cases hv
    exact absurd rfl (stray?_value hstray).1
  · exact (h.undecided.firstDeep hfirst hfind).runsDeep
  · cases hv

/-- Where no node is too deep, the first result out of place decides. -/
theorem stray (h : FirstVerdict r n v) (hdeep : ¬ RunsDeep r) {k : Nat} {e : Located ParseError}
    (hstray : FirstStray r k e) : k = n ∧ v = .error e := by
  obtain ⟨hk, hbefore⟩ := hstray
  have hle : n ≤ k := by
    apply Nat.le_of_not_lt
    intro hlt
    simp [(h.undecided.before hlt).1] at hk
  obtain ⟨e', hn, rfl⟩ | ⟨first, hfirst, hfind, -⟩ | ⟨hplace, -, hends, -⟩ :=
    verdict?_cases h.verdict
  · obtain hlt | rfl := Nat.lt_or_eq_of_le hle
    · simp [(hbefore n hlt).1] at hn
    · rw [hk] at hn
      cases hn
      exact ⟨rfl, rfl⟩
  · exact absurd (h.undecided.firstDeep hfirst hfind).runsDeep hdeep
  · obtain hlt | rfl := Nat.lt_or_eq_of_le hle
    · exact absurd hends (hbefore n hlt).2
    · simp [hplace] at hk

/-- Where no node is too deep and all results are in place, the end decides. -/
theorem success (h : FirstVerdict r n v) (hdeep : ¬ RunsDeep r)
    (hstray : ¬ ∃ k e, FirstStray r k e) :
    EndsAt r n ∧ (∀ k < n, ¬ EndsAt r k) ∧ ∃ t, v = .ok t := by
  obtain ⟨e, hn, -⟩ | ⟨first, hfirst, hfind, -⟩ | ⟨-, -, hends, hv⟩ := verdict?_cases h.verdict
  · exact absurd ⟨n, e, h.undecided.firstStray hn⟩ hstray
  · exact absurd (h.undecided.firstDeep hfirst hfind).runsDeep hdeep
  · exact ⟨hends, fun k hk => (h.undecided.before hk).2.1, _, hv⟩

theorem ne_trailingInput (h : FirstVerdict r n v) (found : Token) (span : Span) :
    v ≠ .error ⟨.trailingInput found, span⟩ := by
  rintro rfl
  obtain ⟨e, hstray, he⟩ | ⟨first, -, -, hv⟩ | ⟨-, -, -, hv⟩ := verdict?_cases h.verdict
  · cases he
    exact (stray?_value hstray).2 found rfl
  · cases hv
  · cases hv

end FirstVerdict

end Results

end ArithCompiler
