import ArithCompiler.Token.Basic

/-! # Scanning tokens

`Input.scan` delivers the next token of an input together with its span. After an error scanning
may go on with what follows: a line that could not be read and an unrecognized character are passed
over, and the digits left behind by a literal that is too large start a new one.
-/

namespace ArithCompiler

/-- The six characters that separate tokens. -/
def isBlank (c : Char) : Bool :=
  c = ' ' || c = '\t' || c = '\n' || c = '\r' || c = '\x0b' || c = '\x0c'

def digitValue (c : Char) : Nat := c.toNat - '0'.toNat

namespace Input

/-- The first character that is not blank. -/
def skipBlanks (input : Input) : Except ReadError (Option Char) × Input :=
  match _h : input.next with
  | (.ok (some c), rest) => if isBlank c then rest.skipBlanks else (.ok (some c), rest)
  | (.ok none, rest) => (.ok none, rest)
  | (.error e, rest) => (.error e, rest)
termination_by input.remaining
decreasing_by exact next_remaining_lt _h

/-- The value of a literal whose digits so far have the value `value`. The first character after the
digits is held back; a value that is too large is an error as soon as it is. -/
def literal (value : Nat) (input : Input) : Except LexError Nat × Input :=
  match _h : input.next with
  | (.ok (some c), rest) =>
    if c.isDigit then
      let larger := value * 10 + digitValue c
      if larger ≤ maxLiteral then rest.literal larger else (.error .overflow, rest)
    else (.ok value, rest.putback c)
  | (.ok none, rest) => (.ok value, rest)
  | (.error e, rest) => (.error (.input e), rest)
termination_by input.remaining
decreasing_by exact next_remaining_lt _h

/-- The next token, or the error in its place. -/
def scan (input : Input) : Except (Located LexError) (Located Token) × Input :=
  match input.skipBlanks with
  | (.error e, rest) => (.error ⟨.input e, rest.here⟩, rest)
  | (.ok none, rest) => (.ok ⟨.eof, rest.here⟩, rest)
  | (.ok (some c), rest) =>
    let start := rest.previous
    match Token.ofSign? c with
    | some token => (.ok ⟨token, rest.spanFrom start⟩, rest)
    | none =>
      if c.isDigit then
        match rest.literal (digitValue c) with
        | (.ok value, rest) => (.ok ⟨.literal (Int64.ofNat value), rest.spanFrom start⟩, rest)
        | (.error e, rest) => (.error ⟨e, rest.spanFrom start⟩, rest)
      else (.error ⟨.unrecognized c, rest.spanFrom start⟩, rest)

theorem skipBlanks_remaining_lt {input rest : Input} {c : Char}
    (h : input.skipBlanks = (.ok (some c), rest)) : rest.remaining < input.remaining := by
  fun_induction skipBlanks input with
  | case1 input c' mid hn hb ih => exact Nat.lt_trans (ih h) (next_remaining_lt hn)
  | case2 input c' mid hn hb =>
    simp only [Prod.mk.injEq] at h
    rw [← h.2]
    exact next_remaining_lt hn
  | case3 => simp at h
  | case4 => simp at h

theorem literal_remaining_le (value : Nat) (input : Input) :
    (input.literal value).2.remaining ≤ input.remaining := by
  fun_induction literal value input with
  | case1 _ input c rest hn hd larger hl ih =>
    exact Nat.le_trans ih (Nat.le_of_lt (next_remaining_lt hn))
  | case2 _ input c rest hn => exact Nat.le_of_lt (next_remaining_lt hn)
  | case3 value input c rest hn hd =>
    have hheld : rest.held = none := by
      have := next_held input
      rwa [hn] at this
    rw [putback_remaining rest c hheld]
    exact next_remaining_lt hn
  | case4 value input rest hn | case5 value input e rest hn =>
    have := next_remaining_le input
    rwa [hn] at this

/-- Every token but the end takes a character. -/
theorem scan_remaining_lt {input rest : Input} {token : Located Token}
    (h : input.scan = (.ok token, rest)) (ht : token.value ≠ .eof) :
    rest.remaining < input.remaining := by
  unfold scan at h
  split at h
  · simp at h
  · simp only [Prod.mk.injEq, Except.ok.injEq] at h
    rw [← h.1] at ht
    exact absurd rfl ht
  · next c mid hs =>
    have hlt := skipBlanks_remaining_lt hs
    simp only at h
    split at h
    · simp only [Prod.mk.injEq] at h
      rwa [← h.2]
    · split at h
      · have hle := literal_remaining_le (digitValue c) mid
        split at h
        · next hlit =>
          rw [hlit] at hle
          simp only [Prod.mk.injEq] at h
          rw [← h.2]
          exact Nat.lt_of_le_of_lt hle hlt
        · simp at h
      · simp at h

/-- All tokens up to the end, or the first error. -/
def tokens (input : Input) : Except (Located LexError) (List (Located Token)) × Input :=
  match _h : input.scan with
  | (.error e, rest) => (.error e, rest)
  | (.ok token, rest) =>
    if _ht : token.value = .eof then (.ok [token], rest)
    else
      match rest.tokens with
      | (.ok later, rest) => (.ok (token :: later), rest)
      | (.error e, rest) => (.error e, rest)
termination_by input.remaining
decreasing_by exact scan_remaining_lt _h _ht

end Input

end ArithCompiler
