import ArithCompiler.Proofs.Expr.Chain
import ArithCompiler.Proofs.Token.Lexeme

/-! # The language of expressions

A text is an expression when it is a sequence of operands with operators between them, where an
operand is a run of digits with blanks around it. The front end accepts exactly the byte strings
that encode such a text and whose tree is not too deep, and gives that tree.
-/

namespace ArithCompiler

/-- The character that an operator is written as. -/
def BinOp.sign : BinOp → Char
  | add => '+'
  | sub => '-'
  | mul => '*'
  | div => '/'

/-- The characters that may stand around an operand. -/
def blankChars : List Char := [' ', '\t', '\n', '\r', '\x0b', '\x0c']

theorem isBlank_iff {c : Char} : isBlank c = true ↔ c ∈ blankChars := by
  simp [isBlank, blankChars, or_assoc]

/-- An operand in a text: digits of a value below the 63rd power of two, with blanks before and
after them. -/
inductive OperandText : List Char → Int64 → Prop
  | run {before digits after : List Char} (hbefore : ∀ c ∈ before, c ∈ blankChars)
      (hne : digits ≠ []) (hdigits : ∀ c ∈ digits, c.isDigit = true)
      (hlt : Nat.ofDigitChars 10 digits 0 < 0x8000000000000000)
      (hafter : ∀ c ∈ after, c ∈ blankChars) :
      OperandText (before ++ digits ++ after) (Int64.ofNat (Nat.ofDigitChars 10 digits 0))

/-- A chain in a text: operands, with one operator between each two. -/
inductive ChainText : List Char → Int64 → List (BinOp × Int64) → Prop
  | operand {text : List Char} {first : Int64} (h : OperandText text first) :
      ChainText text first []
  | binary {text later : List Char} {first second : Int64} {op : BinOp}
      {ops : List (BinOp × Int64)} (h : OperandText text first)
      (hlater : ChainText later second ops) :
      ChainText (text ++ op.sign :: later) first ((op, second) :: ops)

theorem BinOp.exists_token (op : BinOp) :
    ∃ token, Token.ofSign? op.sign = some token ∧ BinOp.ofToken? token = some op := by
  cases op <;> exact ⟨_, rfl, rfl⟩

theorem Token.Spelled.eq_sign {token : Token} {lexeme : List Char} {op : BinOp}
    (h : token.Spelled lexeme) (hop : BinOp.ofToken? token = some op) : lexeme = [op.sign] := by
  cases h with
  | sign h =>
    rcases eq_sign_of_ofSign? h with rfl | rfl | rfl | rfl <;>
      · cases h
        cases hop
        rfl
  | literal => simp [BinOp.ofToken?] at hop
  | eof => simp [BinOp.ofToken?] at hop

theorem Token.Spelled.eq_nil {lexeme : List Char} (h : Token.eof.Spelled lexeme) : lexeme = [] := by
  cases h with
  | sign h => rcases eq_sign_of_ofSign? h with rfl | rfl | rfl | rfl <;> cases h
  | eof => rfl

/-- A literal and the token after it are an operand and that token's spelling. -/
theorem heads_operand {value : Int64} {token : Token}
    {items mid later : List (Except ReadError Char)}
    (hvalue : (Token.literal value).Heads items mid) (htoken : token.Heads mid later) :
    ∃ text lexeme, OperandText text value ∧ items = (text ++ lexeme).map .ok ++ later ∧
      token.Spelled lexeme ∧ token.EndsAt later := by
  rcases hvalue with ⟨before, digits, hitems, hbefore, hspelled, hends⟩
  rcases htoken with ⟨after, lexeme, hmid, hafter, hlexeme, hlater⟩
  refine ⟨before ++ digits ++ after, lexeme, ?_, by simp [hitems, hmid], hlexeme, hlater⟩
  cases hspelled with
  | sign h => rcases eq_sign_of_ofSign? h with rfl | rfl | rfl | rfl <;> cases h
  | literal hne hdigits hle =>
    exact .run (fun c hc => isBlank_iff.1 (hbefore c hc)) hne hdigits (Nat.lt_succ_of_le hle)
      fun c hc => isBlank_iff.1 (hafter c hc)

/-- An operand, followed by the spelling of a token that is no literal, is delivered as the two. -/
theorem operand_heads {value : Int64} {token : Token} {text lexeme : List Char}
    {later : List (Except ReadError Char)} (htext : OperandText text value)
    (hlexeme : token.Spelled lexeme) (hlater : token.EndsAt later)
    (hliteral : ∀ other, token ≠ .literal other) :
    ∃ mid, (Token.literal value).Heads ((text ++ lexeme).map .ok ++ later) mid ∧
      token.Heads mid later := by
  cases htext with
  | @run before digits after hbefore hne hdigits hlt hafter =>
    refine ⟨(after ++ lexeme).map .ok ++ later, ?_, ?_⟩
    · refine ⟨before, digits, by simp, fun c hc => isBlank_iff.2 (hbefore c hc),
        .literal hne hdigits (Nat.le_of_lt_succ hlt), ?_⟩
      rw [List.map_append, List.append_assoc]
      exact endsRun_append (fun c hc => isBlank_iff.2 (hafter c hc))
        (hlexeme.endsRun hlater hliteral)
    · exact ⟨after, lexeme, rfl, fun c hc => isBlank_iff.2 (hafter c hc), hlexeme, hlater⟩

/-- A chain begins with an operand and the spelling of the token ahead. -/
theorem operandText_of_begins {input rest : Input} {first : Int64} {ops : List (BinOp × Int64)}
    {last : Located Token} (hs : input.Sound) (h : Begins 0 input first ops last rest) :
    ∃ text lexeme ahead mid, OperandText text first ∧
      input.items = (text ++ lexeme).map .ok ++ mid.items ∧ ahead.value.Spelled lexeme ∧
      ahead.value.EndsAt mid.items ∧ mid.Sound ∧ Follows 0 ahead mid ops last rest := by
  rcases h with ⟨span, mid, ahead, mid', hvalue, hahead, hfollows⟩
  rcases Input.scan_sound hs hvalue with ⟨hfirst, hmid⟩
  rcases Input.scan_sound hmid hahead with ⟨hnext, hmid'⟩
  rcases heads_operand hfirst hnext with ⟨text, lexeme, htext, hitems, hlexeme, hends⟩
  exact ⟨text, lexeme, ahead, mid', htext, hitems, hlexeme, hends, hmid', hfollows⟩

theorem chainText_of_begins {input rest : Input} {first : Int64} {ops : List (BinOp × Int64)}
    {last : Located Token} (hs : input.Sound) (h : Begins 0 input first ops last rest) :
    ∃ text, input.items = text.map .ok ∧ ChainText text first ops := by
  induction ops generalizing input first with
  | nil =>
    obtain ⟨text, lexeme, ahead, mid, htext, hitems, hlexeme, hends, -, hfollows⟩ :=
      operandText_of_begins hs h
    cases hfollows with
    | stop hstops =>
      rw [hstops.eq_eof] at hlexeme hends
      rw [Token.EndsAt] at hends
      refine ⟨text, ?_, .operand htext⟩
      simp [hitems, hends, hlexeme.eq_nil]
  | cons step ops ih =>
    obtain ⟨text, lexeme, ahead, mid, htext, hitems, hlexeme, -, hmid, hfollows⟩ :=
      operandText_of_begins hs h
    cases hfollows with
    | step hop hlt hvalue hahead hrest =>
      rcases ih hmid ⟨_, _, _, _, hvalue, hahead, hrest⟩ with ⟨later, hlater, hchain⟩
      refine ⟨text ++ BinOp.sign _ :: later, ?_, .binary htext hchain⟩
      rw [hitems, hlater, hlexeme.eq_sign hop]
      simp

theorem begins_of_chainText {input : Input} {text : List Char} {first : Int64}
    {ops : List (BinOp × Int64)} (hs : input.Sound) (hitems : input.items = text.map .ok)
    (h : ChainText text first ops) : ∃ last rest, Begins 0 input first ops last rest := by
  induction h generalizing input with
  | @operand text first h =>
    rcases operand_heads h Token.Spelled.eof rfl (by simp) with ⟨items, hfirst, hnext⟩
    rw [List.append_nil, List.append_nil, ← hitems] at hfirst
    rcases Input.scan_complete hs hfirst with ⟨span, mid, hvalue, rfl, hmid⟩
    rcases Input.scan_complete hmid hnext with ⟨span', rest, hahead, -, -⟩
    exact ⟨⟨.eof, span'⟩, rest, span, mid, _, rest, hvalue, hahead, .stop (.inl rfl)⟩
  | @binary text later first second op ops h hlater ih =>
    rcases op.exists_token with ⟨token, hsign, hop⟩
    have hliteral : ∀ value, token ≠ .literal value := by
      rintro value rfl
      simp [BinOp.ofToken?] at hop
    obtain ⟨items, hfirst, hnext⟩ := operand_heads h (.sign hsign)
      (Token.endsAt_of_ofSign? (later.map .ok) hsign) hliteral
    have htext : input.items = (text ++ [op.sign]).map .ok ++ later.map .ok := by simp [hitems]
    rw [← htext] at hfirst
    rcases Input.scan_complete hs hfirst with ⟨span, mid, hvalue, rfl, hmid⟩
    rcases Input.scan_complete hmid hnext with ⟨span', mid', hahead, hrest, hmid'⟩
    rcases ih hmid' hrest with ⟨last, rest, span₂, mid₂, ahead, mid₃, hvalue', hahead', hfollows⟩
    exact ⟨last, rest, span, mid, ⟨token, span'⟩, mid', hvalue, hahead,
      .step hop (by cases op <;> decide) hvalue' hahead' hfollows⟩

/-- The front end accepts exactly the encodings of chains whose tree is not too deep, and gives the
tree of the chain. -/
theorem parse_ofBytes_iff (name : String) (bytes : ByteArray) (t : Expr) :
    (parse (Input.ofBytes name bytes)).1 = .ok t ↔
      ∃ text first ops, bytes = (String.ofList text).toUTF8 ∧ ChainText text first ops ∧
        t = .ofChain first ops ∧ t.height ≤ 1000 := by
  have hs := Input.ofBytes_sound name bytes
  constructor
  · intro h
    rcases parse_eq_ok_iff.1 (Prod.ext h rfl) with ⟨first, ops, last, hbegins, ht, hle⟩
    rcases chainText_of_begins hs hbegins with ⟨text, hitems, htext⟩
    exact ⟨text, first, ops, Input.ofBytes_items_iff.1 hitems, htext, ht, hle⟩
  · rintro ⟨text, first, ops, hbytes, htext, ht, hle⟩
    obtain ⟨last, rest, hbegins⟩ :=
      begins_of_chainText hs (Input.ofBytes_items_iff.2 hbytes) htext
    rw [parse_eq_ok_iff.2 ⟨first, ops, last, hbegins, ht, hle⟩]

end ArithCompiler
