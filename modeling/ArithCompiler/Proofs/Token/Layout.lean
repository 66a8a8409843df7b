import ArithCompiler.Proofs.Expr.Language
import ArithCompiler.Proofs.Expr.Verdict

/-! # Texts and the tokens in them

A text is a layout of tokens when it consists of their spellings with blanks around them, where two
literals have at least one blank between them. Scanning a text to its end gives some tokens exactly
when the text is a layout of them, so all layouts of the same tokens are scanned alike.
-/

namespace ArithCompiler

/-- How a token is written: an operator as its sign, a literal as any digits of its value. -/
inductive Token.Written : Token → List Char → Prop
  | operator {c : Char} {token : Token} (h : (c, token) ∈ operatorSigns) : Written token [c]
  | literal {digits : List Char} (hne : digits ≠ []) (hdigits : ∀ c ∈ digits, c.isDigit = true)
      (hlt : Nat.ofDigitChars 10 digits 0 < 0x8000000000000000) :
      Written (.literal (Int64.ofNat (Nat.ofDigitChars 10 digits 0))) digits

/-- Tokens in order, with blanks before, between and after them. A blank stands between two literals
that follow each other. -/
inductive TokenLayout : List Token → List Char → Prop
  | nil {blanks : List Char} (hblanks : ∀ c ∈ blanks, c ∈ blankChars) : TokenLayout [] blanks
  | cons {token : Token} {tokens : List Token} {blanks lexeme rest : List Char}
      (hblanks : ∀ c ∈ blanks, c ∈ blankChars) (htoken : token.Written lexeme)
      (hrest : TokenLayout tokens rest)
      (hapart : token.isLiteral = true → (∃ next ∈ tokens.head?, next.isLiteral = true) →
        ∃ c ∈ rest.head?, c ∈ blankChars) :
      TokenLayout (token :: tokens) (blanks ++ lexeme ++ rest)

theorem mem_operatorSigns_iff {c : Char} {token : Token} :
    (c, token) ∈ operatorSigns ↔ Token.ofSign? c = some token := by
  constructor
  · intro h
    simp only [operatorSigns, List.mem_cons, Prod.mk.injEq, List.not_mem_nil, or_false] at h
    rcases h with ⟨rfl, rfl⟩ | ⟨rfl, rfl⟩ | ⟨rfl, rfl⟩ | ⟨rfl, rfl⟩ <;> rfl
  · intro h
    rcases eq_sign_of_ofSign? h with rfl | rfl | rfl | rfl <;>
      · cases h
        simp [operatorSigns]

namespace Token

theorem written_iff {token : Token} {lexeme : List Char} :
    token.Written lexeme ↔ token.Spelled lexeme ∧ token ≠ .eof := by
  constructor
  · intro h
    cases h with
    | operator h =>
      have hsign := mem_operatorSigns_iff.1 h
      refine ⟨.sign hsign, ?_⟩
      rintro rfl
      rcases eq_sign_of_ofSign? hsign with rfl | rfl | rfl | rfl <;> cases hsign
    | literal hne hdigits hlt => exact ⟨.literal hne hdigits (Nat.le_of_lt_succ hlt), by simp⟩
  · rintro ⟨h, heof⟩
    cases h with
    | sign h => exact .operator (mem_operatorSigns_iff.2 h)
    | literal hne hdigits hle => exact .literal hne hdigits (Nat.lt_succ_of_le hle)
    | eof => exact absurd rfl heof

end Token

theorem Token.EndsAt.endsRun {token : Token} {items : List (Except ReadError Char)}
    (h : token.EndsAt items) (hliteral : token.isLiteral = true) : EndsRun items := by
  cases token with
  | literal value => exact h
  | _ => cases hliteral

/-- Where a literal is next and no digit comes first, a blank does. -/
theorem TokenLayout.head_blank {next : Token} {tokens : List Token} {text : List Char}
    (h : TokenLayout (next :: tokens) text) (hnext : next.isLiteral = true)
    (hdigit : ∀ c ∈ text.head?, c.isDigit = false) : ∃ c ∈ text.head?, c ∈ blankChars := by
  cases h with
  | @cons _ _ blanks lexeme rest hblanks htoken hrest hapart =>
    match blanks with
    | b :: blanks => exact ⟨b, by simp, hblanks b (by simp)⟩
    | [] =>
      cases htoken with
      | operator h =>
        rcases eq_sign_of_ofSign? (mem_operatorSigns_iff.1 h) with rfl | rfl | rfl | rfl <;>
          · cases mem_operatorSigns_iff.1 h
            cases hnext
      | literal hne hdigits hlt =>
        match lexeme with
        | [] => exact absurd rfl hne
        | d :: digits =>
          have hd := hdigit d (by simp)
          rw [hdigits d (by simp)] at hd
          cases hd

theorem isDigit_of_mem_blankChars {c : Char} (h : c ∈ blankChars) : c.isDigit = false := by
  cases hd : c.isDigit with
  | false => rfl
  | true =>
    have hblank := isBlank_of_isDigit hd
    rw [isBlank_iff.2 h] at hblank
    cases hblank

/-- A run of digits ends before a layout, unless a literal follows without a blank. -/
theorem TokenLayout.endsRun {tokens : List Token} {text : List Char} (h : TokenLayout tokens text)
    (hapart : (∃ next ∈ tokens.head?, next.isLiteral = true) → ∃ c ∈ text.head?, c ∈ blankChars) :
    EndsRun (text.map .ok) := by
  cases h with
  | nil hblanks =>
    have hnil : EndsRun [] := by simp [EndsRun]
    have h := endsRun_append (fun c hc => isBlank_iff.2 (hblanks c hc)) hnil
    rwa [List.append_nil] at h
  | @cons token tokens blanks lexeme rest hblanks htoken hrest _ =>
    by_cases hliteral : token.isLiteral = true
    · obtain ⟨c, hc, hblank⟩ := hapart ⟨token, rfl, hliteral⟩
      intro item hitem
      rw [List.head?_map, hc] at hitem
      cases hitem
      exact ⟨c, rfl, isDigit_of_mem_blankChars hblank⟩
    · rw [List.map_append, List.map_append, List.append_assoc]
      refine endsRun_append (fun c hc => isBlank_iff.2 (hblanks c hc)) ?_
      cases htoken with
      | operator h =>
        have hsign := mem_operatorSigns_iff.1 h
        refine Token.Spelled.endsRun (.sign hsign) (Token.endsAt_of_ofSign? _ hsign) ?_
        rintro value rfl
        exact hliteral rfl
      | literal => exact absurd rfl hliteral

/-- A token as it is written with the fewest digits. -/
def Token.chars : Token → List Char
  | plus => ['+']
  | minus => ['-']
  | star => ['*']
  | slash => ['/']
  | literal value => Nat.toDigits 10 value.toInt.toNat
  | eof => []

/-- An operator, or a literal that is not negative. -/
def Token.IsWritable (token : Token) : Prop :=
  token ≠ .eof ∧ ∀ value, token = .literal value → 0 ≤ value

theorem Token.written_chars {token : Token} (h : token.IsWritable) :
    token.Written token.chars := by
  cases token with
  | eof => exact absurd rfl h.1
  | literal value =>
    have hnonneg : 0 ≤ value.toInt := Int64.le_iff_toInt_le.1 (h.2 value rfl)
    have hlt : value.toInt.toNat < 0x8000000000000000 := by
      have := value.toInt_lt
      omega
    have hvalue : Int64.ofNat value.toInt.toNat = value := by
      rw [← Int64.ofInt_eq_ofNat, Int.toNat_of_nonneg hnonneg, Int64.ofInt_toInt]
    have hdigits : Nat.ofDigitChars 10 (Nat.toDigits 10 value.toInt.toNat) 0 = value.toInt.toNat :=
      Nat.ofDigitChars_ten_toDigits
    rw [← hdigits] at hlt
    have hwritten := Written.literal Nat.toDigits_ne_nil
      (fun c hc => Nat.isDigit_of_mem_toDigits (by decide) (by decide) hc) hlt
    rwa [hdigits, hvalue] at hwritten
  | _ => exact .operator (by simp [operatorSigns])

/-- One blank before each token is enough. -/
theorem tokenLayout_spaced {tokens : List Token} (h : ∀ token ∈ tokens, token.IsWritable) :
    TokenLayout tokens (tokens.flatMap fun token => ' ' :: token.chars) := by
  induction tokens with
  | nil => exact .nil (by simp)
  | cons token tokens ih =>
    have hblanks : ∀ c ∈ [' '], c ∈ blankChars := by simp [blankChars]
    refine .cons hblanks (Token.written_chars (h token (by simp)))
      (ih fun other hother => h other (by simp [hother])) ?_
    rintro - ⟨next, hnext, -⟩
    obtain ⟨later, rfl⟩ : ∃ later, tokens = next :: later := List.head?_eq_some_iff.1 hnext
    exact ⟨' ', by simp, by simp [blankChars]⟩

namespace Input

/-- The tokens of an input without their places, or the first error. -/
def tokenValues (input : Input) : Except (Located LexError) (List Token) :=
  input.tokens.1.map (·.map Located.value)

/-- Tokens that were scanned to the end are laid out in the text. -/
theorem layout_of_tokens {input rest : Input} {text : List Char} {located : List (Located Token)}
    (hs : input.Sound) (hitems : input.items = text.map .ok)
    (h : input.tokens = (.ok located, rest)) :
    ∃ tokens, located.map Located.value = tokens ++ [.eof] ∧ TokenLayout tokens text := by
  fun_induction Input.tokens input generalizing text located with
  | case1 input e rest hscan => cases h
  | case2 input token rest hscan heof =>
    cases h
    obtain ⟨⟨blanks, lexeme, hheads, hblanks, hspelled, hends⟩, -⟩ := scan_sound hs hscan
    rw [heof] at hspelled hends
    have hrest : rest.items = [] := hends
    rw [hitems, hspelled.eq_nil, hrest, List.append_nil, List.append_nil] at hheads
    have htext : text = blanks := (List.map_inj_right fun _ _ => Except.ok.inj).1 hheads
    refine ⟨[], by simp [heof], ?_⟩
    rw [htext]
    exact .nil fun c hc => isBlank_iff.1 (hblanks c hc)
  | case3 input token rest hscan heof later rest' hlater ih =>
    cases h
    obtain ⟨⟨blanks, lexeme, hheads, hblanks, hspelled, hends⟩, hrest⟩ := scan_sound hs hscan
    rw [hitems, List.map_eq_append_iff] at hheads
    obtain ⟨first, second, rfl, hfirst, hsecond⟩ := hheads
    have hfirst : first = blanks ++ lexeme :=
      (List.map_inj_right fun _ _ => Except.ok.inj).1 hfirst
    obtain ⟨tokens, htokens, hlayout⟩ := ih hrest hsecond.symm hlater
    refine ⟨token.value :: tokens, by simp [htokens], ?_⟩
    rw [hfirst]
    refine .cons (fun c hc => isBlank_iff.1 (hblanks c hc)) (Token.written_iff.2 ⟨hspelled, heof⟩)
      hlayout ?_
    rintro hliteral ⟨next, hnext, hnextLiteral⟩
    have hruns : EndsRun rest.items := hends.endsRun hliteral
    obtain ⟨later, rfl⟩ : ∃ later, tokens = next :: later := List.head?_eq_some_iff.1 hnext
    refine hlayout.head_blank hnextLiteral fun c hc => ?_
    rw [← hsecond] at hruns
    obtain ⟨d, hd, hdigit⟩ := hruns (.ok c) (by rw [List.head?_map, hc]; rfl)
    cases hd
    exact hdigit
  | case4 input token rest hscan heof e rest' hlater ih => cases h

/-- Tokens that are laid out in the text are scanned. -/
theorem tokens_of_layout {input : Input} {text : List Char} {tokens : List Token}
    (h : TokenLayout tokens text) (hs : input.Sound) (hitems : input.items = text.map .ok) :
    ∃ located rest, input.tokens = (.ok located, rest) ∧
      located.map Located.value = tokens ++ [.eof] := by
  induction h generalizing input with
  | @nil blanks hblanks =>
    have hheads : Token.eof.Heads input.items [] :=
      ⟨blanks, [], by simp [hitems], fun c hc => isBlank_iff.2 (hblanks c hc), .eof, rfl⟩
    obtain ⟨span, rest, hscan, -, -⟩ := scan_complete hs hheads
    refine ⟨[⟨.eof, span⟩], rest, ?_, rfl⟩
    rw [Input.tokens, hscan]
    rfl
  | @cons token tokens blanks lexeme text hblanks htoken hlayout hapart ih =>
    obtain ⟨hspelled, heof⟩ := Token.written_iff.1 htoken
    have hends : token.EndsAt (text.map .ok) := by
      cases token with
      | literal value => exact hlayout.endsRun (hapart rfl)
      | eof => exact absurd rfl heof
      | _ => trivial
    have hheads : token.Heads input.items (text.map .ok) :=
      ⟨blanks, lexeme, by simp [hitems], fun c hc => isBlank_iff.2 (hblanks c hc), hspelled, hends⟩
    obtain ⟨span, mid, hscan, hmid, hsound⟩ := scan_complete hs hheads
    obtain ⟨located, rest, htokens, hvalues⟩ := ih hsound hmid
    refine ⟨⟨token, span⟩ :: located, rest, ?_, by simp [hvalues]⟩
    rw [Input.tokens, hscan]
    simp [heof, htokens]

theorem tokenValues_ofBytes_eq_ok_iff {name text : String} {tokens : List Token} :
    (ofBytes name text.toUTF8).tokenValues = .ok (tokens ++ [.eof]) ↔
      TokenLayout tokens text.toList := by
  have hs := ofBytes_sound name text.toUTF8
  have hitems : (ofBytes name text.toUTF8).items = text.toList.map .ok := by
    rw [ofBytes_items_iff, String.ofList_toList]
  constructor
  · intro h
    rw [tokenValues] at h
    rcases hscanned : (ofBytes name text.toUTF8).tokens with ⟨e | located, rest⟩
    · rw [hscanned] at h
      cases h
    · rw [hscanned] at h
      obtain ⟨tokens', hvalues, hlayout⟩ := layout_of_tokens hs hitems hscanned
      have heq : tokens' ++ [Token.eof] = tokens ++ [.eof] := hvalues.symm.trans (Except.ok.inj h)
      rwa [List.append_cancel_right heq] at hlayout
  · intro h
    obtain ⟨located, rest, hscanned, hvalues⟩ := tokens_of_layout h hs hitems
    rw [tokenValues, hscanned, ← hvalues]
    rfl

/-- Scanning is inverse to layout: a text gives some tokens and the end exactly when it is a layout
of them. Two layouts of the same tokens are therefore scanned alike, and all operators and literals
that are not negative are reached, in every order. -/
theorem scan_layout (name : String) (tokens : List Token) :
    (∀ text : String, (ofBytes name text.toUTF8).tokenValues = .ok (tokens ++ [.eof]) ↔
      TokenLayout tokens text.toList) ∧
    (∀ first second : String, TokenLayout tokens first.toList → TokenLayout tokens second.toList →
      (ofBytes name first.toUTF8).tokenValues = (ofBytes name second.toUTF8).tokenValues) ∧
    ((∀ token ∈ tokens, token.IsWritable) →
      ∃ text : String, (ofBytes name text.toUTF8).tokenValues = .ok (tokens ++ [.eof])) := by
  refine ⟨fun _ => tokenValues_ofBytes_eq_ok_iff, ?_, ?_⟩
  · intro first second hfirst hsecond
    rw [tokenValues_ofBytes_eq_ok_iff.2 hfirst, tokenValues_ofBytes_eq_ok_iff.2 hsecond]
  · intro h
    refine ⟨String.ofList (tokens.flatMap fun token => ' ' :: token.chars), ?_⟩
    rw [tokenValues_ofBytes_eq_ok_iff, String.toList_ofList]
    exact tokenLayout_spaced h

end Input

end ArithCompiler
