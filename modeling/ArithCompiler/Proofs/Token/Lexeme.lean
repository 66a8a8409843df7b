import ArithCompiler.Proofs.Source.Cursor
import ArithCompiler.Token.Scan

/-! # Tokens and their spellings

A token is spelled by an operator's sign, by a run of digits whose value is not too large, or by
nothing at the end. The scanner delivers a token exactly when, after some blanks, a spelling of it
stands there that what follows does not continue.
-/

namespace ArithCompiler

theorem digitValue_le {c : Char} (h : c.isDigit = true) : digitValue c ≤ 9 := by
  have hle : c.val.toNat ≤ 57 := by
    simp only [Char.isDigit, Bool.and_eq_true, decide_eq_true_eq] at h
    exact h.2
  have hnat : c.toNat = c.val.toNat := rfl
  have hzero : '0'.toNat = 48 := rfl
  simp only [digitValue]
  omega

theorem le_ofDigitChars (digits : List Char) (value : Nat) :
    value ≤ Nat.ofDigitChars 10 digits value := by
  rw [Nat.ofDigitChars_eq_ofDigitChars_zero]
  calc
    value ≤ 10 ^ digits.length * value := Nat.le_mul_of_pos_left _ (Nat.pow_pos (by decide))
    _ ≤ _ := Nat.le_add_right _ _

theorem ofDigitChars_digit (c : Char) (digits : List Char) (value : Nat) :
    Nat.ofDigitChars 10 (c :: digits) value =
      Nat.ofDigitChars 10 digits (value * 10 + digitValue c) := by
  rw [Nat.ofDigitChars_cons, Nat.mul_comm, digitValue]

theorem ofDigitChars_first (c : Char) (digits : List Char) :
    Nat.ofDigitChars 10 (c :: digits) 0 = Nat.ofDigitChars 10 digits (digitValue c) := by
  rw [ofDigitChars_digit, Nat.zero_mul, Nat.zero_add]

theorem eq_sign_of_ofSign? {c : Char} {token : Token} (h : Token.ofSign? c = some token) :
    c = '+' ∨ c = '-' ∨ c = '*' ∨ c = '/' := by
  unfold Token.ofSign? at h
  grind

theorem isBlank_of_isDigit {c : Char} (h : c.isDigit = true) : isBlank c = false := by
  cases hblank : isBlank c with
  | false => rfl
  | true =>
    simp only [isBlank, Bool.or_eq_true, decide_eq_true_eq] at hblank
    rcases hblank with ((((rfl | rfl) | rfl) | rfl) | rfl) | rfl <;> simp at h

theorem ofSign?_of_isDigit {c : Char} (h : c.isDigit = true) : Token.ofSign? c = none := by
  cases hsign : Token.ofSign? c with
  | none => rfl
  | some token =>
    rcases eq_sign_of_ofSign? hsign with rfl | rfl | rfl | rfl <;> simp at h

/-- The operators, each with the character that it is written as. -/
def operatorSigns : List (Char × Token) :=
  [('+', .plus), ('-', .minus), ('*', .star), ('/', .slash)]

theorem lookup_operatorSigns (c : Char) : operatorSigns.lookup c = Token.ofSign? c := by
  simp only [operatorSigns, List.lookup_cons, List.lookup_nil, Token.ofSign?]
  grind

/-- How a token is written. -/
inductive Token.Spelled : Token → List Char → Prop
  | sign {c : Char} {token : Token} (h : Token.ofSign? c = some token) : Spelled token [c]
  | literal {digits : List Char} (hne : digits ≠ []) (hdigits : ∀ c ∈ digits, c.isDigit = true)
      (hle : Nat.ofDigitChars 10 digits 0 ≤ maxLiteral) :
      Spelled (.literal (Int64.ofNat (Nat.ofDigitChars 10 digits 0))) digits
  | eof : Spelled .eof []

/-- The scanner takes the first digit before the others. -/
theorem Token.Spelled.of_first {c : Char} {digits : List Char} (hc : c.isDigit = true)
    (hdigits : ∀ d ∈ digits, d.isDigit = true)
    (hle : Nat.ofDigitChars 10 digits (digitValue c) ≤ maxLiteral) :
    Token.Spelled (.literal (Int64.ofNat (Nat.ofDigitChars 10 digits (digitValue c))))
      (c :: digits) := by
  rw [← ofDigitChars_first] at hle ⊢
  exact .literal (by simp) (by simpa [hc] using hdigits) hle

/-- What may follow a run of digits: another character, or the end. -/
def EndsRun (items : List (Except ReadError Char)) : Prop :=
  ∀ item ∈ items.head?, ∃ c, item = .ok c ∧ c.isDigit = false

/-- What may follow a token. -/
def Token.EndsAt (items : List (Except ReadError Char)) : Token → Prop
  | literal _ => EndsRun items
  | eof => items = []
  | plus | minus | star | slash => True

theorem Token.endsAt_of_ofSign? {c : Char} {token : Token} (items : List (Except ReadError Char))
    (h : Token.ofSign? c = some token) : token.EndsAt items := by
  rcases eq_sign_of_ofSign? h with rfl | rfl | rfl | rfl <;>
    · cases h
      trivial

/-- `token` comes first in `items`, after blanks, and `later` follows it. -/
def Token.Heads (token : Token) (items later : List (Except ReadError Char)) : Prop :=
  ∃ blanks lexeme, items = (blanks ++ lexeme).map .ok ++ later ∧
    (∀ c ∈ blanks, isBlank c = true) ∧ token.Spelled lexeme ∧ token.EndsAt later

/-- Whether an item is a blank character. -/
def itemBlank : Except ReadError Char → Bool
  | .ok c => isBlank c
  | .error _ => false

theorem exists_blanks (items : List (Except ReadError Char)) :
    ∃ blanks : List Char, items = blanks.map .ok ++ items.dropWhile itemBlank ∧
      ∀ c ∈ blanks, isBlank c = true := by
  induction items with
  | nil => exact ⟨[], rfl, by simp⟩
  | cons item items ih =>
    rcases ih with ⟨blanks, hitems, hblank⟩
    cases item with
    | error e => exact ⟨[], by simp [itemBlank], by simp⟩
    | ok c =>
      by_cases hc : isBlank c
      · refine ⟨c :: blanks, ?_, by simpa [hc] using hblank⟩
        simpa [itemBlank, hc] using hitems
      · exact ⟨[], by simp [itemBlank, hc], by simp⟩

theorem dropWhile_blanks {blanks : List Char} {later : List (Except ReadError Char)}
    (hblank : ∀ c ∈ blanks, isBlank c = true)
    (hlater : ∀ item ∈ later.head?, itemBlank item = false) :
    (blanks.map Except.ok ++ later).dropWhile itemBlank = later := by
  induction blanks with
  | nil =>
    cases later with
    | nil => rfl
    | cons item later => simp [hlater item (by simp)]
  | cons c blanks ih =>
    have hc : isBlank c = true := hblank c (by simp)
    simpa [itemBlank, hc] using ih fun d hd => hblank d (List.mem_cons_of_mem _ hd)

/-- No token begins with a blank. -/
theorem Token.Spelled.itemBlank_head {token : Token} {lexeme : List Char}
    {later : List (Except ReadError Char)} (h : token.Spelled lexeme) (hends : token.EndsAt later) :
    ∀ item ∈ (lexeme.map Except.ok ++ later).head?, itemBlank item = false := by
  cases h with
  | sign h =>
    rcases eq_sign_of_ofSign? h with rfl | rfl | rfl | rfl <;> simp [itemBlank, isBlank]
  | literal hne hdigits hle =>
    match lexeme with
    | [] => exact absurd rfl hne
    | c :: digits => simp [itemBlank, isBlank_of_isDigit (hdigits c (by simp))]
  | eof =>
    rw [EndsAt] at hends
    simp [hends]

/-- A token that is no literal ends a run of digits. -/
theorem Token.Spelled.endsRun {token : Token} {lexeme : List Char}
    {later : List (Except ReadError Char)} (h : token.Spelled lexeme) (hends : token.EndsAt later)
    (hliteral : ∀ value, token ≠ .literal value) : EndsRun (lexeme.map .ok ++ later) := by
  cases h with
  | sign h =>
    rcases eq_sign_of_ofSign? h with rfl | rfl | rfl | rfl <;> simp [EndsRun]
  | literal => exact absurd rfl (hliteral _)
  | eof =>
    rw [EndsAt] at hends
    simp [EndsRun, hends]

/-- Blanks end a run of digits. -/
theorem endsRun_append {blanks : List Char} {later : List (Except ReadError Char)}
    (hblank : ∀ c ∈ blanks, isBlank c = true) (hlater : EndsRun later) :
    EndsRun (blanks.map .ok ++ later) := by
  match blanks with
  | [] => exact hlater
  | c :: blanks =>
    have hc : isBlank c = true := hblank c (by simp)
    have hdigit : c.isDigit = false := by
      cases hd : c.isDigit with
      | false => rfl
      | true => simp [isBlank_of_isDigit hd] at hc
    simpa [EndsRun] using hdigit

namespace Input

/-- Blanks are passed over, and the first other item is delivered. -/
theorem skipBlanks_spec {input : Input} (hs : input.Sound) :
    input.skipBlanks.1 = delivery (input.items.dropWhile itemBlank) ∧
      input.skipBlanks.2.items = (input.items.dropWhile itemBlank).tail ∧
      input.skipBlanks.2.Sound := by
  fun_induction skipBlanks input with
  | case1 input c rest hn hb ih =>
    rcases next_some hs hn with ⟨hitems, hrest, -⟩
    have hdrop : input.items.dropWhile itemBlank = rest.items.dropWhile itemBlank := by
      simp [hitems, itemBlank, hb]
    rw [hdrop]
    exact ih hrest
  | case2 input c rest hn hb =>
    rcases next_some hs hn with ⟨hitems, hrest, -⟩
    have hdrop : input.items.dropWhile itemBlank = .ok c :: rest.items := by
      simp [hitems, itemBlank, hb]
    rw [hdrop]
    exact ⟨rfl, rfl, hrest⟩
  | case3 input rest hn =>
    rcases next_none hs hn with ⟨hitems, hnil, hrest⟩
    rw [hitems]
    exact ⟨rfl, hnil, hrest⟩
  | case4 input e rest hn =>
    rcases next_error hs hn with ⟨hitems, hrest⟩
    rw [hitems]
    exact ⟨rfl, rfl, hrest⟩

/-- A literal that was read: a run of digits, up to where it ends. -/
theorem literal_ok {value n : Nat} {input rest : Input} (hs : input.Sound)
    (hvalue : value ≤ maxLiteral) (h : input.literal value = (.ok n, rest)) :
    ∃ digits, input.items = digits.map .ok ++ rest.items ∧ (∀ c ∈ digits, c.isDigit = true) ∧
      n = Nat.ofDigitChars 10 digits value ∧ n ≤ maxLiteral ∧ EndsRun rest.items ∧ rest.Sound := by
  fun_induction literal value input with
  | case1 value input c mid hn hd larger hl ih =>
    rcases next_some hs hn with ⟨hitems, hmid, -⟩
    rcases ih hmid hl h with ⟨digits, hdigits, hall, hn, hle, hends, hrest⟩
    refine ⟨c :: digits, by simp [hitems, hdigits], ?_, ?_, hle, hends, hrest⟩
    · simpa [hd] using hall
    · rw [hn, ofDigitChars_digit]
  | case2 value input c mid hn hd larger hl => simp at h
  | case3 value input c mid hn hd =>
    rcases next_some hs hn with ⟨hitems, hmid, hheld⟩
    simp only [Prod.mk.injEq, Except.ok.injEq] at h
    rcases h with ⟨rfl, rfl⟩
    refine ⟨[], ?_, by simp, by simp, hvalue, ?_, hmid⟩
    · rw [hitems, putback_items c hheld]
      rfl
    · simpa [EndsRun, putback_items c hheld] using hd
  | case4 value input mid hn =>
    rcases next_none hs hn with ⟨hitems, hnil, hmid⟩
    simp only [Prod.mk.injEq, Except.ok.injEq] at h
    rcases h with ⟨rfl, rfl⟩
    exact ⟨[], by simp [hitems, hnil], by simp, by simp, hvalue, by simp [EndsRun, hnil], hmid⟩
  | case5 value input e mid hn => simp at h

/-- A run of digits is read as the literal it spells. -/
theorem literal_digits {value : Nat} {digits : List Char} {input : Input}
    {later : List (Except ReadError Char)} (hs : input.Sound)
    (hitems : input.items = digits.map .ok ++ later) (hdigits : ∀ c ∈ digits, c.isDigit = true)
    (hle : Nat.ofDigitChars 10 digits value ≤ maxLiteral) (hends : EndsRun later) :
    ∃ rest, input.literal value = (.ok (Nat.ofDigitChars 10 digits value), rest) ∧
      rest.items = later ∧ rest.Sound := by
  induction digits generalizing value input with
  | nil =>
    rcases next_eq hs with ⟨rest, hnext, htail, hrest, hheld⟩
    rw [List.map_nil, List.nil_append] at hitems
    rw [hitems] at hnext htail
    rw [literal, hnext]
    match later with
    | [] => exact ⟨rest, rfl, htail, hrest⟩
    | .error e :: later => simp [EndsRun] at hends
    | .ok c :: later =>
      have hc : c.isDigit = false := by simpa [EndsRun] using hends
      refine ⟨rest.putback c, by simp [hc], ?_, hrest⟩
      rw [putback_items c hheld, htail]
      rfl
  | cons c digits ih =>
    rcases next_eq hs with ⟨mid, hnext, htail, hmid, -⟩
    rw [List.map_cons, List.cons_append] at hitems
    rw [hitems] at hnext htail
    rw [ofDigitChars_digit] at hle ⊢
    have hc : c.isDigit = true := hdigits c (by simp)
    have hsmall : value * 10 + digitValue c ≤ maxLiteral :=
      Nat.le_trans (le_ofDigitChars digits _) hle
    obtain ⟨rest, hliteral, hrest⟩ :=
      ih hmid htail (fun d hd => hdigits d (List.mem_cons_of_mem _ hd)) hle
    refine ⟨rest, ?_, hrest⟩
    rw [literal, hnext]
    simp [hc, hsmall, hliteral]

theorem skipBlanks_eq {input : Input} (hs : input.Sound) :
    ∃ rest, input.skipBlanks = (delivery (input.items.dropWhile itemBlank), rest) ∧
      rest.items = (input.items.dropWhile itemBlank).tail ∧ rest.Sound := by
  rcases skipBlanks_spec hs with ⟨hfirst, htail, hsound⟩
  exact ⟨input.skipBlanks.2, by rw [← hfirst], htail, hsound⟩

/-- A token that is delivered comes first in the input. -/
theorem scan_sound {input rest : Input} {token : Located Token} (hs : input.Sound)
    (h : input.scan = (.ok token, rest)) :
    token.value.Heads input.items rest.items ∧ rest.Sound := by
  rcases skipBlanks_eq hs with ⟨mid, hskip, htail, hmid⟩
  rcases exists_blanks input.items with ⟨blanks, hitems, hblank⟩
  rw [scan, hskip] at h
  rcases hlater : input.items.dropWhile itemBlank with _ | ⟨e | c, later⟩
  · rw [hlater] at h hitems htail
    simp only [delivery, Prod.mk.injEq, Except.ok.injEq] at h
    rcases h with ⟨rfl, rfl⟩
    exact ⟨⟨blanks, [], by simpa [htail] using hitems, hblank, .eof, htail⟩, hmid⟩
  · rw [hlater] at h
    simp at h
  · rw [hlater] at h hitems htail
    rw [List.tail_cons] at htail
    simp only [delivery_ok] at h
    cases hsign : Token.ofSign? c with
    | some sign =>
      simp only [hsign, Prod.mk.injEq, Except.ok.injEq] at h
      rcases h with ⟨rfl, rfl⟩
      exact ⟨⟨blanks, [c], by simpa [htail] using hitems, hblank, .sign hsign,
        Token.endsAt_of_ofSign? _ hsign⟩, hmid⟩
    | none =>
      by_cases hdigit : c.isDigit
      · simp only [hsign, hdigit, if_true] at h
        rcases hliteral : mid.literal (digitValue c) with ⟨e | value, mid'⟩
        · simp [hliteral] at h
        · simp only [hliteral, Prod.mk.injEq, Except.ok.injEq] at h
          rcases h with ⟨rfl, rfl⟩
          have hsmall : digitValue c ≤ maxLiteral := Nat.le_trans (digitValue_le hdigit) (by decide)
          obtain ⟨digits, hdigits, hall, rfl, hle, hends, hrest⟩ := literal_ok hmid hsmall hliteral
          have hspelled := Token.Spelled.of_first hdigit hall hle
          refine ⟨⟨blanks, c :: digits, ?_, hblank, hspelled, hends⟩, hrest⟩
          rw [hitems, ← htail, hdigits]
          simp
      · simp [hsign, hdigit] at h

/-- A token that comes first in the input is delivered. -/
theorem scan_complete {input : Input} {token : Token} {later : List (Except ReadError Char)}
    (hs : input.Sound) (h : token.Heads input.items later) :
    ∃ span rest, input.scan = (.ok ⟨token, span⟩, rest) ∧ rest.items = later ∧ rest.Sound := by
  rcases h with ⟨blanks, lexeme, hitems, hblank, hspelled, hends⟩
  rcases skipBlanks_eq hs with ⟨mid, hskip, htail, hmid⟩
  have hdrop : input.items.dropWhile itemBlank = lexeme.map .ok ++ later := by
    rw [hitems, List.map_append, List.append_assoc]
    exact dropWhile_blanks hblank (hspelled.itemBlank_head hends)
  rw [hdrop] at hskip htail
  rw [scan, hskip]
  cases hspelled with
  | @sign c _ hsign =>
    exact ⟨mid.spanFrom mid.previous, mid, by simp [hsign], by simpa using htail, hmid⟩
  | eof =>
    rw [Token.EndsAt] at hends
    rw [hends] at htail ⊢
    exact ⟨mid.here, mid, rfl, htail, hmid⟩
  | literal hne hdigits hle =>
    match lexeme with
    | [] => exact absurd rfl hne
    | c :: digits =>
      have hdigit : c.isDigit = true := hdigits c (by simp)
      rw [ofDigitChars_first] at hle ⊢
      obtain ⟨rest, hliteral, hrest⟩ := literal_digits hmid (by simpa using htail)
        (fun d hd => hdigits d (List.mem_cons_of_mem _ hd)) hle hends
      refine ⟨rest.spanFrom mid.previous, rest, ?_, hrest⟩
      simp [ofSign?_of_isDigit hdigit, hdigit, hliteral]

end Input

end ArithCompiler
