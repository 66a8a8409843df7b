import ArithCompiler.Proofs.Source.Columns
import ArithCompiler.Proofs.Token.Layout
import ArithCompiler.Proofs.Token.Lines

/-! # The spans of lexemes

A text is cut into lexemes with blanks between them, and each scan takes one piece of the cut. Its
span starts where stepping over everything before the lexeme leads, and stops behind the last
character of the lexeme; so spans follow each other in order, with nothing but blanks between them.
-/

namespace ArithCompiler

/-- A lexeme and what it is taken for: a token that is written so, a character that belongs to no
token, or the fewest digits whose value is too large. -/
inductive Lexeme : List Char → Except LexError Token → Prop
  | token {token : Token} {chars : List Char} (h : token.Written chars) : Lexeme chars (.ok token)
  | stranger {c : Char} (hblank : c ∉ blankChars) (hdigit : c.isDigit = false)
      (hsign : ∀ token, (c, token) ∉ operatorSigns) : Lexeme [c] (.error (.unrecognized c))
  | overflow {digits : List Char} {c : Char} (hdigits : ∀ d ∈ digits ++ [c], d.isDigit = true)
      (hfits : Nat.ofDigitChars 10 digits 0 < 0x8000000000000000)
      (hlarge : 0x8000000000000000 ≤ Nat.ofDigitChars 10 (digits ++ [c]) 0) :
      Lexeme (digits ++ [c]) (.error .overflow)

/-- The digits that continue a literal fit, or they are the fewest that do not. -/
theorem literalTail_cases {value : Nat} (h : value ≤ maxLiteral) (rest : List Char) :
    (∃ digits, literalTail value rest = (digits, .ok (Nat.ofDigitChars 10 digits value)) ∧
      (∀ d ∈ digits, d.isDigit = true) ∧ Nat.ofDigitChars 10 digits value ≤ maxLiteral) ∨
    ∃ digits c, literalTail value rest = (digits ++ [c], .error .overflow) ∧
      (∀ d ∈ digits ++ [c], d.isDigit = true) ∧ Nat.ofDigitChars 10 digits value ≤ maxLiteral ∧
      maxLiteral < Nat.ofDigitChars 10 (digits ++ [c]) value := by
  induction rest generalizing value with
  | nil => exact .inl ⟨[], literalTail_nil h (by simp), by simp, h⟩
  | cons c rest ih =>
    by_cases hc : c.isDigit = true
    · rw [literalTail_cons h hc]
      by_cases hlarger : value * 10 + digitValue c ≤ maxLiteral
      · obtain ⟨digits, htail, hdigits, hle⟩ | ⟨digits, d, htail, hdigits, hle, hlarge⟩ :=
          ih hlarger
        · left
          refine ⟨c :: digits, ?_, by simpa [hc] using hdigits, ?_⟩
          · rw [htail, ofDigitChars_digit]
          · rwa [ofDigitChars_digit]
        · right
          refine ⟨c :: digits, d, by rw [htail]; rfl, ?_, ?_, ?_⟩
          · intro b hb
            rcases List.mem_cons.1 hb with rfl | hb
            · exact hc
            · exact hdigits b hb
          · rwa [ofDigitChars_digit]
          · rwa [List.cons_append, ofDigitChars_digit]
      · right
        refine ⟨[], c, by rw [literalTail_of_tooLarge hlarger]; rfl, by simpa using hc, h, ?_⟩
        rw [List.nil_append, ofDigitChars_digit]
        exact Nat.lt_of_not_le hlarger
    · exact .inl ⟨[], literalTail_nil h (by simpa using hc), by simp, h⟩

theorem lexeme_firstLexeme {c : Char} (hc : c ∉ blankChars) (rest : List Char) :
    Lexeme (firstLexeme c rest).1 (firstLexeme c rest).2 := by
  by_cases hdigit : c.isDigit = true
  · have hsmall : digitValue c ≤ maxLiteral := Nat.le_trans (digitValue_le hdigit) (by decide)
    rw [firstLexeme_digit hdigit]
    obtain ⟨digits, htail, hdigits, hle⟩ | ⟨digits, d, htail, hdigits, hle, hlarge⟩ :=
      literalTail_cases hsmall rest
    · rw [← ofDigitChars_first] at hle htail
      rw [htail]
      refine .token (.literal (by simp) (by simpa [hdigit] using hdigits) ?_)
      exact Nat.lt_succ_of_le hle
    · rw [← ofDigitChars_first] at hle hlarge
      rw [htail]
      have hall : ∀ b ∈ (c :: digits) ++ [d], b.isDigit = true := by
        intro b hb
        rcases List.mem_cons.1 hb with rfl | hb
        · exact hdigit
        · exact hdigits b hb
      exact .overflow hall (Nat.lt_succ_of_le hle) hlarge
  · cases hsign : Token.ofSign? c with
    | some token =>
      rw [firstLexeme, lookup_operatorSigns, hsign]
      exact .token (.operator (mem_operatorSigns_iff.2 hsign))
    | none =>
      rw [firstLexeme, lookup_operatorSigns, hsign]
      simp only [hdigit]
      refine .stranger hc (Bool.eq_false_iff.2 hdigit) fun token hmem => ?_
      rw [mem_operatorSigns_iff, hsign] at hmem
      cases hmem

theorem Lexeme.ne_nil {chars : List Char} {value : Except LexError Token}
    (h : Lexeme chars value) : chars ≠ [] := by
  cases h with
  | token h =>
    cases h with
    | operator => simp
    | literal hne => exact hne
  | stranger => simp
  | overflow => simp

/-- There is no blank in a lexeme. -/
theorem Lexeme.not_blank {chars : List Char} {value : Except LexError Token}
    (h : Lexeme chars value) : ∀ c ∈ chars, c ∉ blankChars := by
  have hdigit {c : Char} (hc : c.isDigit = true) : c ∉ blankChars := by
    intro hblank
    rw [isDigit_of_mem_blankChars hblank] at hc
    cases hc
  cases h with
  | token h =>
    cases h with
    | operator h =>
      have hsign := eq_sign_of_ofSign? (mem_operatorSigns_iff.1 h)
      rcases hsign with rfl | rfl | rfl | rfl <;> simp [blankChars]
    | literal _ hdigits => exact fun c hc => hdigit (hdigits c hc)
  | stranger hblank => simpa using hblank
  | overflow hdigits => exact fun c hc => hdigit (hdigits c hc)

theorem Lexeme.plain {chars : List Char} {value : Except LexError Token}
    (h : Lexeme chars value) : ∀ c ∈ chars, c ≠ '\n' ∧ c ≠ '\t' := by
  intro c hc
  have hblank := h.not_blank c hc
  constructor
  · rintro rfl
    simp [blankChars] at hblank
  · rintro rfl
    simp [blankChars] at hblank

/-- A lexeme with the blanks before it, and what it is taken for. -/
structure Piece where
  blanks : List Char
  lexeme : List Char
  value : Except LexError Token

namespace Piece

def text (piece : Piece) : List Char := piece.blanks ++ piece.lexeme

structure Valid (piece : Piece) : Prop where
  blanks : ∀ c ∈ piece.blanks, c ∈ blankChars
  lexeme : Lexeme piece.lexeme piece.value

end Piece

namespace Input

/-- At the end of a text only blanks are left. -/
theorem scan_last {input : Input} {last : List Char} (hs : input.Steady)
    (hitems : input.items = last.map .ok) (hlast : ∀ c ∈ last, c ∈ blankChars) :
    ∃ rest, input.scan = (.ok ⟨.eof, .single (input.position.through last)⟩, rest) ∧
      input.Takes last [] rest := by
  induction last generalizing input with
  | nil =>
    obtain ⟨hnext, -⟩ := next_end hs.sound hitems
    have hskip : input.skipBlanks = (.ok none, input) := by rw [skipBlanks, hnext]
    refine ⟨input, ?_, hs, hitems, rfl⟩
    rw [Input.scan, hskip]
    rfl
  | cons c last ih =>
    obtain ⟨mid, hscan, htakes⟩ :=
      scan_blank hs hitems (isBlank_iff.2 (hlast c (by simp)))
    obtain ⟨rest, hrest, htakes'⟩ := ih htakes.steady htakes.items
      fun d hd => hlast d (List.mem_cons_of_mem _ hd)
    refine ⟨rest, ?_, htakes.cons htakes'⟩
    rw [hscan, hrest, htakes.position]
    rfl

/-- A scan takes the blanks and the first lexeme after them. -/
theorem scan_first {input : Input} {text : List Char} (hs : input.Steady)
    (hitems : input.items = text.map .ok) (htext : ¬∀ c ∈ text, c ∈ blankChars) :
    ∃ (piece : Piece) (later : List Char) (rest : Input), text = piece.text ++ later ∧
      piece.Valid ∧ input.Takes piece.text (later.map .ok) rest ∧
      input.scan = (locate ⟨input.position.through piece.blanks, input.position.through piece.text⟩
        piece.value, rest) := by
  induction text generalizing input with
  | nil => simp at htext
  | cons c text ih =>
    by_cases hc : c ∈ blankChars
    · obtain ⟨mid, hscan, htakes⟩ := scan_blank hs hitems (isBlank_iff.2 hc)
      have htext' : ¬∀ d ∈ text, d ∈ blankChars := by simpa [hc] using htext
      obtain ⟨⟨blanks, lexeme, value⟩, later, rest, rfl, hvalid, htakes', hrest⟩ :=
        ih htakes.steady htakes.items htext'
      have hposition : mid.position = input.position.after c := htakes.position
      refine ⟨⟨c :: blanks, lexeme, value⟩, later, rest, rfl, ⟨?_, hvalid.lexeme⟩,
        htakes.cons htakes', ?_⟩
      · simpa [hc] using hvalid.blanks
      · rw [hscan, hrest, hposition]
        rfl
    · have hblank : isBlank c = false := Bool.eq_false_iff.2 fun hb => hc (isBlank_iff.1 hb)
      have hreading : Reading input (c :: text) 0 [] :=
        ⟨hs, by simpa using hitems, by simp [Closed], .inl rfl⟩
      obtain ⟨rest, hscan, htakes⟩ := scan_lexeme hs hreading.items hblank hreading.endsRun
      rw [List.flatMap_nil, List.append_nil] at htakes
      refine ⟨⟨[], (firstLexeme c text).1, (firstLexeme c text).2⟩, _, rest,
        (firstLexeme_append c text).symm, ⟨by simp, lexeme_firstLexeme hc text⟩, htakes, ?_⟩
      rw [hscan, Position.along_map_ok]
      rfl

/-- What is left of a text is cut into pieces, of which each scan takes one, and blanks after
them. -/
inductive Cut : Input → List Piece → List Char → Prop
  | last {input : Input} {last : List Char} (hs : input.Steady)
      (hitems : input.items = last.map .ok) (hlast : ∀ c ∈ last, c ∈ blankChars) :
      Cut input [] last
  | cons {input rest : Input} {piece : Piece} {pieces : List Piece} {last : List Char}
      (hvalid : piece.Valid)
      (hscan : input.scan = (locate ⟨input.position.through piece.blanks,
        input.position.through piece.text⟩ piece.value, rest))
      (hposition : rest.position = input.position.through piece.text)
      (hitems : input.items = piece.text.map .ok ++ rest.items) (h : Cut rest pieces last) :
      Cut input (piece :: pieces) last

theorem exists_cut (text : List Char) {input : Input} (hs : input.Steady)
    (hitems : input.items = text.map .ok) : ∃ pieces last, Cut input pieces last := by
  by_cases htext : ∀ c ∈ text, c ∈ blankChars
  · exact ⟨[], text, .last hs hitems htext⟩
  · obtain ⟨piece, later, rest, hcut, hvalid, htakes, hscan⟩ := scan_first hs hitems htext
    have hshorter : later.length < text.length := by
      have hpos := List.length_pos_of_ne_nil hvalid.lexeme.ne_nil
      rw [hcut, Piece.text, List.length_append, List.length_append]
      omega
    obtain ⟨pieces, last, h⟩ := exists_cut later htakes.steady htakes.items
    refine ⟨piece :: pieces, last, .cons hvalid hscan ?_ ?_ h⟩
    · rw [htakes.position, Position.along_map_ok]
    · rw [hitems, hcut, List.map_append, htakes.items]
termination_by text.length

namespace Cut

variable {input : Input} {pieces : List Piece} {last : List Char}

theorem items (h : Cut input pieces last) :
    input.items = (pieces.flatMap Piece.text ++ last).map .ok := by
  induction h with
  | last _ hitems _ => exact hitems
  | cons _ _ _ hitems _ ih =>
    rw [hitems, ih, ← List.map_append, List.flatMap_cons, List.append_assoc]

theorem valid (h : Cut input pieces last) : ∀ piece ∈ pieces, piece.Valid := by
  induction h with
  | last => simp
  | cons hvalid _ _ _ _ ih => simpa [hvalid] using ih

theorem blanks (h : Cut input pieces last) : ∀ c ∈ last, c ∈ blankChars := by
  induction h with
  | last _ _ hlast => exact hlast
  | cons _ _ _ _ _ ih => exact ih

/-- One scan takes one piece; at the end it takes the blanks. -/
theorem scan (h : Cut input pieces last) :
    ∃ last', Cut input.scan.2 pieces.tail last' ∧ last' <:+ last ∧ (pieces = [] → last' = []) := by
  cases h with
  | last hs hitems hlast =>
    obtain ⟨rest, hscan, htakes⟩ := scan_last hs hitems hlast
    rw [hscan]
    exact ⟨[], .last htakes.steady htakes.items (by simp), List.nil_suffix, fun _ => rfl⟩
  | cons hvalid hscan hposition hitems h =>
    rw [hscan]
    exact ⟨last, h, List.suffix_refl last, fun hnil => by cases hnil⟩

theorem after (h : Cut input pieces last) (n : Nat) :
    ∃ last', Cut (TokenSource.after input n) (pieces.drop n) last' ∧ last' <:+ last ∧
      (pieces.length < n → last' = []) := by
  induction n with
  | zero => exact ⟨last, h, List.suffix_refl last, fun hlt => absurd hlt (Nat.not_lt_zero _)⟩
  | succ n ih =>
    obtain ⟨mid, hmid, hsuffix, -⟩ := ih
    obtain ⟨last', hlast, hsuffix', hend⟩ := hmid.scan
    rw [List.tail_drop] at hlast
    refine ⟨last', hlast, hsuffix'.trans hsuffix, fun hlt => hend ?_⟩
    exact List.drop_eq_nil_of_le (Nat.le_of_lt_succ hlt)

/-- The result of a scan is the next piece, from where stepping over all pieces before leads. -/
theorem results (h : Cut input pieces last) {n : Nat} {piece : Piece}
    (hn : pieces[n]? = some piece) :
    TokenSource.results input n = locate
      ⟨input.position.through ((pieces.take n).flatMap Piece.text ++ piece.blanks),
        input.position.through ((pieces.take n).flatMap Piece.text ++ piece.text)⟩ piece.value := by
  induction h generalizing n with
  | last => simp at hn
  | @cons input rest first pieces last hvalid hscan hposition hitems h ih =>
    cases n with
    | zero =>
      cases hn
      change input.scan.1 = _
      rw [hscan]
      rfl
    | succ n =>
      rw [TokenSource.results_succ]
      change TokenSource.results input.scan.2 n = _
      simp only [hscan, ih hn, hposition, List.take_succ_cons, List.flatMap_cons,
        List.append_assoc, Position.through_append]

/-- After all pieces the end is delivered again and again. -/
theorem results_eof (h : Cut input pieces last) {n : Nat} (hn : pieces.length ≤ n) :
    TokenSource.results input n =
      .ok ⟨.eof, .single (input.position.through (pieces.flatMap Piece.text ++ last))⟩ := by
  induction n generalizing input pieces last with
  | zero =>
    cases h with
    | last hs hitems hlast =>
      obtain ⟨rest, hscan, -⟩ := scan_last hs hitems hlast
      change input.scan.1 = _
      rw [hscan]
      rfl
    | cons => simp at hn
  | succ n ih =>
    rw [TokenSource.results_succ]
    change TokenSource.results input.scan.2 n = _
    cases h with
    | last hs hitems hlast =>
      obtain ⟨rest, hscan, htakes⟩ := scan_last hs hitems hlast
      have hrest : Cut rest [] [] := .last htakes.steady htakes.items (by simp)
      rw [hscan, ih hrest (Nat.zero_le n), htakes.position, Position.along_map_ok]
      rfl
    | cons hvalid hscan hposition hitems h =>
      rw [hscan, ih h (Nat.le_of_succ_le_succ hn), hposition, ← Position.through_append,
        List.flatMap_cons, List.append_assoc]

end Cut

theorem ofBytes_cut (name text : String) :
    ∃ pieces last, Cut (ofBytes name text.toUTF8) pieces last ∧
      text.toList = pieces.flatMap Piece.text ++ last := by
  have hitems : (ofBytes name text.toUTF8).items = text.toList.map .ok := by
    rw [ofBytes_items_iff, String.ofList_toList]
  obtain ⟨pieces, last, h⟩ := exists_cut text.toList (ofBytes_steady name _) hitems
  refine ⟨pieces, last, h, ?_⟩
  rw [h.items] at hitems
  exact ((List.map_inj_right fun _ _ => Except.ok.inj).1 hitems).symm

end Input

/-- Where a token or an error is. -/
def ScanResult.span : ScanResult → Span
  | .ok token => token.span
  | .error e => e.span

@[simp] theorem ScanResult.span_locate (s : Span) (value : Except LexError Token) :
    ScanResult.span (locate s value) = s := by
  cases value <;> rfl

namespace Input

/-- Spans cover exactly their lexemes. A text is cut into lexemes, with blanks before, between and
after them, so that the results of scanning it are those of the lexemes in order and then the end.
A result starts where stepping over all characters before its lexeme leads and stops behind its
last character, which is on the same line and as many columns on as the lexeme has characters. The
spans follow each other, and the end is the column behind the whole text. Stepping counts the line
feeds, and the columns that the last line takes when its tabs are expanded. -/
theorem scan_spans (name text : String) :
    let results := TokenSource.results (ofBytes name text.toUTF8)
    (∀ before, (Position.through {} before).line = before.count '\n' + 1 ∧
      (Position.through {} before).column = (expandTabs 0 (lastLine before)).length + 1) ∧
    ∃ (pieces : List Piece) (last : List Char),
      text.toList = pieces.flatMap Piece.text ++ last ∧
      (∀ piece ∈ pieces, (∀ c ∈ piece.blanks, c ∈ blankChars) ∧
        Lexeme piece.lexeme piece.value) ∧
      (∀ c ∈ last, c ∈ blankChars) ∧
      (∀ n piece, pieces[n]? = some piece →
        let before := (pieces.take n).flatMap Piece.text ++ piece.blanks
        let start := Position.through {} before
        let stop := Position.through {} (before ++ piece.lexeme)
        results n = locate ⟨start, stop⟩ piece.value ∧
        stop.line = start.line ∧ stop.column = start.column + piece.lexeme.length) ∧
      (∀ m n, m < n → m < pieces.length → (results m).span.stop ≤ (results n).span.start) ∧
      ∀ n, pieces.length ≤ n →
        results n = .ok ⟨.eof, .single (Position.through {} text.toList)⟩ := by
  intro results
  obtain ⟨pieces, last, h, htext⟩ := ofBytes_cut name text
  have hresults {n : Nat} {piece : Piece} (hn : pieces[n]? = some piece) :
      results n = locate ⟨Position.through {} ((pieces.take n).flatMap Piece.text ++ piece.blanks),
        Position.through {} ((pieces.take n).flatMap Piece.text ++ piece.text)⟩ piece.value :=
    h.results hn
  have heof {n : Nat} (hn : pieces.length ≤ n) :
      results n = .ok ⟨.eof, .single (Position.through {} text.toList)⟩ := by
    rw [htext]
    exact h.results_eof hn
  refine ⟨fun before => ⟨?_, Position.through_column before⟩, pieces, last, htext,
    fun piece hpiece => ⟨(h.valid piece hpiece).blanks, (h.valid piece hpiece).lexeme⟩, h.blanks,
    ?_, ?_, fun n hn => heof hn⟩
  · rw [Position.through_line, Nat.add_comm]
  · intro n piece hn before start stop
    have hplain := (h.valid piece (List.mem_of_getElem? hn)).lexeme.plain
    have hstop : stop = ⟨start.line, start.column + piece.lexeme.length⟩ := by
      rw [← start.through_plain hplain, ← Position.through_append]
    refine ⟨?_, by rw [hstop], by rw [hstop]⟩
    rw [hresults hn, Piece.text, ← List.append_assoc]
  · intro m n hmn hm
    have hpiece := List.getElem?_eq_getElem hm
    have hupTo : (pieces.take m).flatMap Piece.text ++ pieces[m].text =
        (pieces.take (m + 1)).flatMap Piece.text := by
      rw [List.take_add_one, hpiece, List.flatMap_append]
      simp
    rw [hresults hpiece, ScanResult.span_locate, hupTo]
    by_cases hn : n < pieces.length
    · rw [hresults (List.getElem?_eq_getElem hn), ScanResult.span_locate]
      apply Position.through_le_through
      have htake : pieces.take (m + 1) <+: pieces.take n :=
        List.take_prefix_take_left (by omega)
      exact (htake.flatMap Piece.text).trans (List.prefix_append _ _)
    · rw [heof (Nat.le_of_not_lt hn), htext]
      apply Position.through_le_through
      exact ((List.take_prefix _ _).flatMap Piece.text).trans (List.prefix_append _ _)

end Input

end ArithCompiler
