import ArithCompiler.Source.Report
import ArithCompiler.Proofs.Expr.FirstFailure
import ArithCompiler.Proofs.Token.Spans

/-! # What a report points at

A rejected text has one result that is at fault: the first one out of place, or the operator of the
first node that is too deep. The report quotes the line on which it starts, as that line stands in
the text, and the carets stand below its lexeme.
-/

namespace ArithCompiler

open TokenSource (after results)

namespace Unfinished

/-- A node is at the place of an operator that waited. -/
theorem mem_nodesOf {ws : List Waiting} {e : Expr} {node : Located Expr}
    (h : node ∈ nodesOf ws e) :
    ∃ w ∈ ws, ∃ right, node = ⟨.binary w.op w.left right, w.span⟩ := by
  induction ws generalizing e with
  | nil => cases h
  | cons w ws ih =>
    rcases List.mem_cons.1 h with rfl | h
    · exact ⟨w, List.mem_cons_self, e, rfl⟩
    · obtain ⟨w', hw, hnode⟩ := ih h
      exact ⟨w', List.mem_cons_of_mem w hw, hnode⟩

/-- What waits has waited before, or is the operator just read. -/
theorem mem_waiting_read {s : Unfinished} {result : ScanResult} {w : Waiting}
    (h : w ∈ (s.read result).waiting) :
    w ∈ s.waiting ∨
      ∃ token, result = .ok ⟨token, w.span⟩ ∧ BinOp.ofToken? token = some w.op := by
  have hcomplete {token : Token} (hw : w ∈ (s.complete token).waiting) : w ∈ s.waiting :=
    List.mem_of_mem_filter hw
  cases result with
  | error e => exact .inl h
  | ok token =>
    obtain ⟨token, span⟩ := token
    cases hop : BinOp.ofToken? token with
    | some op =>
      rw [read_operator s hop] at h
      rcases List.mem_cons.1 h with rfl | h
      · exact .inr ⟨token, rfl, hop⟩
      · exact .inl (hcomplete h)
    | none =>
      cases token with
      | literal value =>
        rw [(read_literal s value span).2] at h
        exact .inl h
      | eof =>
        rw [read_eof s rfl] at h
        exact .inl (hcomplete h)
      | _ => cases hop

end Unfinished

section Results

variable {r : Nat → ScanResult} {n : Nat}

theorem mem_waiting {w : Waiting} (h : w ∈ (unfinished r n).waiting) :
    ∃ k < n, ∃ token, r k = .ok ⟨token, w.span⟩ ∧ BinOp.ofToken? token = some w.op := by
  induction n with
  | zero => cases h
  | succ n ih =>
    rcases Unfinished.mem_waiting_read h with h | ⟨token, hresult, hop⟩
    · obtain ⟨k, hk, hread⟩ := ih h
      exact ⟨k, Nat.lt_succ_of_lt hk, hread⟩
    · exact ⟨n, Nat.lt_succ_self n, token, hresult, hop⟩

/-- A node that a result completes is at the place of its operator, which was read before. -/
theorem mem_completedAt {node : Located Expr} (h : node ∈ completedAt r n) :
    ∃ k < n, ∃ token op left right, r k = .ok ⟨token, node.span⟩ ∧
      BinOp.ofToken? token = some op ∧ node.value = .binary op left right := by
  rw [completedAt] at h
  split at h
  · obtain ⟨w, hw, right, rfl⟩ := Unfinished.mem_nodesOf h
    obtain ⟨k, hk, token, hresult, hop⟩ := mem_waiting (List.mem_of_mem_filter hw)
    exact ⟨k, hk, token, w.op, w.left, right, hresult, hop, rfl⟩
  · cases h

/-- What an error finds fault with: the result that it names, or the operator of the first node that
is too deep. -/
def Faults (r : Nat → ScanResult) (e : Located ParseError) (value : Except LexError Token) : Prop :=
  match e.value with
  | .expectedLiteral found | .expectedOperator found | .trailingInput found => value = .ok found
  | .lexical cause => value = .error cause
  | .tooDeep => ∃ n token op left right, FirstDeep r n ⟨.binary op left right, e.span⟩ ∧
      BinOp.ofToken? token = some op ∧ value = .ok token

theorem faults_of_stray {e : Located ParseError} (h : stray? n (r n) = some e) :
    ∃ value, r n = locate e.span value ∧ Faults r e value := by
  cases hresult : r n with
  | error cause =>
    rw [hresult] at h
    cases h
    exact ⟨.error cause.value, rfl, rfl⟩
  | ok token =>
    simp only [hresult, stray?] at h
    split at h <;> split at h <;> cases h <;> exact ⟨.ok token.value, rfl, rfl⟩

/-- The place of an error is that of a result not later than the one that decides. -/
theorem FirstVerdict.faults {e : Located ParseError} (h : FirstVerdict r n (.error e)) :
    ∃ k ≤ n, ∃ value, r k = locate e.span value ∧ Faults r e value := by
  obtain ⟨e', hstray, he⟩ | ⟨node, hplace, hfind, he⟩ | ⟨-, -, -, he⟩ := verdict?_cases h.verdict
  · cases he
    exact ⟨n, Nat.le_refl n, faults_of_stray hstray⟩
  · cases he
    obtain ⟨k, hk, token, op, left, right, hresult, hop, hvalue⟩ :=
      mem_completedAt (List.mem_of_find?_eq_some hfind)
    have hdeep : FirstDeep r n ⟨.binary op left right, node.span⟩ := by
      rw [← hvalue]
      exact h.undecided.firstDeep hplace hfind
    exact ⟨k, Nat.le_of_lt hk, .ok token, hresult, n, token, op, left, right, hdeep, hop, rfl⟩
  · cases he

end Results

theorem locate_inj {s t : Span} {v w : Except LexError Token} (h : locate s v = locate t w) :
    s = t ∧ v = w := by
  cases v <;> cases w <;> cases h <;> exact ⟨rfl, rfl⟩

namespace Input

/-- What every `next` keeps, and every return of the character that it delivered. -/
structure Kept (P : Input → Prop) : Prop where
  next : ∀ input, P input → P input.next.2
  putback : ∀ input c, P input → input.next.1 = .ok (some c) → P (input.next.2.putback c)

namespace Kept

variable {P : Input → Prop} {input : Input}

theorem skipBlanks (hkept : Kept P) (h : P input) : P input.skipBlanks.2 := by
  fun_induction Input.skipBlanks input with
  | case1 input c rest hnext hblank ih => exact ih (by simpa [hnext] using hkept.next input h)
  | case2 input c rest hnext | case3 input rest hnext | case4 input e rest hnext =>
    simpa [hnext] using hkept.next input h

theorem literal (hkept : Kept P) (value : Nat) (h : P input) : P (input.literal value).2 := by
  fun_induction Input.literal value input with
  | case1 value input c rest hnext hdigit larger hle ih =>
    exact ih (by simpa [hnext] using hkept.next input h)
  | case3 value input c rest hnext hdigit =>
    simpa [hnext] using hkept.putback input c h (by rw [hnext])
  | case2 value input c rest hnext | case4 value input rest hnext
  | case5 value input e rest hnext =>
    simpa [hnext] using hkept.next input h

theorem scan (hkept : Kept P) (h : P input) : P input.scan.2 := by
  have hskip := hkept.skipBlanks h
  rw [Input.scan]
  split
  · next hrest => rwa [hrest] at hskip
  · next hrest => rwa [hrest] at hskip
  · next c rest hrest =>
    rw [hrest] at hskip
    have hliteral := hkept.literal (digitValue c) hskip
    simp only
    split
    · exact hskip
    · split
      · split
        · next hvalue => rwa [hvalue] at hliteral
        · next hvalue => rwa [hvalue] at hliteral
      · exact hskip

theorem after (hkept : Kept P) (h : P input) (n : Nat) : P (after input n) := by
  induction n with
  | zero => exact h
  | succ n ih => exact hkept.scan ih

end Kept

theorem kept_at (lines : List (Except ReadError String)) :
    Kept fun input => ∃ p, At lines input p where
  next := by
    rintro input ⟨p, h⟩
    exact ⟨_, h.next.2.1⟩
  putback := by
    rintro input c ⟨p, h⟩ hc
    exact ⟨_, (h.next.2.1.putback (next_held input) (h.next.2.2 c hc)).2⟩

theorem refill_name (input : Input) : input.refill.2.source.name = input.source.name := by
  unfold refill
  split
  · rfl
  · split <;> rfl

theorem next_name (input : Input) : input.next.2.source.name = input.source.name := by
  have hrefill := refill_name input
  unfold next
  split
  · rfl
  · split
    · next hrest => rwa [hrest] at hrefill
    · next rest hrest =>
      rw [hrest] at hrefill
      rw [← hrefill, ← take_source rest]

theorem kept_name (name : String) : Kept fun input => input.source.name = name where
  next input h := (next_name input).trans h
  putback input _ h _ := (next_name input).trans h

section Scanned

variable {name text : String} {span : Span} {value : Except LexError Token} {k n : Nat}

/-- Where a result stands in the text: it is the end, or it is a lexeme of the text. What is left
after its scan, and after any later one, stands behind it. -/
theorem results_cases (hk : k ≤ n)
    (h : results (ofBytes name text.toUTF8) k = locate span value) :
    let rest := after (ofBytes name text.toUTF8) (n + 1)
    (value = .ok .eof ∧ span = .single (Position.through {} text.toList) ∧ rest.items = []) ∨
    ∃ before lexeme later, text.toList = before ++ lexeme ++ later ∧ Lexeme lexeme value ∧
      span = ⟨Position.through {} before, Position.through {} (before ++ lexeme)⟩ ∧
      rest.items.length ≤ later.length := by
  intro rest
  obtain ⟨pieces, last, hcut, htext⟩ := ofBytes_cut name text
  obtain ⟨last', hrest, hsuffix, hend⟩ := hcut.after (n + 1)
  by_cases hlt : k < pieces.length
  · right
    obtain ⟨rfl, rfl⟩ := locate_inj (h.symm.trans (hcut.results (List.getElem?_eq_getElem hlt)))
    refine ⟨(pieces.take k).flatMap Piece.text ++ pieces[k].blanks, pieces[k].lexeme,
      (pieces.drop (k + 1)).flatMap Piece.text ++ last, ?_,
      (hcut.valid _ (List.getElem_mem hlt)).lexeme, ?_, ?_⟩
    · have hpieces : pieces.flatMap Piece.text = (pieces.take k).flatMap Piece.text ++
          (pieces[k].text ++ (pieces.drop (k + 1)).flatMap Piece.text) := by
        rw [← List.flatMap_cons, List.getElem_cons_drop, ← List.flatMap_append,
          List.take_append_drop]
      simp only [htext, hpieces, Piece.text, List.append_assoc]
    · rw [List.append_assoc]
      rfl
    · have hdrop : pieces.drop (n + 1) <:+ pieces.drop (k + 1) :=
        List.drop_suffix_drop_left _ (by omega)
      have hpieces := (hdrop.flatMap Piece.text).length_le
      rw [hrest.items, List.length_map, List.length_append, List.length_append]
      exact Nat.add_le_add hpieces hsuffix.length_le
  · left
    have hle : pieces.length ≤ k := Nat.le_of_not_lt hlt
    have heof : locate span value =
        locate (.single (Position.through {} text.toList)) (.ok .eof) := by
      rw [← h, htext]
      exact hcut.results_eof hle
    obtain ⟨rfl, rfl⟩ := locate_inj heof
    refine ⟨rfl, rfl, ?_⟩
    rw [hrest.items, hend (by omega), List.drop_eq_nil_of_le (by omega)]
    rfl

theorem At.length_le_reached {text : String} {input : Input} {p : Place}
    (h : At ((byteLines text.toUTF8.data.toList).map decodeLine) input p) :
    text.toList.length ≤ p.reached + input.items.length := by
  have htotal : ((byteLines text.toUTF8.data.toList).map decodeLine).flatMap lineItems =
      text.toList.map .ok := by
    rw [map_decodeLine_toUTF8, flatMap_lineItems_map_ok, textLines_flatten]
  have hitems := h.items
  have hreached := h.reached
  rw [htotal] at hitems
  rw [hitems, List.length_drop, List.length_map]
  split at hreached <;> omega

/-- Once a result has been scanned, the line on which it starts can be quoted. -/
theorem line_after (hk : k ≤ n)
    (h : results (ofBytes name text.toUTF8) k = locate span value) :
    (after (ofBytes name text.toUTF8) (n + 1)).source.line span.start.line =
      String.ofList (quotedLine text.toList span.start.line) := by
  obtain ⟨p, hat⟩ := (kept_at _).after ⟨{}, At.ofBytes name text.toUTF8⟩ (n + 1)
  have hreached := hat.length_le_reached
  obtain ⟨-, rfl, hitems⟩ | ⟨before, lexeme, later, htext, hlexeme, rfl, hitems⟩ :=
    results_cases hk h
  · -- The end is only found by reading everything, and its line may not exist.
    rw [hitems] at hreached
    exact hat.history.line_through (List.append_nil _).symm (.inr hreached)
  · -- What is left stands behind the lexeme, so its first character has been read.
    have hpos := List.length_pos_of_ne_nil hlexeme.ne_nil
    rw [List.append_assoc] at htext
    refine hat.history.line_through htext (.inl ?_)
    rw [htext, List.length_append, List.length_append] at hreached
    omega

theorem columns_of_results (h : results (ofBytes name text.toUTF8) k = locate span value) :
    1 ≤ span.start.column ∧ span.start.column ≤ 4 * text.length + 1 ∧
      span.stop.column ≤ 4 * text.length + 2 := by
  have hpos (before : List Char) : 1 ≤ (Position.through {} before).column := by
    rw [Position.through_column]
    exact Nat.le_add_left ..
  rw [← String.length_toList]
  obtain ⟨-, rfl, -⟩ | ⟨before, lexeme, later, htext, -, rfl, -⟩ := results_cases (Nat.le_refl k) h
  · have hle := Position.through_column_le text.toList
    exact ⟨hpos _, hle, Nat.succ_le_succ hle⟩
  · have hbefore := Position.through_column_le before
    have hlexeme := Position.through_column_le (before ++ lexeme)
    refine ⟨hpos _, ?_, ?_⟩ <;> simp only [htext, List.length_append] at hlexeme ⊢ <;> omega

end Scanned

end Input

namespace Span

/-- The carets end where the span does, if it ends on its first line, and there is at least one. -/
theorem column_add_width (s : Span) :
    s.start.column + s.width =
      if s.stop.line = s.start.line then max s.stop.column (s.start.column + 1)
      else s.start.column + 1 := by
  unfold width
  split <;> omega

theorem one_le_width (s : Span) : 1 ≤ s.width := by
  have h := s.column_add_width
  split at h <;> omega

theorem width_columns (p : Position) {n : Nat} (hn : 1 ≤ n) :
    Span.width ⟨p, ⟨p.line, p.column + n⟩⟩ = n := by
  simp only [width, if_true]
  omega

/-- A span of `n` columns is written by its first and its last column. -/
theorem text_columns {p : Position} (hp : 1 ≤ p.column) {n : Nat} (hn : 1 ≤ n) :
    Span.text ⟨p, ⟨p.line, p.column + n⟩⟩ =
      if n = 1 then p.text
      else "[" ++ p.text ++ "-" ++ Position.text ⟨p.line, p.column + n - 1⟩ ++ "]" := by
  have hsingle : (⟨p.line, p.column + n⟩ : Position) = p.advance ∨ ⟨p.line, p.column + n⟩ = p ↔
      n = 1 := by
    obtain ⟨line, column⟩ := p
    simp only [Position.advance, Position.mk.injEq, true_and]
    omega
  have hback : Position.back ⟨p.line, p.column + n⟩ = ⟨p.line, p.column + n - 1⟩ := by
    simp only [Position.back, Position.mk.injEq, true_and]
    omega
  simp only [text, hsingle, hback]

end Span

/-- A lexeme takes one column for each of its characters. -/
theorem Lexeme.span_columns {lexeme : List Char} {value : Except LexError Token}
    (h : Lexeme lexeme value) (before : List Char) :
    let start := Position.through {} before
    (⟨start, Position.through {} (before ++ lexeme)⟩ : Span) =
      ⟨start, ⟨start.line, start.column + lexeme.length⟩⟩ := by
  intro start
  rw [Position.through_append, Position.through_plain _ h.plain]

theorem Lexeme.return_notMem {lexeme : List Char} {value : Except LexError Token}
    (h : Lexeme lexeme value) : '\r' ∉ lexeme := fun hreturn =>
  h.not_blank '\r' hreturn (by simp [blankChars])

/-- Reports point at the text that is at fault. The report on a rejected text quotes the line on
which the error starts, as that line stands in the text but without its end, and below it as many
blanks as columns stand before the error and then at least one caret. Unless the end of the text is
at fault, the error spans one lexeme of the text, its first and its last column are written, and
with the tabs of the line expanded the characters above the carets are the lexeme. The columns are
exact differences, which fit into 32 bits for a text of fewer than `2 ^ 29` characters. -/
theorem parse_diagnosis {name text : String} {e : Located ParseError} {rest : Input}
    (h : parse (Input.ofBytes name text.toUTF8) = (.error e, rest)) :
    let r := results (Input.ofBytes name text.toUTF8)
    let start := e.span.start
    let stop := e.span.stop
    let quoted := quotedLine text.toList start.line
    let number := start.line.repr
    ∃ skip carets, start.column = skip + 1 ∧ 1 ≤ carets ∧
      start.column + carets =
        (if stop.line = start.line then max stop.column (start.column + 1)
        else start.column + 1) ∧
      (text.length < 0x20000000 → start.column + carets < 0x100000000) ∧
      rest.source.report [e.map ParseError.message] =
        "error: " ++ e.value.message ++ "\n" ++
        " --> " ++ (name ++ ":" ++ e.span.text) ++ "\n" ++
        blanks number.length ++ " |\n" ++
        number ++ " | " ++ String.ofList quoted ++ "\n" ++
        blanks number.length ++ " | " ++ blanks skip ++
          String.ofList (List.replicate carets '^') ++ "\n\n" ++
        "Build failed with 1 error\n" ∧
      ∃ n value, r n = locate e.span value ∧ Faults r e value ∧
        (value = .ok .eof ∧ e.span = .single (Position.through {} text.toList) ∨
          ∃ before lexeme later, text.toList = before ++ lexeme ++ later ∧ Lexeme lexeme value ∧
            e.span = ⟨Position.through {} before, Position.through {} (before ++ lexeme)⟩ ∧
            carets = lexeme.length ∧ ((expandTabs 0 quoted).drop skip).take carets = lexeme ∧
            e.span.text =
              if lexeme.length = 1 then start.text
              else "[" ++ start.text ++ "-" ++
                Position.text ⟨start.line, start.column + lexeme.length - 1⟩ ++ "]") := by
  intro r start stop quoted number
  obtain ⟨n, hverdict, hrest⟩ := parse_verdict (Input.ofBytes name text.toUTF8)
  rw [h] at hverdict hrest
  have hrest : rest = after (Input.ofBytes name text.toUTF8) (n + 1) := hrest
  obtain ⟨k, hk, value, hresult, hfaults⟩ := hverdict.faults
  obtain ⟨hstart, hlimit, hstop⟩ := Input.columns_of_results hresult
  have hwidth := e.span.column_add_width
  have hsize : text.length < 0x20000000 →
      e.span.start.column + e.span.width < 0x100000000 := by
    intro hlength
    split at hwidth <;> omega
  refine ⟨start.column - 1, e.span.width, (Nat.sub_add_cancel hstart).symm, e.span.one_le_width,
    hwidth, hsize, ?_, k, value, hresult, hfaults, ?_⟩
  · have hline : rest.source.line start.line = String.ofList quoted := by
      rw [hrest]
      exact Input.line_after hk hresult
    have hname : rest.source.name = name := by
      rw [hrest]
      exact (Input.kept_name name).after rfl (n + 1)
    rw [← hline, ← hname]
    rfl
  · obtain ⟨hvalue, hspan, -⟩ | ⟨before, lexeme, later, htext, hlexeme, hspan, -⟩ :=
      Input.results_cases (Nat.le_refl k) hresult
    · exact .inl ⟨hvalue, hspan⟩
    · have hpos := List.length_pos_of_ne_nil hlexeme.ne_nil
      have hcolumns := hspan.trans (hlexeme.span_columns before)
      have hcarets : e.span.width = lexeme.length := by rw [hcolumns, Span.width_columns _ hpos]
      have hbefore : start = Position.through {} before := congrArg Span.start hspan
      refine .inr ⟨before, lexeme, later, htext, hlexeme, hspan, hcarets, ?_, ?_⟩
      · simp only [hcarets, quoted, htext, hbefore]
        exact expandTabs_quotedLine later hlexeme.ne_nil hlexeme.plain hlexeme.return_notMem
      · rw [hcolumns, Span.text_columns (hbefore ▸ hstart) hpos, hbefore]

/-- The results of a text are those of its lines, which may be computed. -/
theorem Input.results_text (name text : String) (n : Nat) :
    results (ofBytes name text.toUTF8) n =
      (textResults 0 ((textLines text.toList).map fun line => .ok (String.ofList line))).getD n
        (.ok ⟨.eof, .single (Position.through {} text.toList)⟩) := by
  have hitems : (ofBytes name text.toUTF8).items = text.toList.map .ok := by
    rw [ofBytes_items_iff, String.ofList_toList]
  rw [(ofBytes_reading name text.toUTF8).results n, map_decodeLine_toUTF8, hitems,
    Position.along_map_ok, lineResults]
  rfl

/-- A literal stands where an operator is expected, behind a tab and before a line end of two
characters. -/
theorem parse_diagnosis_tab :
    (parse (Input.ofBytes "sum.txt" "1 +\n\t2 34\r\n".toUTF8)).1 =
        .error ⟨.expectedOperator (.literal 34), ⟨⟨2, 7⟩, ⟨2, 9⟩⟩⟩ ∧
      (parse (Input.ofBytes "sum.txt" "1 +\n\t2 34\r\n".toUTF8)).2.source.report
          [Located.map ParseError.message
            ⟨.expectedOperator (.literal 34), ⟨⟨2, 7⟩, ⟨2, 9⟩⟩⟩] =
        "error: Syntax error, expected an arithmetic operator but found literal `34`\n" ++
        " --> sum.txt:[2:7-2:8]\n" ++
        "  |\n" ++
        "2 | \t2 34\n" ++
        "  |       ^^\n\n" ++
        "Build failed with 1 error\n" := by
  have hparse : (parse (Input.ofBytes "sum.txt" "1 +\n\t2 34\r\n".toUTF8)).1 =
      .error ⟨.expectedOperator (.literal 34), ⟨⟨2, 7⟩, ⟨2, 9⟩⟩⟩ := by
    have hresults : results (Input.ofBytes "sum.txt" "1 +\n\t2 34\r\n".toUTF8) = fun n =>
        [.ok ⟨.literal 1, ⟨⟨1, 1⟩, ⟨1, 2⟩⟩⟩, .ok ⟨.plus, ⟨⟨1, 3⟩, ⟨1, 4⟩⟩⟩,
          .ok ⟨.literal 2, ⟨⟨2, 5⟩, ⟨2, 6⟩⟩⟩, .ok ⟨.literal 34, ⟨⟨2, 7⟩, ⟨2, 9⟩⟩⟩].getD n
          (.ok ⟨.eof, .single ⟨3, 1⟩⟩) := by
      funext n
      rw [Input.results_text]
      simp [textLines, textResults, lineResults, blankChars, firstLexeme, operatorSigns,
        List.lookup_cons, locate, Nat.ofDigitChars_cons, Position.past, Position.after,
        Position.tab, Position.tabWidth, Position.advance, Position.newline]
    apply FirstVerdict.parse_eq (n := 3)
    rw [hresults]
    exact ⟨by unfold Undecided; decide, rfl⟩
  obtain ⟨skip, carets, hskip, -, hcarets, -, hreport, -⟩ :=
    parse_diagnosis (Prod.ext hparse rfl)
  have hskip : 7 = skip + 1 := hskip
  have hcarets : 7 + carets = 9 := hcarets
  obtain rfl : skip = 6 := by omega
  obtain rfl : carets = 2 := by omega
  rw [hreport]
  refine ⟨hparse, ?_⟩
  decide +kernel

end ArithCompiler
