import ArithCompiler.Proofs.Expr.Diagnosis

/-! # Tokens scanned in advance

A text may be parsed while it is scanned, or all its tokens may be scanned first and then replayed.
The verdict on a source is up to its results as far as the one that decides, and this is never
behind the first end or the first error; so both ways give the same answer. Only the lines read so
far differ, but the line that a report quotes has been read both times.
-/

namespace ArithCompiler

open TokenSource (after results after_succ results_succ)

section Results

variable {r r' : Nat → ScanResult} {n : Nat} {v : Except (Located ParseError) Expr}

theorem unfinished_congr (h : ∀ k < n, r k = r' k) : unfinished r n = unfinished r' n := by
  induction n with
  | zero => rfl
  | succ n ih =>
    rw [unfinished, unfinished, ih fun k hk => h k (Nat.lt_succ_of_lt hk), h n (Nat.lt_succ_self n)]

/-- What a result decides is up to it and the results before. -/
theorem verdict?_congr (h : ∀ k ≤ n, r k = r' k) : verdict? r n = verdict? r' n := by
  have hbefore : unfinished r n = unfinished r' n :=
    unfinished_congr fun k hk => h k (Nat.le_of_lt hk)
  have hafter : unfinished r (n + 1) = unfinished r' (n + 1) :=
    unfinished_congr fun k hk => h k (Nat.le_of_lt_succ hk)
  rw [verdict?, verdict?, completedAt, completedAt, h n (Nat.le_refl n), hbefore, hafter]

theorem verdict?_of_error {cause : Located LexError} (h : r n = .error cause) :
    verdict? r n ≠ none := by
  rw [verdict?_of_stray (e := cause.map .lexical) (by rw [h]; rfl)]
  simp

theorem verdict?_of_isEnd (h : isEnd (r n) = true) : verdict? r n ≠ none := by
  rw [verdict?, h]
  split <;> simp_all

namespace FirstVerdict

theorem congr (hv : FirstVerdict r n v) (h : ∀ k ≤ n, r k = r' k) : FirstVerdict r' n v where
  undecided k hk := by
    rw [← verdict?_congr fun j hj => h j (by omega)]
    exact hv.undecided k hk
  verdict := by
    rw [← verdict?_congr h]
    exact hv.verdict

end FirstVerdict

end Results

/-- Two sources with the same results, as far as the first has been decided, are parsed alike. -/
theorem parse_congr {σ τ : Type} [TokenSource σ] [TokenSource τ] {tokens : σ} {other : τ} {n : Nat}
    (hn : verdict? (results tokens) n ≠ none)
    (h : ∀ k ≤ n, results tokens k = results other k) : (parse tokens).1 = (parse other).1 := by
  obtain ⟨m, hverdict, -⟩ := parse_verdict tokens
  obtain ⟨m', hverdict', -⟩ := parse_verdict other
  have hle := hverdict.le_of_ne_none hn
  exact (hverdict.congr fun k hk => h k (Nat.le_trans hk hle)).unique hverdict'

theorem results_replay {current token : Located Token} {later : List (Located Token)} {k : Nat}
    (h : (current :: later)[k]? = some token) :
    results (⟨current, later⟩ : Replay) k = .ok token := by
  induction k generalizing current later with
  | zero =>
    cases h
    cases later <;> rfl
  | succ k ih =>
    cases later with
    | nil => cases h
    | cons next later =>
      rw [results_succ]
      exact ih h

theorem results_replay_of_map_eq {r : Nat → ScanResult} {current : Located Token}
    {later : List (Located Token)} {m k : Nat}
    (h : (current :: later).map .ok = (List.range (m + 1)).map r) (hk : k ≤ m) :
    results (⟨current, later⟩ : Replay) k = r k := by
  have hat : ((current :: later).map .ok)[k]? = some (r k) := by
    rw [h, List.getElem?_map, List.getElem?_range (Nat.lt_succ_of_le hk)]
    rfl
  rw [List.getElem?_map, Option.map_eq_some_iff] at hat
  obtain ⟨token, htoken, hresult⟩ := hat
  rw [← hresult, results_replay htoken]

namespace Input

section Scan

variable {input rest : Input} {result : ScanResult}

theorem results_zero_of_scan (h : input.scan = (result, rest)) : results input 0 = result :=
  congrArg Prod.fst h

theorem after_succ_of_scan (h : input.scan = (result, rest)) (k : Nat) :
    after input (k + 1) = after rest k := by
  have hrest : (TokenSource.scan input).2 = rest := congrArg Prod.snd h
  rw [after_succ, hrest]

theorem results_succ_of_scan (h : input.scan = (result, rest)) (k : Nat) :
    results input (k + 1) = results rest k := by
  rw [results, after_succ_of_scan h, results]

end Scan

/-- What is scanned in advance: all results up to the first end or the first error. -/
theorem tokens_results (input : Input) :
    ∃ m, input.tokens.2 = after input (m + 1) ∧
      (∀ k < m, ∃ token, results input k = .ok token ∧ token.value ≠ .eof) ∧
      match input.tokens.1 with
      | .ok tokens => isEnd (results input m) = true ∧
          tokens.map .ok = (List.range (m + 1)).map (results input)
      | .error e => results input m = .error e := by
  -- A token other than `eof` goes before the results of the rest.
  have hbefore {input rest : Input} {token : Located Token} {m : Nat}
      (hscan : input.scan = (.ok token, rest)) (heof : token.value ≠ .eof)
      (h : ∀ k < m, ∃ token, results rest k = .ok token ∧ token.value ≠ .eof) :
      ∀ k < m + 1, ∃ token, results input k = .ok token ∧ token.value ≠ .eof := by
    rw [Nat.forall_lt_succ_left]
    refine ⟨⟨token, results_zero_of_scan hscan, heof⟩, fun k hk => ?_⟩
    rw [results_succ_of_scan hscan]
    exact h k hk
  fun_induction Input.tokens input with
  | case1 input e rest hscan =>
    exact ⟨0, (after_succ_of_scan hscan 0).symm, by simp, results_zero_of_scan hscan⟩
  | case2 input token rest hscan heof =>
    have hfirst := results_zero_of_scan hscan
    refine ⟨0, (after_succ_of_scan hscan 0).symm, by simp, ?_, ?_⟩
    · simp [hfirst, isEnd, heof]
    · simp [hfirst]
  | case3 input token rest hscan heof later rest' hlater ih =>
    rw [hlater] at ih
    obtain ⟨m, hrest, hm, hend, htokens⟩ := ih
    refine ⟨m + 1, ?_, hbefore hscan heof hm, ?_, ?_⟩
    · rw [after_succ_of_scan hscan]
      exact hrest
    · rw [results_succ_of_scan hscan]
      exact hend
    · rw [List.range_succ_eq_map, List.map_cons, List.map_cons, htokens,
        results_zero_of_scan hscan, List.map_map]
      simp [results_succ_of_scan hscan]
  | case4 input token rest hscan heof e rest' hlater ih =>
    rw [hlater] at ih
    obtain ⟨m, hrest, hm, herror⟩ := ih
    refine ⟨m + 1, ?_, hbefore hscan heof hm, ?_⟩
    · rw [after_succ_of_scan hscan]
      exact hrest
    · rw [results_succ_of_scan hscan]
      exact herror

/-- Only what decodes is scanned to the end. -/
theorem items_of_tokens {input rest : Input} {tokens : List (Located Token)} (hs : input.Sound)
    (h : input.tokens = (.ok tokens, rest)) : ∃ text : List Char, input.items = text.map .ok := by
  fun_induction Input.tokens input generalizing tokens with
  | case1 input e rest hscan => cases h
  | case2 input token rest hscan heof =>
    cases h
    obtain ⟨⟨blanks, lexeme, hitems, -, -, hends⟩, -⟩ := scan_sound hs hscan
    rw [heof] at hends
    have hrest : rest.items = [] := hends
    exact ⟨blanks ++ lexeme, by rw [hitems, hrest, List.append_nil]⟩
  | case3 input token rest hscan heof later rest' hlater ih =>
    cases h
    obtain ⟨⟨blanks, lexeme, hitems, -⟩, hrest⟩ := scan_sound hs hscan
    obtain ⟨text, htext⟩ := ih hrest hlater
    exact ⟨blanks ++ lexeme ++ text, by rw [hitems, htext, ← List.map_append]⟩
  | case4 input token rest hscan heof e rest' hlater ih => cases h

end Input

/-- A report is up to the name of the source and the line on which the error starts. -/
theorem Source.report_congr {s t : Source} {e : Located String} (hname : s.name = t.name)
    (hline : s.line e.line = t.line e.line) : s.report [e] = t.report [e] := by
  have hone : s.reportOne e = t.reportOne e := by
    unfold reportOne Source.locate
    rw [hname, hline]
  rw [report, report, hone]

/-- Once the result at fault has been scanned, reading on does not change the report. -/
theorem Input.report_after {name text : String} {n m : Nat} {e : Located ParseError}
    (h : FirstVerdict (results (ofBytes name text.toUTF8)) n (.error e)) (hle : n ≤ m) :
    (after (ofBytes name text.toUTF8) (n + 1)).source.report [e.map ParseError.message] =
      (after (ofBytes name text.toUTF8) (m + 1)).source.report [e.map ParseError.message] := by
  obtain ⟨k, hk, value, hresult, -⟩ := h.faults
  apply Source.report_congr
  · rw [(kept_name name).after rfl (n + 1), (kept_name name).after rfl (m + 1)]
  · exact (line_after hk hresult).trans (line_after (Nat.le_trans hk hle) hresult).symm

namespace Faults

variable {r : Nat → ScanResult} {e : Located ParseError}

/-- An error that finds fault with a token is one of the syntax, or of the depth at an operator. -/
theorem of_token {token : Token} (h : Faults r e (.ok token)) :
    (∃ found, e.value = .trailingInput found) ∨ e.value = .expectedLiteral token ∨
      e.value = .expectedOperator token ∨
      e.value = .tooDeep ∧ ∃ op, BinOp.ofToken? token = some op := by
  rw [Faults] at h
  split at h
  · next found he =>
    cases h
    exact .inr (.inl he)
  · next found he =>
    cases h
    exact .inr (.inr (.inl he))
  · next found he => exact .inl ⟨found, he⟩
  · cases h
  · next he =>
    obtain ⟨_, _, op, _, _, -, hop, hvalue⟩ := h
    cases hvalue
    exact .inr (.inr (.inr ⟨he, op, hop⟩))

theorem of_lexical {cause : LexError} (h : Faults r e (.error cause)) :
    e.value = .lexical cause := by
  rw [Faults] at h
  split at h
  · cases h
  · cases h
  · cases h
  · next he =>
    cases h
    exact he
  · obtain ⟨_, _, _, _, _, -, -, hvalue⟩ := h
    cases hvalue

end Faults

/-- Where scanning fails at result `m`, so does parsing: the error is that of the scan, or it finds
fault with a token before. -/
theorem FirstVerdict.of_error {r : Nat → ScanResult} {n m : Nat}
    {v : Except (Located ParseError) Expr} {cause : Located LexError} (hv : FirstVerdict r n v)
    (hbefore : ∀ k < m, ∃ token, r k = .ok token ∧ token.value ≠ .eof)
    (herror : r m = .error cause) :
    ∃ e, v = .error e ∧ (e = cause.map .lexical ∨
      ∃ k < m, ∃ token, r k = .ok ⟨token, e.span⟩ ∧
        (e.value = .expectedLiteral token ∨ e.value = .expectedOperator token ∨
          e.value = .tooDeep ∧ ∃ op, BinOp.ofToken? token = some op)) := by
  have hle : n ≤ m := hv.le_of_ne_none (verdict?_of_error herror)
  cases v with
  | ok expr =>
    -- Only an end accepts, and there is none up to `m`.
    obtain ⟨_, -, he⟩ | ⟨_, -, -, he⟩ | ⟨-, -, hends, -⟩ := verdict?_cases hv.verdict
    · cases he
    · cases he
    · have hend := hends.2
      obtain hlt | rfl := Nat.lt_or_eq_of_le hle
      · obtain ⟨token, hresult, heof⟩ := hbefore n hlt
        simp [hresult, isEnd, heof] at hend
      · simp [herror, isEnd] at hend
  | error e =>
    refine ⟨e, rfl, ?_⟩
    obtain ⟨error, span⟩ := e
    obtain ⟨k, hk, value, hresult, hfaults⟩ := hv.faults
    obtain hlt | rfl := Nat.lt_or_eq_of_le (Nat.le_trans hk hle)
    · right
      obtain ⟨⟨token, place⟩, htoken, -⟩ := hbefore k hlt
      obtain ⟨rfl, rfl⟩ := locate_inj (v := .ok token) (htoken.symm.trans hresult)
      obtain ⟨found, rfl⟩ | hvalue := hfaults.of_token
      · exact absurd rfl (hv.ne_trailingInput found place)
      · exact ⟨k, hlt, token, htoken, hvalue⟩
    · left
      obtain ⟨rfl, rfl⟩ := locate_inj (v := .error cause.value) (herror.symm.trans hresult)
      obtain rfl : error = .lexical cause.value := hfaults.of_lexical
      rfl

/-- Scanning in advance changes nothing. A text that is scanned to its end is parsed like the replay
of its tokens: to the same tree, or to the same error at the same place, and the report quotes the
same line although less of the text may have been read. A text on which scanning fails is rejected,
for the same cause at the same place, or because of a token that was scanned before: it is out of
place, or it is the operator of a node that is too deep. -/
theorem parse_replay (name : String) (bytes : ByteArray) :
    let input := Input.ofBytes name bytes
    match input.tokens with
    | (.ok tokens, final) =>
      ∃ current later, tokens = current :: later ∧
        (parse input).1 = (parse (⟨current, later⟩ : Replay)).1 ∧
        ∀ e, (parse input).1 = .error e →
          (parse input).2.source.report [e.map ParseError.message] =
            final.source.report [e.map ParseError.message]
    | (.error cause, _) =>
      ∃ m e, results input m = .error cause ∧ (∀ k < m, ∃ token, results input k = .ok token) ∧
        (parse input).1 = .error e ∧ (e = cause.map .lexical ∨
          ∃ k < m, ∃ token, results input k = .ok ⟨token, e.span⟩ ∧
            (e.value = .expectedLiteral token ∨ e.value = .expectedOperator token ∨
              e.value = .tooDeep ∧ ∃ op, BinOp.ofToken? token = some op)) := by
  intro input
  obtain ⟨m, hfinal, hbefore, hstop⟩ := input.tokens_results
  obtain ⟨n, hverdict, hrest⟩ := parse_verdict input
  rcases htokens : input.tokens with ⟨cause | tokens, final⟩
  · rw [htokens] at hstop
    have hstop : results input m = .error cause := hstop
    obtain ⟨e, he, hcause⟩ := hverdict.of_error hbefore hstop
    refine ⟨m, e, hstop, fun k hk => ?_, he, hcause⟩
    obtain ⟨token, htoken, -⟩ := hbefore k hk
    exact ⟨token, htoken⟩
  · rw [htokens] at hstop hfinal
    obtain ⟨hend, hresults⟩ := hstop
    have hdecided := verdict?_of_isEnd hend
    cases tokens with
    | nil => simp at hresults
    | cons current later =>
      refine ⟨current, later, rfl, ?_, fun e he => ?_⟩
      · exact parse_congr hdecided fun k hk => (results_replay_of_map_eq hresults hk).symm
      · obtain ⟨text, htext⟩ := Input.items_of_tokens (Input.ofBytes_sound name bytes) htokens
        obtain rfl := Input.ofBytes_items_iff.1 htext
        have hfinal : final = after input (m + 1) := hfinal
        rw [hrest, hfinal]
        rw [he] at hverdict
        exact Input.report_after hverdict (hverdict.le_of_ne_none hdecided)

-- In `1 2 ?` the sign is never reached: the second literal is out of place.
example :
    let input := Input.ofBytes "sum.txt" "1 2 ?".toUTF8
    results input 2 = .error ⟨.unrecognized '?', ⟨⟨1, 5⟩, ⟨1, 6⟩⟩⟩ ∧
      (parse input).1 = .error ⟨.expectedOperator (.literal 2), ⟨⟨1, 3⟩, ⟨1, 4⟩⟩⟩ := by
  intro input
  have hresults : results input = fun n =>
      [.ok ⟨.literal 1, ⟨⟨1, 1⟩, ⟨1, 2⟩⟩⟩, .ok ⟨.literal 2, ⟨⟨1, 3⟩, ⟨1, 4⟩⟩⟩,
        .error ⟨.unrecognized '?', ⟨⟨1, 5⟩, ⟨1, 6⟩⟩⟩].getD n (.ok ⟨.eof, .single ⟨1, 6⟩⟩) := by
    funext n
    rw [Input.results_text]
    simp [textLines, textResults, lineResults, blankChars, firstLexeme, operatorSigns,
      List.lookup_cons, locate, Nat.ofDigitChars_cons, Position.past, Position.after,
      Position.advance]
  refine ⟨congrFun hresults 2, ?_⟩
  apply FirstVerdict.parse_eq (n := 1)
  rw [hresults]
  exact ⟨by unfold Undecided; decide, rfl⟩

end ArithCompiler
