import ArithCompiler.Proofs.Expr.Language
import ArithCompiler.Proofs.Expr.Verdict
import ArithCompiler.Proofs.Source.Steps
import Mathlib.Data.List.Infix
import Mathlib.Data.List.TakeWhile

/-! # Scanning line by line

Scanning may go on after every error. What it gives is then decided by each line alone: a line that
is not text gives one error at its first column, and any other line gives the tokens and errors of
its lexemes. No lexeme goes on in the next line, since every line but the last ends with a line feed.
Behind the last line the end is delivered again and again.
-/

namespace ArithCompiler

/-- The first lexeme of a line that begins with `c`, which is no blank, and what it is taken for. Of
digits whose value is too large it is the shortest run that is too large. -/
def firstLexeme (c : Char) (rest : List Char) : List Char × Except LexError Token :=
  match operatorSigns.lookup c with
  | some token => ([c], .ok token)
  | none =>
    if c.isDigit then
      let run := c :: rest.takeWhile Char.isDigit
      match run.inits.find? (0x8000000000000000 ≤ Nat.ofDigitChars 10 · 0) with
      | some digits => (digits, .error .overflow)
      | none => (run, .ok (.literal (Int64.ofNat (Nat.ofDigitChars 10 run 0))))
    else ([c], .error (.unrecognized c))

/-- A token or an error at its place. -/
def locate (span : Span) : Except LexError Token → ScanResult
  | .ok token => .ok ⟨token, span⟩
  | .error e => .error ⟨e, span⟩

/-- The results for what is left of a line, from the position `p` on. -/
def lineResults (p : Position) : List Char → List ScanResult
  | [] => []
  | c :: rest =>
    if c ∈ blankChars then lineResults (p.after c) rest
    else
      let (lexeme, value) := firstLexeme c rest
      let stop := p.along (lexeme.map .ok)
      locate ⟨p, stop⟩ value :: lineResults stop (rest.drop (lexeme.length - 1))
termination_by chars => chars.length
decreasing_by
  · simp
  · simp only [List.length_drop, List.length_cons]
    omega

/-- The results for the lines of a text, of which `valid` texts came before. -/
def textResults (valid : Nat) : List (Except ReadError String) → List ScanResult
  | [] => []
  | .error e :: lines => .error ⟨.input e, .single ⟨valid + 1, 1⟩⟩ :: textResults valid lines
  | .ok text :: lines => lineResults ⟨valid + 1, 1⟩ text.toList ++ textResults (valid + 1) lines

theorem Position.along_line {p : Position} {chars : List Char} (h : '\n' ∉ chars) :
    (p.along (chars.map .ok)).line = p.line := by
  induction chars generalizing p with
  | nil => rfl
  | cons c chars ih =>
    rw [List.mem_cons, not_or] at h
    obtain ⟨hc, hchars⟩ := h
    rw [List.map_cons, along_cons, ih hchars, past, after, if_neg (Ne.symm hc)]
    split <;> rfl

/-- A line that is closed by a line feed leads to the first column of the next one. -/
theorem Position.along_closed {p : Position} {chars : List Char} (h : '\n' ∉ chars) :
    p.along ((chars ++ ['\n']).map .ok) = ⟨p.line + 1, 1⟩ := by
  rw [List.map_append, along_append, ← along_line (p := p) h]
  rfl

/-- The digits that continue a literal of the value `value`, and what is made of them. -/
def literalTail (value : Nat) (rest : List Char) : List Char × Except LexError Nat :=
  let run := rest.takeWhile Char.isDigit
  match run.inits.find? (0x8000000000000000 ≤ Nat.ofDigitChars 10 · value) with
  | some digits => (digits, .error .overflow)
  | none => (run, .ok (Nat.ofDigitChars 10 run value))

/-- The shortest run that is too large, when one more digit stands before the others. -/
theorem find?_tooLarge_cons {value : Nat} (h : value ≤ maxLiteral) (c : Char) (run : List Char) :
    (c :: run).inits.find? (0x8000000000000000 ≤ Nat.ofDigitChars 10 · value) =
      (run.inits.find? (0x8000000000000000 ≤ Nat.ofDigitChars 10 · (value * 10 + digitValue c))).map
        (c :: ·) := by
  have hsmall : value < 0x8000000000000000 := Nat.lt_succ_of_le h
  rw [List.inits_cons, List.find?_cons_of_neg (by simpa using hsmall), List.find?_map]
  congr 2
  funext digits
  simp [ofDigitChars_digit]

theorem literalTail_nil {value : Nat} (h : value ≤ maxLiteral) {rest : List Char}
    (hrest : ∀ c ∈ rest.head?, c.isDigit = false) : literalTail value rest = ([], .ok value) := by
  have hsmall : ¬0x8000000000000000 ≤ value := Nat.not_le.2 (Nat.lt_succ_of_le h)
  have hrun : rest.takeWhile Char.isDigit = [] := by
    cases rest with
    | nil => rfl
    | cons c rest => simp [hrest c (by simp)]
  simp only [literalTail, hrun, List.inits, List.find?_cons, List.find?_nil,
    Nat.ofDigitChars_nil, hsmall, decide_false]

theorem literalTail_cons {value : Nat} (h : value ≤ maxLiteral) {c : Char}
    (hc : c.isDigit = true) (rest : List Char) :
    literalTail value (c :: rest) =
      (c :: (literalTail (value * 10 + digitValue c) rest).1,
        (literalTail (value * 10 + digitValue c) rest).2) := by
  simp only [literalTail, List.takeWhile_cons_of_pos hc, find?_tooLarge_cons h, ofDigitChars_digit]
  cases (rest.takeWhile Char.isDigit).inits.find?
    (0x8000000000000000 ≤ Nat.ofDigitChars 10 · (value * 10 + digitValue c)) <;> rfl

theorem literalTail_of_tooLarge {value : Nat} (h : ¬value ≤ maxLiteral) (rest : List Char) :
    literalTail value rest = ([], .error .overflow) := by
  have hlarge : 0x8000000000000000 ≤ value := Nat.lt_of_not_le h
  have hfind (run : List Char) :
      run.inits.find? (0x8000000000000000 ≤ Nat.ofDigitChars 10 · value) = some [] := by
    cases run <;> rw [List.inits, List.find?_cons_of_pos (by simpa using hlarge)]
  simp only [literalTail, hfind]

theorem firstLexeme_digit {c : Char} (hc : c.isDigit = true) (rest : List Char) :
    firstLexeme c rest = (c :: (literalTail (digitValue c) rest).1,
      (literalTail (digitValue c) rest).2.map (.literal ∘ Int64.ofNat)) := by
  have hfind := find?_tooLarge_cons (Nat.zero_le maxLiteral) c (rest.takeWhile Char.isDigit)
  rw [Nat.zero_mul, Nat.zero_add] at hfind
  simp only [firstLexeme, literalTail, lookup_operatorSigns, ofSign?_of_isDigit hc, hc, if_true,
    hfind, ofDigitChars_first]
  cases (rest.takeWhile Char.isDigit).inits.find?
    (0x8000000000000000 ≤ Nat.ofDigitChars 10 · (digitValue c)) <;> rfl

namespace Input

/-- `rest` is the input behind a lexeme, with `later` still to be delivered. -/
structure Takes (input : Input) (lexeme : List Char) (later : List (Except ReadError Char))
    (rest : Input) : Prop where
  steady : rest.Steady
  items : rest.items = later
  position : rest.position = input.position.along (lexeme.map .ok)

theorem takes_char {input : Input} {c : Char} {later : List (Except ReadError Char)}
    (hs : input.Steady) (hitems : input.items = .ok c :: later) :
    ∃ rest, input.next = (.ok (some c), rest) ∧ rest.previous = input.position ∧
      rest.held = none ∧ input.Takes [c] later rest := by
  obtain ⟨rest, hnext, hlater, hposition, hprevious, hheld, hsteady⟩ := next_char hs hitems
  exact ⟨rest, hnext, hprevious, hheld, hsteady, hlater, hposition⟩

theorem Takes.cons {input mid rest : Input} {c : Char} {lexeme : List Char}
    {later later' : List (Except ReadError Char)} (hfirst : input.Takes [c] later mid)
    (hrest : mid.Takes lexeme later' rest) : input.Takes (c :: lexeme) later' rest where
  steady := hrest.steady
  items := hrest.items
  position := by
    rw [hrest.position, hfirst.position]
    rfl

/-- A literal ends where no digit follows. -/
theorem literal_stops {input : Input} (value : Nat) (hs : input.Steady)
    (hends : EndsRun input.items) :
    ∃ after, input.literal value = (.ok value, after) ∧ input.Takes [] input.items after := by
  rw [literal]
  rcases hitems : input.items with _ | ⟨e | c, later⟩
  · obtain ⟨hnext, -⟩ := next_end hs.sound hitems
    rw [hnext]
    exact ⟨input, rfl, hs, hitems, rfl⟩
  · simp [EndsRun, hitems] at hends
  · have hc : c.isDigit = false := by simpa [EndsRun, hitems] using hends
    obtain ⟨mid, hnext, hprevious, hheld, htakes⟩ := takes_char hs hitems
    rw [hnext]
    refine ⟨mid.putback c, by simp [hc], ⟨htakes.steady.sound, fun _ => rfl⟩, ?_, hprevious⟩
    rw [putback_items c hheld, htakes.items]

/-- A literal goes on to the end of its digits, or until it is too large. -/
theorem literal_takes {value : Nat} {input : Input} {rest : List Char}
    {later : List (Except ReadError Char)} (hs : input.Steady) (hvalue : value ≤ maxLiteral)
    (hitems : input.items = rest.map .ok ++ later)
    (hends : EndsRun ((rest.dropWhile Char.isDigit).map .ok ++ later)) :
    ∃ after, input.literal value = ((literalTail value rest).2, after) ∧
      input.Takes (literalTail value rest).1
        ((rest.drop (literalTail value rest).1.length).map .ok ++ later) after := by
  induction rest generalizing value input with
  | nil =>
    rw [literalTail_nil hvalue (by simp)]
    rw [List.map_nil, List.nil_append] at hitems
    rw [List.dropWhile_nil, List.map_nil, List.nil_append, ← hitems] at hends
    have hstops := literal_stops value hs hends
    rwa [hitems] at hstops
  | cons c rest ih =>
    by_cases hc : c.isDigit = true
    · obtain ⟨mid, hnext, -, -, htakes⟩ := takes_char hs hitems
      rw [List.dropWhile_cons_of_pos hc] at hends
      rw [literalTail_cons hvalue hc, literal, hnext]
      simp only [hc, if_true]
      by_cases hlarger : value * 10 + digitValue c ≤ maxLiteral
      · obtain ⟨after, hliteral, hafter⟩ := ih htakes.steady hlarger htakes.items hends
        rw [if_pos hlarger]
        exact ⟨after, hliteral, htakes.cons hafter⟩
      · rw [if_neg hlarger, literalTail_of_tooLarge hlarger]
        exact ⟨mid, rfl, htakes⟩
    · rw [literalTail_nil hvalue (by simpa using hc)]
      rw [List.dropWhile_cons_of_neg hc, ← hitems] at hends
      have hstops := literal_stops value hs hends
      rwa [hitems] at hstops

/-- A blank is passed over. -/
theorem scan_blank {input : Input} {c : Char} {later : List (Except ReadError Char)}
    (hs : input.Steady) (hitems : input.items = .ok c :: later) (hc : isBlank c = true) :
    ∃ mid, input.scan = mid.scan ∧ input.Takes [c] later mid := by
  obtain ⟨mid, hnext, -, -, htakes⟩ := takes_char hs hitems
  have hskip : input.skipBlanks = mid.skipBlanks := by
    rw [skipBlanks, hnext]
    simp [hc]
  exact ⟨mid, by rw [scan, scan, hskip], htakes⟩

/-- What a scan gives when no blank comes first. -/
theorem scan_lexeme {input : Input} {c : Char} {rest : List Char}
    {later : List (Except ReadError Char)} (hs : input.Steady)
    (hitems : input.items = (c :: rest).map .ok ++ later) (hc : isBlank c = false)
    (hends : c.isDigit = true → EndsRun ((rest.dropWhile Char.isDigit).map .ok ++ later)) :
    ∃ after, input.scan = (locate ⟨input.position,
          input.position.along ((firstLexeme c rest).1.map .ok)⟩ (firstLexeme c rest).2, after) ∧
      input.Takes (firstLexeme c rest).1
        ((rest.drop ((firstLexeme c rest).1.length - 1)).map .ok ++ later) after := by
  obtain ⟨mid, hnext, hprevious, -, htakes⟩ := takes_char hs hitems
  have hskip : input.skipBlanks = (.ok (some c), mid) := by
    rw [skipBlanks, hnext]
    simp [hc]
  rw [scan, hskip]
  by_cases hdigit : c.isDigit = true
  · have hsmall : digitValue c ≤ maxLiteral := Nat.le_trans (digitValue_le hdigit) (by decide)
    obtain ⟨after, hliteral, hafter⟩ :=
      literal_takes htakes.steady hsmall htakes.items (hends hdigit)
    rw [firstLexeme_digit hdigit]
    refine ⟨after, ?_, htakes.cons hafter⟩
    have hspan := (htakes.cons hafter).position
    simp only [ofSign?_of_isDigit hdigit, hdigit, if_true, hliteral]
    cases hvalue : (literalTail (digitValue c) rest).2 with
    | error e => simp [spanFrom, hprevious, hspan, locate, Except.map]
    | ok value => simp [spanFrom, hprevious, hspan, locate, Except.map]
  · rw [firstLexeme, lookup_operatorSigns]
    have hspan := htakes.position
    cases hsign : Token.ofSign? c with
    | some token =>
      refine ⟨mid, ?_, htakes⟩
      simp only [hsign, spanFrom, hprevious, hspan, locate]
    | none =>
      simp only [hsign, hdigit]
      refine ⟨mid, ?_, htakes⟩
      simp [spanFrom, hprevious, hspan, locate]

/-- What is still to be read: the rest of a line, and the lines after it, before which there were
`valid` texts. -/
structure Reading (input : Input) (chars : List Char) (valid : Nat)
    (lines : List (Except ReadError String)) : Prop where
  steady : input.Steady
  items : input.items = chars.map .ok ++ lines.flatMap lineItems
  closed : Closed lines
  /-- The line is the last one, or it leads to the next one and no digit ends it. -/
  apart : lines = [] ∨ input.position.along (chars.map .ok) = ⟨valid + 1, 1⟩ ∧
    ∀ c ∈ chars.getLast?, c.isDigit = false

end Input

theorem literalTail_prefix (value : Nat) (rest : List Char) :
    (literalTail value rest).1 <+: rest := by
  rw [literalTail]
  split
  · next digits hfind =>
    exact ((List.mem_inits _ _).1 (List.mem_of_find?_eq_some hfind)).trans
      (List.takeWhile_prefix _)
  · exact List.takeWhile_prefix _

/-- The first lexeme is cut off the line. -/
theorem firstLexeme_append (c : Char) (rest : List Char) :
    (firstLexeme c rest).1 ++ rest.drop ((firstLexeme c rest).1.length - 1) = c :: rest := by
  have hcut : ∃ tail, (firstLexeme c rest).1 = c :: tail ∧ tail <+: rest := by
    by_cases hc : c.isDigit = true
    · rw [firstLexeme_digit hc]
      exact ⟨_, rfl, literalTail_prefix _ rest⟩
    · refine ⟨[], ?_, List.nil_prefix⟩
      rw [firstLexeme]
      split
      · rfl
      · simp [hc]
  obtain ⟨tail, hlexeme, later, hrest⟩ := hcut
  rw [hlexeme, ← hrest]
  simp

namespace Input

/-- No digit of a run stands in the next line. -/
theorem Reading.endsRun {input : Input} {c : Char} {rest : List Char} {valid : Nat}
    {lines : List (Except ReadError String)} (h : Reading input (c :: rest) valid lines)
    (hc : c.isDigit = true) :
    EndsRun ((rest.dropWhile Char.isDigit).map .ok ++ lines.flatMap lineItems) := by
  cases htail : rest.dropWhile Char.isDigit with
  | cons d tail =>
    have hne : rest.dropWhile Char.isDigit ≠ [] := by simp [htail]
    have hd := List.head_dropWhile_not Char.isDigit hne
    simp only [htail, List.head_cons] at hd
    simpa [EndsRun] using hd
  | nil =>
    rcases h.apart with hlines | ⟨-, hlast⟩
    · simp [EndsRun, hlines]
    · -- Only digits are left, and the last of them would end the line.
      have hall : ∀ d ∈ c :: rest, d.isDigit = true := by
        simpa [hc] using List.dropWhile_eq_nil_iff.1 htail
      have hmem := List.getLast_mem (List.cons_ne_nil c rest)
      have hdigit := hlast _ (List.getLast?_eq_some_getLast (List.cons_ne_nil c rest))
      rw [hall _ hmem] at hdigit
      cases hdigit

/-- The rest of the line after a piece of it was taken. -/
theorem Takes.reading {input after : Input} {lexeme chars : List Char} {valid : Nat}
    {lines : List (Except ReadError String)}
    (htakes : input.Takes lexeme (chars.map .ok ++ lines.flatMap lineItems) after)
    (h : Reading input (lexeme ++ chars) valid lines) : Reading after chars valid lines where
  steady := htakes.steady
  items := htakes.items
  closed := h.closed
  apart := by
    refine h.apart.imp_right fun ⟨hposition, hlast⟩ => ⟨?_, fun c hc => hlast c ?_⟩
    · rw [htakes.position, ← Position.along_append, ← List.map_append, hposition]
    · rw [List.getLast?_append, hc]
      rfl

/-- The place where everything has been read stays the same. -/
theorem Takes.along_items {input after : Input} {lexeme : List Char}
    {later : List (Except ReadError Char)} (h : input.Takes lexeme later after)
    (hitems : input.items = lexeme.map .ok ++ later) :
    after.position.along after.items = input.position.along input.items := by
  rw [h.position, h.items, hitems, Position.along_append]

/-- One scan gives the first of the results, or the end, and the other results are still to
come. -/
def Scans (input : Input) (results : List ScanResult) : Prop :=
  ∃ after chars valid lines,
    input.scan = (results.headD (.ok ⟨.eof, .single (input.position.along input.items)⟩), after) ∧
    Reading after chars valid lines ∧
    lineResults after.position chars ++ textResults valid lines = results.tail ∧
    after.position.along after.items = input.position.along input.items

/-- The rest of a line gives its results, provided that the lines after it give theirs. -/
theorem scans_chars {chars : List Char} {valid : Nat} {lines : List (Except ReadError String)}
    (hlines : ∀ input, Reading input [] valid lines → Scans input (textResults valid lines))
    {input : Input} (h : Reading input chars valid lines) :
    Scans input (lineResults input.position chars ++ textResults valid lines) := by
  induction chars generalizing input with
  | nil =>
    rw [lineResults]
    exact hlines input h
  | cons c rest ih =>
    rw [lineResults]
    by_cases hc : c ∈ blankChars
    · obtain ⟨mid, hscan, htakes⟩ := scan_blank h.steady h.items (isBlank_iff.2 hc)
      obtain ⟨after, chars', valid', lines', hnext, hafter, hresults, hend⟩ :=
        ih (htakes.reading h)
      have hplace := htakes.along_items h.items
      have hposition : mid.position = input.position.after c := htakes.position
      rw [if_pos hc, ← hposition]
      rw [hplace, ← hscan] at hnext
      exact ⟨after, chars', valid', lines', hnext, hafter, hresults, hend.trans hplace⟩
    · have hblank : isBlank c = false := Bool.eq_false_iff.2 fun hb => hc (isBlank_iff.1 hb)
      obtain ⟨after, hscan, htakes⟩ := scan_lexeme h.steady h.items hblank h.endsRun
      have hcut := firstLexeme_append c rest
      have hitems := h.items
      rw [← hcut] at h hitems
      rw [List.map_append, List.append_assoc] at hitems
      rw [if_neg hc]
      refine ⟨after, _, valid, lines, hscan, htakes.reading h, ?_, htakes.along_items hitems⟩
      rw [htakes.position]
      rfl

/-- The lines give their results one after the other. -/
theorem scans_lines {input : Input} {valid : Nat} {lines : List (Except ReadError String)}
    (h : Reading input [] valid lines) : Scans input (textResults valid lines) := by
  induction lines generalizing input valid with
  | nil =>
    have hitems : input.items = [] := h.items
    obtain ⟨hnext, -⟩ := next_end h.steady.sound hitems
    have hskip : input.skipBlanks = (.ok none, input) := by rw [skipBlanks, hnext]
    refine ⟨input, [], valid, [], ?_, h, by simp [lineResults, textResults], rfl⟩
    rw [Input.scan, hskip, hitems]
    rfl
  | cons line lines ih =>
    obtain ⟨hposition, -⟩ := h.apart.resolve_left (List.cons_ne_nil line lines)
    have hposition : input.position = ⟨valid + 1, 1⟩ := hposition
    cases line with
    | error e =>
      have hitems : input.items = .error e :: lines.flatMap lineItems := h.items
      obtain ⟨rest, hnext, hlater, hstays, -, -, hsteady⟩ := next_failure h.steady.sound hitems
      have hskip : input.skipBlanks = (.error e, rest) := by rw [skipBlanks, hnext]
      have hreading : Reading rest [] valid lines :=
        ⟨hsteady, hlater, h.closed.tail, .inr ⟨hstays.trans hposition, by simp⟩⟩
      refine ⟨rest, [], valid, lines, ?_, hreading, ?_, ?_⟩
      · rw [Input.scan, hskip, textResults, ← hposition, ← hstays]
        rfl
      · rw [lineResults, textResults]
        rfl
      · rw [hstays, hlater, hitems]
        rfl
    | ok text =>
      have hreading : Reading input text.toList (valid + 1) lines := by
        refine ⟨h.steady, ?_, h.closed.tail, ?_⟩
        · rw [h.items]
          rfl
        · by_cases hlast : lines = []
          · exact .inl hlast
          · obtain ⟨chars, hchars, htext⟩ := h.closed.head hlast
            rw [htext]
            refine .inr ⟨?_, by simp⟩
            rw [Position.along_closed hchars, hposition]
      have hscans := scans_chars (fun input hinput => ih hinput) hreading
      rw [textResults, ← hposition]
      exact hscans

/-- All scans give the results of the lines, and then the end. -/
theorem Reading.results {input : Input} {chars : List Char} {valid : Nat}
    {lines : List (Except ReadError String)} (h : Reading input chars valid lines) (n : Nat) :
    TokenSource.results input n = (lineResults input.position chars ++ textResults valid lines).getD n
      (.ok ⟨.eof, .single (input.position.along input.items)⟩) := by
  induction n generalizing input chars valid lines with
  | zero =>
    obtain ⟨after, -, -, -, hscan, -⟩ := scans_chars (fun _ => scans_lines) h
    change input.scan.1 = _
    rw [hscan]
    cases lineResults input.position chars ++ textResults valid lines <;> rfl
  | succ n ih =>
    obtain ⟨after, chars', valid', lines', hscan, hafter, hresults, hend⟩ :=
      scans_chars (fun _ => scans_lines) h
    rw [TokenSource.results_succ]
    change TokenSource.results input.scan.2 n = _
    rw [hscan, ih hafter, hresults, hend]
    cases lineResults input.position chars ++ textResults valid lines <;> rfl

theorem ofBytes_reading (name : String) (bytes : ByteArray) :
    Reading (ofBytes name bytes) [] 0 ((byteLines bytes.data.toList).map decodeLine) :=
  ⟨ofBytes_steady name bytes, rfl, closed_byteLines _, .inr ⟨rfl, by simp⟩⟩

/-- Scanning on after errors gives, line by line, what each line decides alone: one error at its
first column for a line that is not text, and the results of its lexemes for any other. After the
last line every scan gives the end, at the place behind all characters. -/
theorem results_ofBytes (name : String) (bytes : ByteArray) (n : Nat) :
    let lines := (byteLines bytes.data.toList).map decodeLine
    TokenSource.results (ofBytes name bytes) n =
      (textResults 0 lines).getD n
        (.ok ⟨.eof, .single (Position.along {} (lines.flatMap lineItems))⟩) := by
  intro lines
  have hreading := ofBytes_reading name bytes
  have h := hreading.results n
  rw [lineResults, hreading.items] at h
  exact h

end Input

end ArithCompiler
