import ArithCompiler.Proofs.Source.Place
import Mathlib.Data.List.GetD

/-! # Lines and columns of a text

Stepping over a text leads to a line and a column. The line counts the line feeds before, and the
column is the width of what stands before on the line, with each tab as wide as it takes to the next
tab stop. The lines that were begun can be quoted, and are then the lines of the text.
-/

namespace ArithCompiler

namespace Position

/-- The position after stepping over a text. -/
def through (p : Position) (text : List Char) : Position := text.foldl after p

@[simp] theorem through_nil (p : Position) : p.through [] = p := rfl

@[simp] theorem through_cons (p : Position) (c : Char) (text : List Char) :
    p.through (c :: text) = (p.after c).through text := rfl

theorem through_append (p : Position) (first later : List Char) :
    p.through (first ++ later) = (p.through first).through later := List.foldl_append

theorem along_map_ok (p : Position) (text : List Char) : p.along (text.map .ok) = p.through text :=
  List.foldl_map

/-- Positions in the order of reading. -/
instance : LE Position where
  le p q := p.line < q.line ∨ p.line = q.line ∧ p.column ≤ q.column

theorem le_def {p q : Position} :
    p ≤ q ↔ p.line < q.line ∨ p.line = q.line ∧ p.column ≤ q.column := Iff.rfl

theorem le_trans {p q r : Position} (hpq : p ≤ q) (hqr : q ≤ r) : p ≤ r := by
  rw [le_def] at *
  omega

/-- A tab leads to the next column of the form `4 * k + 1`. -/
theorem tab_column {p : Position} (h : 1 ≤ p.column) :
    p.tab.column = p.column + (4 - (p.column - 1) % 4) := by
  simp only [tab, tabWidth]
  omega

theorem le_after (p : Position) (c : Char) : p ≤ p.after c := by
  rw [le_def, after]
  split
  · exact .inl (Nat.lt_succ_self _)
  · split
    · simp only [tab, tabWidth, Nat.lt_irrefl, true_and, false_or]
      omega
    · exact .inr ⟨rfl, Nat.le_succ _⟩

theorem le_through (p : Position) (text : List Char) : p ≤ p.through text := by
  induction text generalizing p with
  | nil => exact .inr ⟨rfl, Nat.le_refl _⟩
  | cons c text ih => exact le_trans (p.le_after c) (ih _)

theorem through_le_through (p : Position) {first text : List Char} (h : first <+: text) :
    p.through first ≤ p.through text := by
  obtain ⟨later, rfl⟩ := h
  rw [through_append]
  exact le_through _ later

/-- Characters other than line feeds and tabs move the position by one column each. -/
theorem through_plain (p : Position) {text : List Char} (h : ∀ c ∈ text, c ≠ '\n' ∧ c ≠ '\t') :
    p.through text = ⟨p.line, p.column + text.length⟩ := by
  induction text generalizing p with
  | nil => rfl
  | cons c text ih =>
    obtain ⟨hnewline, htab⟩ := h c (by simp)
    rw [through_cons, ih _ fun d hd => h d (List.mem_cons_of_mem _ hd), after, if_neg hnewline,
      if_neg htab]
    simp only [advance, List.length_cons, mk.injEq, true_and]
    omega

end Position

/-- A line with its tabs as blanks up to the next multiple of four columns, when `column` columns
stand before it. -/
def expandTabs (column : Nat) : List Char → List Char
  | [] => []
  | c :: line =>
    if c = '\t' then
      List.replicate (4 - column % 4) ' ' ++ expandTabs (column + (4 - column % 4)) line
    else c :: expandTabs (column + 1) line

theorem expandTabs_append (column : Nat) (first later : List Char) :
    expandTabs column (first ++ later) =
      expandTabs column first ++ expandTabs (column + (expandTabs column first).length) later := by
  induction first generalizing column with
  | nil => rfl
  | cons c first ih =>
    rw [List.cons_append, expandTabs, expandTabs]
    split
    · rw [ih, List.append_assoc, List.length_append, List.length_replicate, Nat.add_assoc]
    · rw [ih, List.cons_append, List.length_cons, Nat.add_assoc, Nat.add_comm 1]

theorem expandTabs_plain (column : Nat) {line : List Char} (h : ∀ c ∈ line, c ≠ '\t') :
    expandTabs column line = line := by
  induction line generalizing column with
  | nil => rfl
  | cons c line ih =>
    rw [expandTabs, if_neg (h c (by simp)), ih _ fun d hd => h d (List.mem_cons_of_mem _ hd)]

namespace Position

theorem through_line (p : Position) (text : List Char) :
    (p.through text).line = p.line + text.count '\n' := by
  induction text generalizing p with
  | nil => rfl
  | cons c text ih =>
    rw [through_cons, ih, List.count_cons, after]
    split
    · next hc =>
      simp only [newline, hc, beq_self_eq_true, if_true]
      omega
    · next hc =>
      have hne : (c == '\n') = false := beq_false_of_ne hc
      split <;> simp [tab, advance, hne]

end Position

/-- What stands on the last line of a text. -/
def lastLine (text : List Char) : List Char := text.rtakeWhile (· ≠ '\n')

theorem lastLine_concat (text : List Char) {c : Char} (hc : c ≠ '\n') :
    lastLine (text ++ [c]) = lastLine text ++ [c] :=
  List.rtakeWhile_concat_pos _ _ _ (decide_eq_true hc)

theorem lastLine_of_notMem {text : List Char} (h : '\n' ∉ text) : lastLine text = text := by
  rw [lastLine, List.rtakeWhile_eq_self_iff]
  intro c hc
  simpa using fun hnewline : c = '\n' => h (hnewline ▸ hc)

theorem lastLine_append_lineFeed (above : List Char) {line : List Char} (h : '\n' ∉ line) :
    lastLine (above ++ '\n' :: line) = line := by
  induction line using List.reverseRecOn with
  | nil => simp [lastLine]
  | append_singleton line c ih =>
    rw [List.mem_append, List.mem_singleton, not_or] at h
    rw [← List.cons_append, ← List.append_assoc, lastLine_concat _ (Ne.symm h.2), ih h.1]

/-- A text is one line, or its last line follows its last line feed. -/
theorem eq_append_lineFeed_of_mem {text : List Char} (h : '\n' ∈ text) :
    ∃ above line, text = above ++ '\n' :: line ∧ '\n' ∉ line := by
  obtain ⟨line, above, heq, hline⟩ := List.eq_append_cons_of_mem (List.mem_reverse.2 h)
  refine ⟨above.reverse, line.reverse, ?_, by simpa using hline⟩
  rw [← List.reverse_reverse text, heq]
  simp

/-- The column counts what stands before on the line when the tabs are expanded. -/
theorem Position.through_column (text : List Char) :
    (Position.through {} text).column = (expandTabs 0 (lastLine text)).length + 1 := by
  induction text using List.reverseRecOn with
  | nil => rfl
  | append_singleton text c ih =>
    rw [through_append, through_cons, through_nil, after]
    split
    · next hc => simp [hc, lastLine, expandTabs]
    · next hc =>
      rw [lastLine_concat _ hc, expandTabs_append, List.length_append, Nat.zero_add, expandTabs]
      split
      · rw [tab_column (by omega), ih]
        simp [expandTabs]
        omega
      · simp [advance, ih, expandTabs]

/-- A character takes at most four columns. -/
theorem Position.through_column_le (text : List Char) :
    (Position.through {} text).column ≤ 4 * text.length + 1 := by
  induction text using List.reverseRecOn with
  | nil => exact Nat.le_refl 1
  | append_singleton text c ih =>
    have hpos := through_column text
    rw [through_append, through_cons, through_nil, after, List.length_append, List.length_singleton]
    split
    · simp
    · split
      · rw [tab_column (by omega)]
        omega
      · simp only [advance]
        omega

theorem splitOn_lineFeed_cons (c : Char) (text : List Char) :
    (c :: text).splitOn '\n' =
      if c = '\n' then [] :: text.splitOn '\n' else (text.splitOn '\n').modifyHead (c :: ·) := by
  simp [List.splitOn, List.splitOnP_cons_eq_if_modifyHead]

theorem length_splitOn (text : List Char) :
    (text.splitOn '\n').length = text.count '\n' + 1 := by
  induction text with
  | nil => simp
  | cons c text ih =>
    rw [splitOn_lineFeed_cons, List.count_cons]
    split
    · next hc => simp [hc, ih]
    · next hc => simp [hc, ih]

theorem getD_splitOn_zero (text : List Char) :
    (text.splitOn '\n').getD 0 [] = text.takeWhile (· ≠ '\n') := by
  induction text with
  | nil => simp
  | cons c text ih =>
    rw [splitOn_lineFeed_cons, List.takeWhile_cons]
    split
    · next hc => simp [hc]
    · next hc =>
      obtain ⟨first, lines, hlines⟩ := List.exists_cons_of_ne_nil (List.splitOn_ne_nil '\n' text)
      rw [hlines, List.getD_cons_zero] at ih
      simp [hlines, hc, ih]

/-- The line on which a text goes on. -/
theorem getD_splitOn_append (before later : List Char) :
    ((before ++ later).splitOn '\n').getD (before.count '\n') [] =
      lastLine before ++ later.takeWhile (· ≠ '\n') := by
  have hplain {line : List Char} (hline : '\n' ∉ line) :
      (line ++ later).takeWhile (· ≠ '\n') = line ++ later.takeWhile (· ≠ '\n') :=
    List.takeWhile_append_of_pos fun c hc => decide_eq_true fun hnewline => hline (hnewline ▸ hc)
  -- Everything up to the last line feed before is cut off as whole lines.
  by_cases h : '\n' ∈ before
  · obtain ⟨above, line, rfl, hline⟩ := eq_append_lineFeed_of_mem h
    have hcount : (above ++ '\n' :: line).count '\n' = (above.splitOn '\n').length := by
      rw [length_splitOn, List.count_append, List.count_cons_self, List.count_eq_zero.2 hline]
    rw [lastLine_append_lineFeed _ hline, List.append_assoc, List.cons_append,
      List.splitOn_append_cons_self, hcount, List.getD_append_right _ _ _ _ (Nat.le_refl _),
      Nat.sub_self, getD_splitOn_zero, hplain hline]
  · rw [List.count_eq_zero.2 h, getD_splitOn_zero, lastLine_of_notMem h, hplain h]

/-- Line `n` of a text, counted from one, without the carriage returns and line feeds at its end;
empty past the last line. -/
def quotedLine (text : List Char) (n : Nat) : List Char :=
  ((text.splitOn '\n').getD (n - 1) []).rdropWhile fun c => c = '\n' || c = '\r'

theorem rdropWhile_append {p : Char → Bool} {first : List Char} (hne : first ≠ [])
    (h : p (first.getLast hne) = false) (later : List Char) :
    (first ++ later).rdropWhile p = first ++ later.rdropWhile p := by
  induction later using List.reverseRecOn with
  | nil => simpa [List.rdropWhile_eq_self_iff, hne] using h
  | append_singleton later c ih =>
    rw [← List.append_assoc, List.rdropWhile_concat, List.rdropWhile_concat, ih]
    split
    · rfl
    · rw [List.append_assoc]

/-- When the tabs of its line are expanded, what is written without blanks stands from its column
on. -/
theorem expandTabs_quotedLine {before lexeme : List Char} (later : List Char) (hne : lexeme ≠ [])
    (hplain : ∀ c ∈ lexeme, c ≠ '\n' ∧ c ≠ '\t') (hreturn : '\r' ∉ lexeme) :
    let start := Position.through {} before
    ((expandTabs 0 (quotedLine (before ++ lexeme ++ later) start.line)).drop
      (start.column - 1)).take lexeme.length = lexeme := by
  intro start
  have hline : start.line - 1 = before.count '\n' := by
    rw [Position.through_line]
    exact Nat.add_sub_cancel_left ..
  have hlexeme : (lexeme ++ later).takeWhile (· ≠ '\n') = lexeme ++ later.takeWhile (· ≠ '\n') :=
    List.takeWhile_append_of_pos fun c hc => decide_eq_true (hplain c hc).1
  have hline' : lastLine before ++ lexeme ≠ [] := List.append_ne_nil_of_right_ne_nil _ hne
  have hlast : lexeme.getLast hne ∈ lexeme := List.getLast_mem hne
  rw [quotedLine, hline, List.append_assoc, getD_splitOn_append, hlexeme, ← List.append_assoc,
    rdropWhile_append hline', expandTabs_append, expandTabs_append, Position.through_column,
    expandTabs_plain _ fun c hc => (hplain c hc).2]
  · simp
  · rw [List.getLast_append_of_ne_nil _ hne]
    simpa using ⟨(hplain _ hlast).1, fun hc => hreturn (hc ▸ hlast)⟩

theorem nil_notMem_textLines (text : List Char) : [] ∉ textLines text := by
  induction text with
  | nil => simp [textLines]
  | cons c text ih =>
    rw [textLines]
    split
    · simpa using ih
    · simpa using fun h => ih (List.mem_of_mem_tail h)

/-- A line with its line feed, if it has one, is quoted like the line without. -/
theorem getD_textLines (text : List Char) (k : Nat) :
    (textLines text).getD k [] = (text.splitOn '\n').getD k [] ∨
      (textLines text).getD k [] = (text.splitOn '\n').getD k [] ++ ['\n'] := by
  induction text generalizing k with
  | nil =>
    left
    cases k <;> simp [textLines]
  | cons c text ih =>
    obtain ⟨first, lines, hlines⟩ := List.exists_cons_of_ne_nil (List.splitOn_ne_nil '\n' text)
    rw [textLines, splitOn_lineFeed_cons]
    split
    · cases k with
      | zero => simp
      | succ k => exact ih k
    · cases k with
      | zero =>
        have h := ih 0
        rw [hlines] at h ⊢
        rcases h with h | h <;> cases hl : textLines text <;> simp_all
      | succ k =>
        have h := ih (k + 1)
        rw [hlines] at h ⊢
        cases hl : textLines text <;> simp_all

/-- The lines above the one on which a text goes on stand before. -/
theorem length_flatten_take_textLines_le (before later : List Char) :
    ((textLines (before ++ later)).take (before.count '\n')).flatten.length ≤ before.length := by
  induction before with
  | nil => simp
  | cons c before ih =>
    rw [List.cons_append, textLines]
    by_cases hc : c = '\n'
    · rw [if_pos hc, hc, List.count_cons_self, List.take_succ_cons, List.flatten_cons,
        List.length_append, List.length_cons]
      exact Nat.add_comm .. ▸ Nat.add_le_add_right ih 1
    · rw [if_neg hc, List.count_cons_of_ne hc]
      cases hcount : before.count '\n' with
      | zero => simp
      | succ k =>
        rw [hcount] at ih
        cases hlines : textLines (before ++ later) with
        | nil => simp
        | cons first lines =>
          simp only [hlines, List.headD_cons, List.tail_cons, List.take_succ_cons,
            List.flatten_cons, List.length_append, List.length_cons] at ih ⊢
          omega

theorem quote_textLines (text : List Char) (k : Nat) :
    quote (String.ofList ((textLines text).getD k [])) =
      String.ofList (quotedLine text (k + 1)) := by
  rw [quote, quotedLine, String.toList_ofList, Nat.add_sub_cancel]
  rcases getD_textLines text k with h | h
  · rw [h]
  · rw [h, List.rdropWhile_concat_pos _ _ _ (by decide)]

theorem map_decodeLine_toUTF8 (text : String) :
    (byteLines text.toUTF8.data.toList).map decodeLine =
      (textLines text.toList).map fun line => .ok (String.ofList line) := by
  have hbytes : text.toUTF8 = ⟨(encode text.toList).toArray⟩ := by
    rw [← toUTF8_ofList, String.ofList_toList]
  rw [hbytes, List.toList_toArray, byteLines_encode, List.map_map]
  exact List.map_congr_left fun line _ => decodeLine_encode line

theorem validLines_map_ok (lines : List (List Char)) :
    validLines (lines.map fun line => .ok (String.ofList line)) = lines.map String.ofList := by
  rw [validLines, List.filterMap_map, ← List.filterMap_eq_map]
  rfl

theorem flatMap_lineItems_map_ok (lines : List (List Char)) :
    (lines.map fun line => Except.ok (String.ofList line)).flatMap lineItems =
      lines.flatten.map .ok := by
  simp [lineItems, List.map_flatten, List.flatMap_def, Function.comp_def]

/-- The line on which a text goes on can be quoted from when its first character, or the end of the
text, has been reached. -/
theorem Input.History.line_through {text : String} {input : Input} {reached : Nat}
    (h : History ((byteLines text.toUTF8.data.toList).map decodeLine) input reached)
    {before later : List Char} (htext : text.toList = before ++ later)
    (hreached : before.length < reached ∨ text.toList.length ≤ reached) :
    input.source.line (Position.through {} before).line =
      String.ofList (quotedLine text.toList (Position.through {} before).line) := by
  have hnumber : (Position.through {} before).line = before.count '\n' + 1 := by
    rw [Position.through_line]
    exact Nat.add_comm ..
  rw [hnumber, ← quote_textLines]
  rw [map_decodeLine_toUTF8] at h
  generalize hk : before.count '\n' = k
  by_cases hlt : k < (textLines text.toList).length
  · have hcut : textLines text.toList = (textLines text.toList).take k ++
        (textLines text.toList)[k] :: (textLines text.toList).drop (k + 1) := by
      rw [List.getElem_cons_drop, List.take_append_drop]
    have habove : ((textLines text.toList).take k).flatten.length ≤ before.length := by
      rw [htext, ← hk]
      exact length_flatten_take_textLines_le before later
    have hinside : ((textLines text.toList).take k).flatten.length < text.toList.length := by
      have hpos : 0 < (textLines text.toList)[k].length := by
        apply List.length_pos_of_ne_nil
        intro hnil
        exact nil_notMem_textLines text.toList (hnil ▸ List.getElem_mem hlt)
      have htotal := congrArg (fun lines => lines.flatten.length) hcut
      simp only [textLines_flatten, List.flatten_append, List.flatten_cons,
        List.length_append] at htotal
      omega
    rw [hcut, List.map_append, List.map_cons] at h
    have hquoted := h.line rfl
    rw [validLines_map_ok, flatMap_lineItems_map_ok, List.length_map, List.length_map,
      List.length_take_of_le (Nat.le_of_lt hlt), if_pos (by omega)] at hquoted
    rw [hquoted, List.getD_eq_getElem _ _ hlt]
  · have hlength : (textLines text.toList).length ≤ k := Nat.le_of_not_lt hlt
    rw [List.getD_eq_default _ _ hlength, h.line_eq_empty (.inr ?_)]
    · rfl
    · rw [validLines_map_ok, List.length_map]
      omega

end ArithCompiler
