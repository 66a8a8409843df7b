import ArithCompiler.Proofs.Source.Place
import ArithCompiler.Proofs.Token.Lines
import Mathlib.Algebra.Group.Nat.Defs

/-! # Scanning under watch

A watched input stops at the first breach of what scanning relies on: only the character that was
just delivered is put back, and only while none is held; the cursor never passes the end of its
line, and a character is taken only before that end; only digits are given a value; the counters of
lines and columns stay within 32 bits. Fewer than `2 ^ 29` bytes are scanned without a breach,
however often, and with the results of an input that is not watched.
-/

namespace ArithCompiler

open TokenSource (after after_succ results results_succ)

/-- What scanning must not do. -/
inductive Breach where
  | putbackTwice
  | putbackOther
  | pastLineEnd
  | valueOfOther
  | counterRange
  deriving DecidableEq, Repr

/-- What is done in two steps goes through when both go through. -/
theorem bind_eq_ok_iff {α β : Type} {x : Except Breach α} {f : α → Except Breach β} {b : β} :
    (x >>= f) = .ok b ↔ ∃ a, x = .ok a ∧ f a = .ok b := by
  cases x <;> simp [bind, Except.bind]

theorem pure_eq_ok_iff {α : Type} {a b : α} : (pure a : Except Breach α) = .ok b ↔ a = b :=
  ⟨fun h => by cases h; rfl, fun h => by rw [h]; rfl⟩

theorem ok_bind {α β : Type} (a : α) (f : α → Except Breach β) :
    ((.ok a : Except Breach α) >>= f) = f a := rfl

/-- A new value for a counter of lines or columns. -/
def counter? (n : Nat) : Except Breach Nat :=
  if n < 2 ^ 32 then .ok n else .error .counterRange

theorem counter?_bind_eq_ok_iff {α : Type} {n : Nat} {f : Nat → Except Breach α} {a : α} :
    (counter? n >>= f) = .ok a ↔ n < 2 ^ 32 ∧ f n = .ok a := by
  unfold counter?
  split
  · next hlt => exact ⟨fun h => ⟨hlt, h⟩, fun h => h.2⟩
  · next hge => exact ⟨nofun, fun h => absurd h.1 hge⟩

def digitValue? (c : Char) : Except Breach Nat :=
  if c.isDigit then .ok (digitValue c) else .error .valueOfOther

theorem digitValue?_eq_ok_iff {c : Char} {n : Nat} :
    digitValue? c = .ok n ↔ c.isDigit = true ∧ digitValue c = n := by
  unfold digitValue?
  split
  · next hdigit => simp [hdigit]
  · next hdigit => simp [hdigit]

namespace Position

def advance? (p : Position) : Except Breach Position := do
  let column ← counter? (p.column + 1)
  return { p with column }

def newline? (p : Position) : Except Breach Position := do
  let line ← counter? (p.line + 1)
  return { line, column := 1 }

/-- The column of the tab stop is computed in steps, and each of them has to stay in range. -/
def tab? (p : Position) : Except Breach Position :=
  if p.column = 0 then .error .counterRange
  else do
    let stops ← counter? ((p.column - 1) / tabWidth + 1)
    let columns ← counter? (stops * tabWidth)
    let column ← counter? (1 + columns)
    return { p with column }

def after? (p : Position) (c : Char) : Except Breach Position :=
  if c = '\n' then p.newline? else if c = '\t' then p.tab? else p.advance?

variable {p q : Position} {c : Char}

theorem advance?_eq_ok_iff : p.advance? = .ok q ↔ p.column + 1 < 2 ^ 32 ∧ p.advance = q := by
  rw [advance?, counter?_bind_eq_ok_iff, pure_eq_ok_iff]
  rfl

theorem newline?_eq_ok_iff : p.newline? = .ok q ↔ p.line + 1 < 2 ^ 32 ∧ p.newline = q := by
  rw [newline?, counter?_bind_eq_ok_iff, pure_eq_ok_iff]
  rfl

/-- The tab stop is the largest number on the way to it. -/
theorem tab?_eq_ok_iff :
    p.tab? = .ok q ↔ 1 ≤ p.column ∧ p.tab.column < 2 ^ 32 ∧ p.tab = q := by
  unfold tab?
  split
  · next hzero => simp [hzero]
  · next hne =>
    simp only [counter?_bind_eq_ok_iff, pure_eq_ok_iff]
    constructor
    · rintro ⟨-, -, hlt, rfl⟩
      exact ⟨Nat.pos_of_ne_zero hne, hlt, rfl⟩
    · rintro ⟨-, hlt, rfl⟩
      refine ⟨?_, ?_, hlt, rfl⟩ <;> simp only [tab, tabWidth] at hlt ⊢ <;> omega

theorem eq_after_of_after? (h : p.after? c = .ok q) : p.after c = q := by
  unfold after? at h
  unfold after
  split at h
  · next hc => rw [if_pos hc, (newline?_eq_ok_iff.1 h).2]
  · next hc =>
    rw [if_neg hc]
    split at h
    · next ht => rw [if_pos ht, (tab?_eq_ok_iff.1 h).2.2]
    · next ht => rw [if_neg ht, (advance?_eq_ok_iff.1 h).2]

/-- There is room for one more character after `p`. -/
structure HasRoom (p : Position) : Prop where
  pos : 1 ≤ p.column
  column : p.column + tabWidth < 2 ^ 32
  line : p.line + 1 < 2 ^ 32

theorem HasRoom.advance? (h : p.HasRoom) : p.advance? = .ok p.advance := by
  have hcolumn := h.column
  simp only [tabWidth] at hcolumn
  exact advance?_eq_ok_iff.2 ⟨by omega, rfl⟩

theorem HasRoom.after? (h : p.HasRoom) (c : Char) : p.after? c = .ok (p.after c) := by
  unfold Position.after? Position.after
  split
  · exact newline?_eq_ok_iff.2 ⟨h.line, rfl⟩
  · split
    · have hpos := h.pos
      have hcolumn := h.column
      refine tab?_eq_ok_iff.2 ⟨hpos, ?_, rfl⟩
      simp only [tab, tabWidth] at hcolumn ⊢
      omega
    · exact h.advance?

/-- A character takes at most one line or four columns. -/
theorem along_bounds (items : List (Except ReadError Char)) :
    1 ≤ (along {} items).column ∧ (along {} items).column ≤ tabWidth * items.length + 1 ∧
      (along {} items).line ≤ items.length + 1 := by
  induction items using List.reverseRecOn with
  | nil => exact ⟨Nat.le_refl 1, Nat.le_refl 1, Nat.le_refl 1⟩
  | append_singleton items item ih =>
    obtain ⟨hpos, hcolumn, hline⟩ := ih
    rw [along_append, along_cons, along_nil, List.length_append, List.length_singleton]
    simp only [tabWidth] at hcolumn ⊢
    cases item with
    | error e => exact ⟨hpos, by simp only [past]; omega, by simp only [past]; omega⟩
    | ok c =>
      simp only [past, Position.after]
      split
      · simp only [newline]
        omega
      · split
        · simp only [tab, tabWidth]
          omega
        · simp only [advance]
          omega

theorem hasRoom_along {items : List (Except ReadError Char)} (h : items.length < 2 ^ 29) :
    (along {} items).HasRoom := by
  obtain ⟨hpos, hcolumn, hline⟩ := along_bounds items
  exact ⟨hpos, by simp only [tabWidth] at hcolumn ⊢; omega, by omega⟩

end Position

open Input (Answer)

/-- A line that cannot be read leaves the cursor where it is. -/
theorem Input.refill_failed {input rest : Input} {e : ReadError}
    (h : input.refill = (.error e, rest)) :
    rest.cursor = input.cursor ∧ rest.line = input.line := by
  unfold refill at h
  split at h
  · cases h
  · split at h
    · cases h
    · cases h
      exact ⟨rfl, rfl⟩
    · cases h

/-- An input with the character that the last call of `next` delivered, until it is put back. -/
structure Watched where
  input : Input
  last : Option Char := none

namespace Watched

/-- Deliver the character under the cursor, which has to be there. -/
def take? (input : Input) : Except Breach (Answer × Watched) :=
  match input.line[input.cursor]? with
  | none => .error .pastLineEnd
  | some c => do
    let position ← input.position.after? c
    return (.ok (some c),
      { input := { input with cursor := input.cursor + 1, previous := input.position, position }
        last := some c })

/-- The next character. When all lines are used up nothing is taken; otherwise there has to be a
character, also behind a line that was just begun. -/
def next? (w : Watched) : Except Breach (Answer × Watched) :=
  if w.input.line.size < w.input.cursor then .error .pastLineEnd
  else
    match w.input.held with
    | some c => do
      let position ← w.input.previous.after? c
      return (.ok (some c), { input := { w.input with held := none, position }, last := some c })
    | none =>
      if w.input.cursor = w.input.line.size ∧ w.input.unread.isEmpty then
        .ok (.ok none, { input := w.input })
      else
        match w.input.refill with
        | (.error e, input) => .ok (.error e, { input })
        | (.ok (), input) => take? input

def putback? (w : Watched) (c : Char) : Except Breach Watched :=
  if w.input.held.isSome then .error .putbackTwice
  else if w.last = some c then .ok { input := w.input.putback c }
  else .error .putbackOther

theorem take?_ok {input : Input} {rest : Watched} {answer : Answer}
    (h : take? input = .ok (answer, rest)) :
    ∃ c, answer = .ok (some c) ∧ input.take = (some c, rest.input) ∧ rest.last = some c ∧
      rest.input.cursor ≤ rest.input.line.size := by
  unfold take? at h
  cases hget : input.line[input.cursor]? with
  | none =>
    rw [hget] at h
    cases h
  | some c =>
    simp only [hget, bind_eq_ok_iff, pure_eq_ok_iff] at h
    obtain ⟨position, hposition, hpair⟩ := h
    cases Position.eq_after_of_after? hposition
    cases hpair
    refine ⟨c, rfl, ?_, rfl, (Array.getElem?_eq_some_iff.1 hget).1⟩
    simp only [Input.take, hget]

/-- A call that goes through gives what the plain call gives, remembers what was delivered and
leaves the cursor within its line. -/
theorem next?_ok {w rest : Watched} {answer : Answer} (h : w.next? = .ok (answer, rest)) :
    w.input.next = (answer, rest.input) ∧ rest.last = answer.toOption.join ∧
      rest.input.cursor ≤ rest.input.line.size := by
  unfold next? at h
  split at h
  · cases h
  · next hcursor =>
    have hle := Nat.le_of_not_lt hcursor
    cases hheld : w.input.held with
    | some c =>
      simp only [hheld, bind_eq_ok_iff, pure_eq_ok_iff] at h
      obtain ⟨position, hposition, hpair⟩ := h
      cases Position.eq_after_of_after? hposition
      cases hpair
      exact ⟨by simp only [Input.next, hheld], rfl, hle⟩
    | none =>
      simp only [hheld] at h
      split at h
      · next hend =>
        cases h
        refine ⟨?_, rfl, hle⟩
        simp [Input.next, hheld, Input.refill, Input.take, List.isEmpty_iff.1 hend.2, hend.1]
      · split at h
        · next e input hrefill =>
          cases h
          obtain ⟨hcursor', hline⟩ := Input.refill_failed hrefill
          refine ⟨by simp only [Input.next, hheld, hrefill], rfl, ?_⟩
          rw [hcursor', hline]
          exact hle
        · next input hrefill =>
          obtain ⟨c, rfl, htake, hlast, hwithin⟩ := take?_ok h
          exact ⟨by simp only [Input.next, hheld, hrefill, htake], hlast, hwithin⟩

/-- The first character that is not blank. -/
def skipBlanks? (w : Watched) : Except Breach (Answer × Watched) :=
  match _h : w.next? with
  | .error breach => .error breach
  | .ok (.ok (some c), rest) => if isBlank c then rest.skipBlanks? else .ok (.ok (some c), rest)
  | .ok (.ok none, rest) => .ok (.ok none, rest)
  | .ok (.error e, rest) => .ok (.error e, rest)
termination_by w.input.remaining
decreasing_by exact Input.next_remaining_lt (next?_ok _h).1

/-- The value of a literal whose digits so far have the value `value`. -/
def literal? (value : Nat) (w : Watched) : Except Breach (Except LexError Nat × Watched) :=
  match _h : w.next? with
  | .error breach => .error breach
  | .ok (.ok (some c), rest) =>
    if c.isDigit then
      match digitValue? c with
      | .error breach => .error breach
      | .ok digit =>
        let larger := value * 10 + digit
        if larger ≤ maxLiteral then rest.literal? larger else .ok (.error .overflow, rest)
    else
      match rest.putback? c with
      | .error breach => .error breach
      | .ok rest => .ok (.ok value, rest)
  | .ok (.ok none, rest) => .ok (.ok value, rest)
  | .ok (.error e, rest) => .ok (.error (.input e), rest)
termination_by w.input.remaining
decreasing_by exact Input.next_remaining_lt (next?_ok _h).1

/-- The column of the next character. -/
def here? (w : Watched) : Except Breach Span := do
  let stop ← w.input.position.advance?
  return ⟨w.input.position, stop⟩

/-- The place of a token. It is logged, and its text asks for the column behind its start. -/
def logged? (w : Watched) (start : Position) : Except Breach Span := do
  let _ ← start.advance?
  return w.input.spanFrom start

theorem logged?_eq (w : Watched) {start : Position} (hstart : start.HasRoom) :
    w.logged? start = .ok (w.input.spanFrom start) := by
  rw [logged?, hstart.advance?]
  rfl

/-- The next token, or the error in its place. -/
def scan? (w : Watched) : Except Breach (ScanResult × Watched) := do
  let (first, rest) ← w.skipBlanks?
  match first with
  | .error e => return (.error ⟨.input e, ← rest.here?⟩, rest)
  | .ok none => return (.ok ⟨.eof, ← rest.here?⟩, rest)
  | .ok (some c) =>
    let start := rest.input.previous
    match Token.ofSign? c with
    | some token => return (.ok ⟨token, ← rest.logged? start⟩, rest)
    | none =>
      if c.isDigit then
        let (value, rest) ← rest.literal? (← digitValue? c)
        match value with
        | .ok value => return (.ok ⟨.literal (Int64.ofNat value), ← rest.logged? start⟩, rest)
        | .error e => return (.error ⟨e, rest.input.spanFrom start⟩, rest)
      else return (.error ⟨.unrecognized c, rest.input.spanFrom start⟩, rest)

/-- The results of `n` scans, which go on after errors and after the end. -/
def scans? : Nat → Watched → Except Breach (List ScanResult × Watched)
  | 0, w => .ok ([], w)
  | n + 1, w => do
    let (result, rest) ← w.scan?
    let (later, rest) ← scans? n rest
    return (result :: later, rest)

/-- What every call relies on: there are few items, the cursor is within its line, and the input
stands at a place of its items, just behind the last delivered character. -/
structure Safe (lines : List (Except ReadError String)) (w : Watched) : Prop where
  few : (lines.flatMap lineItems).length < 2 ^ 29
  cursor : w.input.cursor ≤ w.input.line.size
  place : ∃ p, w.input.At lines p ∧
    ∀ c ∈ w.last, w.input.held = none ∧ p.Gave (lines.flatMap lineItems) c

/-- A watched call goes through with the outcome of the plain call, and what it leaves is safe. -/
def Passes {α : Type} (lines : List (Except ReadError String))
    (watched : Except Breach (α × Watched)) (plain : α × Input) : Prop :=
  ∃ rest, watched = .ok (plain.1, rest) ∧ rest.input = plain.2 ∧ Safe lines rest

namespace Safe

variable {lines : List (Except ReadError String)} {w : Watched}

theorem sound (h : Safe lines w) : w.input.Sound := by
  obtain ⟨p, hat, -⟩ := h.place
  exact hat.sound

/-- Both positions are reached over fewer items than there are. -/
theorem hasRoom (h : Safe lines w) : w.input.position.HasRoom ∧ w.input.previous.HasRoom := by
  obtain ⟨p, hat, -⟩ := h.place
  have htake (i : Nat) : (Position.along {} ((lines.flatMap lineItems).take i)).HasRoom :=
    Position.hasRoom_along (Nat.lt_of_le_of_lt (List.length_take_le' _ _) h.few)
  rw [hat.position, hat.previous, Place.position, Place.previous]
  refine ⟨htake _, ?_⟩
  split
  · exact htake 0
  · exact htake _

/-- Behind a refill that does not fail there is a character, unless all lines are used up. -/
theorem refill (h : Safe lines w) {rest : Input} (hrefill : w.input.refill = (.ok (), rest))
    (hmore : ¬ (w.input.cursor = w.input.line.size ∧ w.input.unread.isEmpty)) :
    ∃ c, rest.line[rest.cursor]? = some c := by
  unfold Input.refill at hrefill
  split at hrefill
  · next hcursor =>
    cases hrefill
    exact ⟨_, Array.getElem?_eq_getElem hcursor⟩
  · next hcursor =>
    have hused : w.input.cursor = w.input.line.size :=
      Nat.le_antisymm h.cursor (Nat.le_of_not_lt hcursor)
    split at hrefill
    · next hunread => exact absurd ⟨hused, by rw [hunread]; rfl⟩ hmore
    · cases hrefill
    · next text unread hunread =>
      cases hrefill
      -- A line that was just begun has a first character, since no line is empty.
      have hne : text.toList ≠ [] := by
        simpa [lineItems] using h.sound (.ok text) (by simp [hunread])
      exact ⟨_, Array.getElem?_eq_getElem (by simpa using List.length_pos_of_ne_nil hne)⟩

/-- The next character can always be asked for. -/
theorem next_ne_error (h : Safe lines w) (breach : Breach) : w.next? ≠ .error breach := by
  unfold next?
  rw [if_neg (Nat.not_lt.2 h.cursor)]
  split
  · next c hheld =>
    rw [h.hasRoom.2.after? c]
    exact nofun
  · split
    · exact nofun
    · next hmore =>
      split
      · exact nofun
      · next rest hrefill =>
        obtain ⟨c, hget⟩ := h.refill hrefill hmore
        have hroom : rest.position.HasRoom := by
          have hposition := (Input.refill_position w.input).1
          rw [hrefill] at hposition
          exact hposition ▸ h.hasRoom.1
        simp only [take?, hget, hroom.after? c]
        exact nofun

/-- What `next` leaves is safe again. -/
theorem next (h : Safe lines w) {answer : Answer} {rest : Watched}
    (hnext : w.next? = .ok (answer, rest)) :
    w.input.next = (answer, rest.input) ∧ rest.last = answer.toOption.join ∧ Safe lines rest := by
  obtain ⟨hplain, hlast, hcursor⟩ := next?_ok hnext
  obtain ⟨p, hat, -⟩ := h.place
  obtain ⟨-, hat', hgave⟩ := hat.next
  have hheld := Input.next_held w.input
  rw [hplain] at hat' hgave hheld
  refine ⟨hplain, hlast, h.few, hcursor, _, hat', ?_⟩
  intro c hc
  rw [hlast] at hc
  cases answer with
  | error e => simp [Except.toOption] at hc
  | ok delivered =>
    have hdelivered : delivered = some c := by simpa [Except.toOption] using hc
    exact ⟨hheld, hgave c (by rw [hdelivered])⟩

/-- The character that was just delivered can be put back. -/
theorem putback (h : Safe lines w) {c : Char} (hlast : w.last = some c) :
    w.putback? c = .ok { input := w.input.putback c } ∧
      Safe lines { input := w.input.putback c } := by
  obtain ⟨p, hat, hbefore⟩ := h.place
  obtain ⟨hheld, hgave⟩ := hbefore c hlast
  have hnone : ∀ d ∈ (none : Option Char), (w.input.putback c).held = none ∧
      p.putback.Gave (lines.flatMap lineItems) d := by simp
  refine ⟨?_, h.few, h.cursor, p.putback, (hat.putback hheld hgave).2, hnone⟩
  rw [putback?, hheld, if_neg (by simp), if_pos hlast]

theorem skipBlanks (h : Safe lines w) : Passes lines w.skipBlanks? w.input.skipBlanks := by
  fun_induction Watched.skipBlanks? w with
  | case1 w breach hnext => exact absurd hnext (h.next_ne_error breach)
  | case2 w c rest hnext hblank ih =>
    obtain ⟨hplain, -, hsafe⟩ := h.next hnext
    rw [Input.skipBlanks, hplain]
    simp only [hblank, if_true]
    exact ih hsafe
  | case3 w c rest hnext hblank =>
    obtain ⟨hplain, -, hsafe⟩ := h.next hnext
    rw [Input.skipBlanks, hplain]
    simp only [hblank]
    exact ⟨rest, rfl, rfl, hsafe⟩
  | case4 w rest hnext | case5 w e rest hnext =>
    obtain ⟨hplain, -, hsafe⟩ := h.next hnext
    rw [Input.skipBlanks, hplain]
    exact ⟨rest, rfl, rfl, hsafe⟩

theorem literal (h : Safe lines w) (value : Nat) :
    Passes lines (w.literal? value) (w.input.literal value) := by
  fun_induction Watched.literal? value w with
  | case1 value w breach hnext => exact absurd hnext (h.next_ne_error breach)
  | case2 value w c rest hnext hdigit breach hbreach =>
    rw [digitValue?_eq_ok_iff.2 ⟨hdigit, rfl⟩] at hbreach
    cases hbreach
  | case3 value w c rest hnext hdigit digit hvalue larger hle ih =>
    obtain ⟨hplain, -, hsafe⟩ := h.next hnext
    obtain ⟨-, rfl⟩ := digitValue?_eq_ok_iff.1 hvalue
    rw [Input.literal, hplain]
    simp only [hdigit, if_true]
    rw [if_pos hle]
    exact ih hsafe
  | case4 value w c rest hnext hdigit digit hvalue larger hgt =>
    -- The literal is left half read: the digit that made it too large is not put back.
    obtain ⟨hplain, -, hsafe⟩ := h.next hnext
    obtain ⟨-, rfl⟩ := digitValue?_eq_ok_iff.1 hvalue
    rw [Input.literal, hplain]
    simp only [hdigit, if_true]
    rw [if_neg hgt]
    exact ⟨rest, rfl, rfl, hsafe⟩
  | case5 value w c rest hnext hdigit breach hbreach =>
    obtain ⟨hplain, hlast, hsafe⟩ := h.next hnext
    rw [(hsafe.putback hlast).1] at hbreach
    cases hbreach
  | case6 value w c rest hnext hdigit held hheld =>
    obtain ⟨hplain, hlast, hsafe⟩ := h.next hnext
    obtain ⟨hputback, hsafe'⟩ := hsafe.putback hlast
    rw [hputback] at hheld
    cases hheld
    rw [Input.literal, hplain]
    simp only [hdigit]
    exact ⟨_, rfl, rfl, hsafe'⟩
  | case7 value w rest hnext | case8 value w e rest hnext =>
    obtain ⟨hplain, -, hsafe⟩ := h.next hnext
    rw [Input.literal, hplain]
    exact ⟨rest, rfl, rfl, hsafe⟩

theorem here (h : Safe lines w) : w.here? = .ok w.input.here := by
  rw [here?, h.hasRoom.1.advance?]
  rfl

theorem scan (h : Safe lines w) : Passes lines w.scan? w.input.scan := by
  obtain ⟨rest, hskip, hinput, hsafe⟩ := h.skipBlanks
  have hroom := hsafe.hasRoom.2
  rcases hplain : w.input.skipBlanks with ⟨first, input⟩
  rw [hplain] at hskip hinput
  cases hinput
  rw [Input.scan, hplain, scan?, hskip, ok_bind]
  rcases first with e | _ | c
  · simp only [hsafe.here, ok_bind]
    exact ⟨rest, rfl, rfl, hsafe⟩
  · simp only [hsafe.here, ok_bind]
    exact ⟨rest, rfl, rfl, hsafe⟩
  · cases hsign : Token.ofSign? c with
    | some token =>
      simp only [hsign, logged?_eq _ hroom, ok_bind]
      exact ⟨rest, rfl, rfl, hsafe⟩
    | none =>
      by_cases hdigit : c.isDigit = true
      · obtain ⟨final, hliteral, hfinal, hsafe'⟩ := hsafe.literal (digitValue c)
        rcases hvalue : rest.input.literal (digitValue c) with ⟨value, input⟩
        rw [hvalue] at hliteral hfinal
        cases hfinal
        simp only [hsign, hdigit, if_true, hvalue, digitValue?_eq_ok_iff.2 ⟨hdigit, rfl⟩, ok_bind,
          hliteral]
        cases value with
        | ok value =>
          simp only [logged?_eq _ hroom, ok_bind]
          exact ⟨final, rfl, rfl, hsafe'⟩
        | error e => exact ⟨final, rfl, rfl, hsafe'⟩
      · simp only [hsign, hdigit]
        exact ⟨rest, rfl, rfl, hsafe⟩

/-- No number of scans leads to a breach. -/
theorem scans (h : Safe lines w) (n : Nat) :
    Passes lines (w.scans? n) ((List.range n).map (results w.input), after w.input n) := by
  induction n generalizing w with
  | zero => exact ⟨w, rfl, rfl, h⟩
  | succ n ih =>
    obtain ⟨mid, hscan, hmid, hsafe⟩ := h.scan
    obtain ⟨final, hscans, hfinal, hsafe'⟩ := ih hsafe
    refine ⟨final, ?_, ?_, hsafe'⟩
    · have hresults : (List.range n).map (results mid.input) =
          (List.range n).map (results w.input ∘ Nat.succ) :=
        List.map_congr_left fun k _ => by rw [hmid]; exact (results_succ w.input k).symm
      simp only [scans?, hscan, hscans, ok_bind]
      rw [List.range_succ_eq_map, List.map_cons, List.map_map, ← hresults]
      rfl
    · rw [hfinal, hmid]
      exact (after_succ w.input n).symm

end Safe

end Watched

theorem length_le_length_encode (text : List Char) : text.length ≤ (encode text).length := by
  induction text with
  | nil => exact Nat.le_refl 0
  | cons c text ih =>
    have hpos := List.length_pos_of_ne_nil (String.utf8EncodeChar_ne_nil (c := c))
    rw [encode_cons, List.length_append, List.length_cons]
    omega

/-- A line delivers no more items than it has bytes. -/
theorem length_lineItems_le {line : List UInt8} (hne : line ≠ []) :
    (lineItems (decodeLine line)).length ≤ line.length := by
  cases hdecode : decodeLine line with
  | error e => exact List.length_pos_of_ne_nil hne
  | ok text =>
    rw [lineItems, List.length_map, decodeLine_eq_ok_iff.1 hdecode]
    exact length_le_length_encode text.toList

theorem length_items_le (bytes : List UInt8) :
    (((byteLines bytes).map decodeLine).flatMap lineItems).length ≤ bytes.length := by
  conv => rhs; rw [← byteLines_flatten bytes]
  have hne := nil_not_mem_byteLines bytes
  generalize byteLines bytes = lines at hne ⊢
  induction lines with
  | nil => exact Nat.le_refl 0
  | cons line lines ih =>
    have hline : line ≠ [] := fun h => hne (by simp [h])
    have hfirst := length_lineItems_le hline
    have hlater := ih fun h => hne (List.mem_cons_of_mem _ h)
    rw [List.map_cons, List.flatMap_cons, List.flatten_cons, List.length_append, List.length_append]
    omega

namespace Watched

theorem safe_ofBytes (name : String) {bytes : ByteArray} (hsize : bytes.size < 2 ^ 29) :
    Safe ((byteLines bytes.data.toList).map decodeLine) { input := Input.ofBytes name bytes } where
  few := Nat.lt_of_le_of_lt (length_items_le bytes.data.toList) hsize
  cursor := Nat.le_refl 0
  place := ⟨{}, Input.At.ofBytes name bytes, by simp⟩

/-- Fewer than `2 ^ 29` bytes, whether they are text or not, are scanned any number of times without
a breach, on after errors and after the end. The results and the input that is left are those of
plain scanning, and the cursor is within its line. -/
theorem scans_without_breach (name : String) (bytes : ByteArray) (n : Nat)
    (hsize : bytes.size < 2 ^ 29) :
    ∃ final, scans? n { input := Input.ofBytes name bytes } =
        .ok ((List.range n).map (results (Input.ofBytes name bytes)), final) ∧
      final.input = after (Input.ofBytes name bytes) n ∧
      final.input.cursor ≤ final.input.line.size := by
  obtain ⟨final, hscans, hinput, hsafe⟩ := (safe_ofBytes name hsize).scans n
  exact ⟨final, hscans, hinput, hsafe.cursor⟩

/-- A line that is not text, then a tab, a literal, the sign that was put back behind it, and the
end. -/
theorem scans_without_breach_sign :
    let bytes : ByteArray := ⟨#[255, 10, 9, 53, 36]⟩
    bytes.size < 2 ^ 29 ∧
      ∃ final, scans? 4 { input := Input.ofBytes "sign" bytes } =
        .ok ([.error ⟨.input .notText, ⟨⟨1, 1⟩, ⟨1, 2⟩⟩⟩, .ok ⟨.literal 5, ⟨⟨1, 5⟩, ⟨1, 6⟩⟩⟩,
          .error ⟨.unrecognized '$', ⟨⟨1, 6⟩, ⟨1, 7⟩⟩⟩, .ok ⟨.eof, ⟨⟨1, 7⟩, ⟨1, 8⟩⟩⟩], final) := by
  intro bytes
  have hsize : bytes.size < 2 ^ 29 := by decide
  obtain ⟨final, hscans, -, -⟩ := scans_without_breach "sign" bytes 4 hsize
  have hresults : results (Input.ofBytes "sign" bytes) = fun k =>
      [.error ⟨.input .notText, ⟨⟨1, 1⟩, ⟨1, 2⟩⟩⟩, .ok ⟨.literal 5, ⟨⟨1, 5⟩, ⟨1, 6⟩⟩⟩,
        .error ⟨.unrecognized '$', ⟨⟨1, 6⟩, ⟨1, 7⟩⟩⟩].getD k (.ok ⟨.eof, ⟨⟨1, 7⟩, ⟨1, 8⟩⟩⟩) := by
    funext k
    have hlines : (byteLines [255, 10, 9, 53, 36]).map decodeLine =
        [.error .notText, .ok "\t5$"] := by decide +kernel
    have hposition : (Input.ofBytes "sign" bytes).position = {} := rfl
    have hreading := Input.ofBytes_reading "sign" bytes
    rw [hreading.results k, hreading.items, hlines, hposition]
    simp [textResults, lineResults, lineItems, blankChars, firstLexeme, operatorSigns,
      List.lookup_cons, locate, Nat.ofDigitChars_cons, Position.past, Position.after,
      Position.tab, Position.tabWidth, Position.advance, Span.single]
  rw [hresults] at hscans
  exact ⟨hsize, final, hscans⟩

end Watched

end ArithCompiler
