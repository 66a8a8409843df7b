import ArithCompiler.Source.Span

/-! # Character input with one character of pushback

An input delivers the characters of a byte string one at a time. The bytes are cut after each line
feed; a line that is not well-formed text is delivered as one error in place of its characters. The
input knows the position of the next character and of the last one delivered, and keeps each line
it has begun, without its line end, for reports.
-/

namespace ArithCompiler

/-- Why a line could not be read. -/
inductive ReadError where
  | notText
  | isDirectory
  deriving DecidableEq, Repr, Inhabited

def ReadError.message : ReadError → String
  | notText => "stream did not contain valid UTF-8"
  | isDirectory => "Is a directory (os error 21)"

/-- Bytes cut after each line feed; the last piece may lack one, and no piece is empty. -/
def byteLines : List UInt8 → List (List UInt8)
  | [] => []
  | b :: bytes =>
    if b = 10 then [b] :: byteLines bytes
    else
      match byteLines bytes with
      | [] => [[b]]
      | line :: lines => (b :: line) :: lines

/-- The text of one line of bytes. -/
def decodeLine (bytes : List UInt8) : Except ReadError String :=
  match String.fromUTF8? ⟨bytes.toArray⟩ with
  | some text => .ok text
  | none => .error .notText

/-- A line as it is quoted: all carriage returns and line feeds at its end are dropped. -/
def dropLineEnd (line : List Char) : List Char :=
  (line.reverse.dropWhile fun c => c = '\n' || c = '\r').reverse

structure Input where
  /-- The lines not begun yet. -/
  unread : List (Except ReadError String)
  source : Source
  /-- The line being read, of which `cursor` characters have been delivered. -/
  line : Array Char := #[]
  cursor : Nat := 0
  /-- Where the next character stands. -/
  position : Position := {}
  /-- Where the last delivered character stood. -/
  previous : Position := {}
  /-- The character that was put back. -/
  held : Option Char := none

namespace Input

def ofLines (name : String) (lines : List (Except ReadError String)) : Input :=
  { unread := lines, source := { name := name } }

def ofBytes (name : String) (bytes : ByteArray) : Input :=
  ofLines name ((byteLines bytes.data.toList).map decodeLine)

/-- Begin the next line if the current one is used up. A line that cannot be read is passed over;
at the end of the lines nothing changes. -/
def refill (input : Input) : Except ReadError Unit × Input :=
  if input.cursor < input.line.size then (.ok (), input)
  else
    match input.unread with
    | [] => (.ok (), input)
    | .error e :: unread => (.error e, { input with unread })
    | .ok text :: unread =>
      let quoted := String.ofList (dropLineEnd text.toList)
      (.ok (),
        { input with
          unread
          line := text.toList.toArray
          cursor := 0
          source := { input.source with lines := input.source.lines.push quoted } })

/-- Deliver the character under the cursor, if there is one. -/
def take (input : Input) : Option Char × Input :=
  match input.line[input.cursor]? with
  | none => (none, input)
  | some c =>
    (some c,
      { input with
        cursor := input.cursor + 1
        previous := input.position
        position := input.position.after c })

/-- The next character: the one held back, or the next of the text, or none at its end. -/
def next (input : Input) : Except ReadError (Option Char) × Input :=
  match input.held with
  | some c => (.ok (some c), { input with held := none, position := input.previous.after c })
  | none =>
    match input.refill with
    | (.error e, input) => (.error e, input)
    | (.ok (), input) =>
      let (c, input) := input.take
      (.ok c, input)

/-- Hold `c` back as the next character, at the position of the last delivered one. -/
def putback (input : Input) (c : Char) : Input :=
  { input with held := some c, position := input.previous }

/-- Hold `c` back unless a character is held already. -/
def putback? (input : Input) (c : Char) : Option Input :=
  match input.held with
  | some _ => none
  | none => some (input.putback c)

/-- The column of the next character. -/
def here (input : Input) : Span := .single input.position

/-- From `start` up to the next character. -/
def spanFrom (input : Input) (start : Position) : Span := ⟨start, input.position⟩

/-- Deliveries and failures still to come from the lines not begun. -/
def pendingLines : List (Except ReadError String) → Nat
  | [] => 0
  | .error _ :: lines => 1 + pendingLines lines
  | .ok text :: lines => 1 + text.toList.length + pendingLines lines

/-- A bound on the deliveries still to come, which every delivered character lowers. -/
def remaining (input : Input) : Nat :=
  (if input.held.isSome then 1 else 0) + (input.line.size - input.cursor) +
    pendingLines input.unread

theorem refill_remaining_le (input : Input) : input.refill.2.remaining ≤ input.remaining := by
  unfold refill
  split
  · exact Nat.le_refl _
  · split <;> simp_all [remaining, pendingLines]
    omega

theorem refill_held (input : Input) : input.refill.2.held = input.held := by
  unfold refill
  split
  · rfl
  · split <;> rfl

theorem take_held (input : Input) : input.take.2.held = input.held := by
  unfold take
  split <;> rfl

theorem take_remaining_lt {input rest : Input} {c : Char} (h : input.take = (some c, rest)) :
    rest.remaining < input.remaining := by
  unfold take at h
  split at h
  · simp at h
  · next hc =>
    have hlt := (Array.getElem?_eq_some_iff.1 hc).1
    simp only [Prod.mk.injEq] at h
    rw [← h.2]
    simp only [remaining]
    omega

theorem take_remaining_le (input : Input) : input.take.2.remaining ≤ input.remaining := by
  cases h : input.take with
  | mk c rest =>
    cases c with
    | none =>
      unfold take at h
      split at h <;> simp_all
    | some c => exact Nat.le_of_lt (take_remaining_lt h)

/-- Every delivered character lowers `remaining`, so loops over an input end. -/
theorem next_remaining_lt {input rest : Input} {c : Char}
    (h : input.next = (.ok (some c), rest)) : rest.remaining < input.remaining := by
  unfold next at h
  split at h
  · next hheld =>
    simp only [Prod.mk.injEq] at h
    rw [← h.2]
    simp [remaining, hheld]
  · split at h
    · simp at h
    · next input' hrefill =>
      have hle := refill_remaining_le input
      rw [hrefill] at hle
      generalize ht : input'.take = t at h
      obtain ⟨c', rest'⟩ := t
      simp only [Prod.mk.injEq, Except.ok.injEq] at h
      obtain ⟨rfl, rfl⟩ := h
      exact Nat.lt_of_lt_of_le (take_remaining_lt ht) hle

theorem next_remaining_le (input : Input) : input.next.2.remaining ≤ input.remaining := by
  unfold next
  split
  · next hheld => simp [remaining, hheld]
  · have hle := refill_remaining_le input
    split
    · next hrefill => rwa [hrefill] at hle
    · next input' hrefill =>
      rw [hrefill] at hle
      exact Nat.le_trans (take_remaining_le input') hle

/-- No character is held after a call of `next`. -/
theorem next_held (input : Input) : input.next.2.held = none := by
  unfold next
  split
  · rfl
  · next hheld =>
    have hr := refill_held input
    rw [hheld] at hr
    split
    · next hrefill => rwa [hrefill] at hr
    · next input' hrefill =>
      rw [hrefill] at hr
      exact (take_held input').trans hr

theorem putback_remaining (input : Input) (c : Char) (h : input.held = none) :
    (input.putback c).remaining = input.remaining + 1 := by
  simp [putback, remaining, h]
  omega

end Input

end ArithCompiler
