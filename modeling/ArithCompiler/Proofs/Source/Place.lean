import ArithCompiler.Proofs.Source.Steps
import Mathlib.Data.List.DropRight

/-! # The input as a place in a list

The items of all lines form one list, and reading them is moving an index along it: `next` delivers
the item at the index, `putback` moves the index back by one. Where the index stands decides the
position, the last delivered character decides the previous one, and the items that were reached
decide which lines can be quoted.
-/

namespace ArithCompiler

/-- The texts among the lines. -/
def validLines (lines : List (Except ReadError String)) : List String :=
  lines.filterMap Except.toOption

/-- A line as it can be quoted. -/
def quote (text : String) : String :=
  String.ofList (text.toList.rdropWhile fun c => c = '\n' || c = '\r')

/-- How many items the first `k` lines have. -/
def offset (lines : List (Except ReadError String)) (k : Nat) : Nat :=
  ((lines.take k).flatMap lineItems).length

theorem offset_add_length_drop (lines : List (Except ReadError String)) (k : Nat) :
    offset lines k + ((lines.drop k).flatMap lineItems).length =
      (lines.flatMap lineItems).length := by
  rw [offset, ← List.length_append, ← List.flatMap_append, List.take_append_drop]

theorem take_succ_of_drop {lines unread : List (Except ReadError String)}
    {line : Except ReadError String} {k : Nat} (h : lines.drop k = line :: unread) :
    lines.take (k + 1) = lines.take k ++ [line] ∧ lines.drop (k + 1) = unread := by
  have hget : lines[k]? = some line := by rw [← List.head?_drop, h, List.head?_cons]
  constructor
  · rw [List.take_add_one, hget, Option.toList_some]
  · rw [← List.tail_drop, h, List.tail_cons]

namespace Input

theorem take_source (input : Input) : input.take.2.source = input.source := by
  unfold take
  split <;> rfl

/-- A call of `next` either leaves the lines alone, because it delivers what is left of the lines
begun already, or begins a line when nothing is left of them. -/
theorem next_lines {input : Input} (hs : input.Sound) :
    (input.next.2.unread = input.unread ∧ input.next.2.source = input.source ∧
      (input.items ≠ [] → (input.unread.flatMap lineItems).length < input.items.length)) ∨
    ∃ line unread, input.unread = line :: unread ∧
      input.items = input.unread.flatMap lineItems ∧ input.next.2.unread = unread ∧
      input.next.2.source.lines.toList =
        input.source.lines.toList ++ (validLines [line]).map quote := by
  cases hheld : input.held with
  | some c =>
    refine .inl ⟨by simp [next, hheld], by simp [next, hheld], fun _ => ?_⟩
    simp only [items, hheld, Option.toList_some, List.length_append, List.length_map,
      List.length_singleton]
    omega
  | none =>
    by_cases hcursor : input.cursor < input.line.size
    · refine .inl ⟨?_, ?_, fun _ => ?_⟩
      · simp [next, hheld, refill, hcursor, take]
      · simp [next, hheld, refill, hcursor, take]
      · simp only [items, hheld, Option.toList_none, List.length_append, List.length_map,
          List.length_nil, List.length_drop, Array.length_toList]
        omega
    · have hitems := items_of_used input (Nat.le_of_not_lt hcursor) hheld
      cases hunread : input.unread with
      | nil =>
        rw [hunread] at hitems
        obtain ⟨hnext, -⟩ := next_end hs hitems
        exact .inl ⟨by rw [hnext, hunread], by rw [hnext], fun hne => absurd hitems hne⟩
      | cons line unread =>
        refine .inr ⟨line, unread, rfl, by rw [hitems, hunread], ?_, ?_⟩
        · cases line with
          | error e => simp [next, hheld, refill, hcursor, hunread]
          | ok text => simp [next, hheld, refill, hcursor, hunread, take_unread]
        · cases line with
          | error e => simp [next, hheld, refill, hcursor, hunread, validLines, Except.toOption]
          | ok text =>
            simp only [next, hheld, refill, hcursor, hunread, if_false, take_source]
            rw [Array.toList_push]
            rfl

/-- What a call of `next` answers: a character, nothing at the end, or an error. -/
abbrev Answer := Except ReadError (Option Char)

inductive Call where
  | next
  | putback (c : Char)
  deriving DecidableEq, Repr, Inhabited

end Input

open Input (Answer Call)

/-- A place in a list of items. -/
structure Place where
  /-- The index of the next item. -/
  index : Nat := 0
  /-- How many items have been delivered, each counted once. -/
  reached : Nat := 0
  /-- The index of the character that was delivered last. -/
  last : Option Nat := none
  deriving DecidableEq, Repr, Inhabited

namespace Place

variable (items : List (Except ReadError Char))

/-- The item at the index, and the place behind it. -/
def next (p : Place) : Answer × Place :=
  match items[p.index]? with
  | none => (.ok none, p)
  | some (.error e) =>
    (.error e, { p with index := p.index + 1, reached := max p.reached (p.index + 1) })
  | some (.ok c) =>
    (.ok (some c),
      { index := p.index + 1, reached := max p.reached (p.index + 1), last := some p.index })

def putback (p : Place) : Place := { p with index := p.index - 1 }

/-- The answers of all calls of `next`, and the place in the end. -/
def perform : List Call → Place → List Answer × Place
  | [], p => ([], p)
  | .next :: calls, p =>
    let (answers, final) := perform calls (p.next items).2
    ((p.next items).1 :: answers, final)
  | .putback _ :: calls, p => perform calls p.putback

/-- The position of the next item. -/
def position (p : Place) : Position := Position.along {} (items.take p.index)

/-- The position of the character that was delivered last, and the first position before that. -/
def previous (p : Place) : Position :=
  match p.last with
  | none => {}
  | some i => Position.along {} (items.take i)

/-- The item before the index is the character that was delivered last. -/
structure Gave (p : Place) (c : Char) : Prop where
  pos : 0 < p.index
  last : p.last = some (p.index - 1)
  item : items[p.index - 1]? = some (.ok c)

end Place

namespace Input

/-- The answers of all calls of `next`, and the input in the end. There is no answer when a
character is put back while another one is held. -/
def perform : List Call → Input → Option (List Answer × Input)
  | [], input => some ([], input)
  | .next :: calls, input =>
    match perform calls input.next.2 with
    | none => none
    | some (answers, final) => some (input.next.1 :: answers, final)
  | .putback c :: calls, input =>
    match input.putback? c with
    | none => none
    | some input => perform calls input

/-- Whether each `putback` directly follows a `next` that delivered its character; `before` is the
character that the call before delivered, if it did. -/
def Lawful : Option Char → List Call → Input → Prop
  | _, [], _ => True
  | _, .next :: calls, input => Lawful input.next.1.toOption.join calls input.next.2
  | before, .putback c :: calls, input => before = some c ∧ Lawful none calls (input.putback c)

instance decidableLawful : (before : Option Char) → (calls : List Call) → (input : Input) →
    Decidable (Lawful before calls input)
  | _, [], _ => isTrue trivial
  | _, .next :: calls, input => decidableLawful input.next.1.toOption.join calls input.next.2
  | before, .putback c :: calls, input =>
    have := decidableLawful none calls (input.putback c)
    inferInstanceAs (Decidable (before = some c ∧ Lawful none calls (input.putback c)))

/-- The lines begun are those of which one of the `reached` items is the first, and their texts can
be quoted. -/
def History (lines : List (Except ReadError String)) (input : Input) (reached : Nat) : Prop :=
  ∃ k, input.unread = lines.drop k ∧
    input.source.lines.toList = (validLines (lines.take k)).map quote ∧
    (∀ j < k, offset lines j < reached) ∧ reached ≤ offset lines k

/-- Delivering the item at `index` begins its line, if that was not begun before. -/
theorem History.next {lines : List (Except ReadError String)} {input : Input}
    {reached index : Nat} (h : History lines input reached) (hs : input.Sound)
    (hitems : input.items = (lines.flatMap lineItems).drop index)
    (hindex : index < (lines.flatMap lineItems).length) (hreached : reached ≤ index + 1) :
    History lines input.next.2 (index + 1) := by
  obtain ⟨k, hunread, hsource, hbegun, hrest⟩ := h
  have htotal := offset_add_length_drop lines k
  have hlength : input.items.length = (lines.flatMap lineItems).length - index := by
    rw [hitems, List.length_drop]
  rw [← hunread] at htotal
  rcases next_lines hs with ⟨hunread', hsource', hlt⟩ | ⟨line, unread, hline, hused, hunread', hlines⟩
  · refine ⟨k, hunread'.trans hunread, by rw [hsource', hsource], ?_, ?_⟩
    · intro j hj
      exact Nat.lt_of_lt_of_le (hbegun j hj) hreached
    · have hne : input.items ≠ [] := List.ne_nil_of_length_pos (by omega)
      have := hlt hne
      omega
  · have hk : offset lines k = index := by
      rw [hused] at hlength
      omega
    obtain ⟨htake, hdrop⟩ := take_succ_of_drop (hunread.symm.trans hline)
    have hpos : 0 < (lineItems line).length :=
      List.length_pos_of_ne_nil (hs line (by simp [hline]))
    refine ⟨k + 1, by rw [hunread', hdrop], ?_, ?_, ?_⟩
    · rw [hlines, hsource, htake, validLines, validLines, validLines, List.filterMap_append,
        List.map_append]
    · intro j hj
      rcases Nat.lt_succ_iff_lt_or_eq.1 hj with hj | rfl
      · exact Nat.lt_of_lt_of_le (hbegun j hj) hreached
      · omega
    · have hsucc : offset lines (k + 1) = offset lines k + (lineItems line).length := by
        rw [offset, htake, List.flatMap_append, List.length_append, List.flatMap_singleton, offset]
      omega

/-- The input stands at a place of the items of `lines`. -/
structure At (lines : List (Except ReadError String)) (input : Input) (p : Place) : Prop where
  sound : input.Sound
  inside : p.index ≤ (lines.flatMap lineItems).length
  items : input.items = (lines.flatMap lineItems).drop p.index
  position : input.position = p.position (lines.flatMap lineItems)
  previous : input.previous = p.previous (lines.flatMap lineItems)
  held : input.held ≠ none → p.last = some p.index
  reached : p.reached = if input.held = none then p.index else p.index + 1
  history : History lines input p.reached

variable {lines : List (Except ReadError String)} {input : Input} {p : Place}

theorem At.steady (h : At lines input p) : input.Steady where
  sound := h.sound
  held hheld := by rw [h.position, h.previous, Place.previous, h.held hheld, Place.position]

theorem At.reached_le (h : At lines input p) : p.reached ≤ p.index + 1 := by
  rw [h.reached]
  split <;> omega

/-- The input that is left when an item was delivered stands at the place behind it. -/
theorem At.step (h : At lines input p) {item : Except ReadError Char}
    (hget : (lines.flatMap lineItems)[p.index]? = some item) (last : Option Nat)
    (hsteady : input.next.2.Steady)
    (hitems : input.next.2.items = (lines.flatMap lineItems).drop (p.index + 1))
    (hposition : input.next.2.position = input.position.past item)
    (hprevious : input.next.2.previous = Place.previous (lines.flatMap lineItems) { last }) :
    At lines input.next.2
      { index := p.index + 1, reached := max p.reached (p.index + 1), last } := by
  have hlt := (List.getElem?_eq_some_iff.1 hget).1
  have hmax : max p.reached (p.index + 1) = p.index + 1 := Nat.max_eq_right h.reached_le
  exact
    { sound := hsteady.sound
      inside := hlt
      items := hitems
      position := by
        rw [hposition, h.position, Place.position, Place.position, Position.along_take_succ _ hget]
      previous := hprevious
      held := fun hne => absurd (next_held input) hne
      reached := by simp [next_held, hmax]
      history := by
        simpa only [hmax] using h.history.next h.sound h.items hlt h.reached_le }

/-- One call of `next` is one step along the list. -/
theorem At.next (h : At lines input p) :
    input.next.1 = (p.next (lines.flatMap lineItems)).1 ∧
      At lines input.next.2 (p.next (lines.flatMap lineItems)).2 ∧
      ∀ c, input.next.1 = .ok (some c) →
        (p.next (lines.flatMap lineItems)).2.Gave (lines.flatMap lineItems) c := by
  have hitems := h.items
  rw [Place.next]
  rcases hget : (lines.flatMap lineItems)[p.index]? with _ | item
  · have hend : input.items = [] := by
      rw [hitems, List.drop_eq_nil_iff]
      exact List.getElem?_eq_none_iff.1 hget
    rw [(next_end h.sound hend).1]
    exact ⟨rfl, h, fun c hc => by simp at hc⟩
  · have hlt := (List.getElem?_eq_some_iff.1 hget).1
    have hcons : input.items = item :: (lines.flatMap lineItems).drop (p.index + 1) := by
      rw [hitems, List.drop_eq_getElem_cons hlt, (List.getElem?_eq_some_iff.1 hget).2]
    have hstep := h.step hget
    cases item with
    | error e =>
      obtain ⟨rest, hnext, hlater, hposition, hprevious, -, hsteady⟩ := next_failure h.sound hcons
      rw [hnext] at hstep ⊢
      exact ⟨rfl, hstep p.last hsteady hlater hposition (hprevious.trans h.previous),
        fun c hc => by simp at hc⟩
    | ok c =>
      obtain ⟨rest, hnext, hlater, hposition, hprevious, -, hsteady⟩ := next_char h.steady hcons
      rw [hnext] at hstep ⊢
      refine ⟨rfl, hstep (some p.index) hsteady hlater hposition (hprevious.trans h.position), ?_⟩
      intro d hd
      cases hd
      exact ⟨Nat.succ_pos _, rfl, hget⟩

/-- Putting back the character just delivered is one step back along the list. -/
theorem At.putback (h : At lines input p) {c : Char} (hheld : input.held = none)
    (hgave : p.Gave (lines.flatMap lineItems) c) :
    input.putback? c = some (input.putback c) ∧ At lines (input.putback c) p.putback := by
  obtain ⟨hpos, hlast, hitem⟩ := hgave
  have hlt := (List.getElem?_eq_some_iff.1 hitem).1
  refine ⟨by rw [putback?, hheld], ?_⟩
  exact
    { sound := h.sound
      inside := Nat.le_of_lt hlt
      items := by
        rw [putback_items c hheld, h.items, Place.putback, List.drop_eq_getElem_cons hlt,
          (List.getElem?_eq_some_iff.1 hitem).2, Nat.sub_add_cancel hpos]
      position := h.previous.trans (by rw [Place.previous, hlast]; rfl)
      previous := h.previous
      held := fun _ => hlast
      reached := by
        have hreached := h.reached
        rw [if_pos hheld] at hreached
        simp only [Input.putback, Place.putback, reduceCtorEq, if_false, hreached]
        omega
      history := h.history }

/-- All calls answer as on the list, and end at the place where the list is left. -/
theorem At.perform (calls : List Call) (before : Option Char) (h : At lines input p)
    (hbefore : ∀ c ∈ before, input.held = none ∧ p.Gave (lines.flatMap lineItems) c)
    (hlawful : Lawful before calls input) :
    ∃ final, input.perform calls =
        some ((Place.perform (lines.flatMap lineItems) calls p).1, final) ∧
      At lines final (Place.perform (lines.flatMap lineItems) calls p).2 := by
  induction calls generalizing input p before with
  | nil => exact ⟨input, rfl, h⟩
  | cons call calls ih =>
    cases call with
    | next =>
      obtain ⟨hanswer, hnext, hgave⟩ := h.next
      have hdelivered : ∀ c ∈ input.next.1.toOption.join, input.next.1 = .ok (some c) := by
        intro c hc
        cases hfirst : input.next.1 with
        | error e => simp [hfirst, Except.toOption] at hc
        | ok d => simpa [hfirst, Except.toOption] using hc
      obtain ⟨final, hperform, hfinal⟩ := ih _ hnext
        (fun c hc => ⟨next_held input, hgave c (hdelivered c hc)⟩) hlawful
      refine ⟨final, ?_, hfinal⟩
      rw [Input.perform, hperform, hanswer, Place.perform]
    | putback c =>
      obtain ⟨rfl, hrest⟩ := hlawful
      obtain ⟨hheld, hgave⟩ := hbefore c rfl
      obtain ⟨hputback, hat⟩ := h.putback hheld hgave
      obtain ⟨final, hperform, hfinal⟩ := ih none hat (by simp) hrest
      refine ⟨final, ?_, hfinal⟩
      rw [Input.perform, hputback]
      exact hperform

theorem At.ofBytes (name : String) (bytes : ByteArray) :
    At ((byteLines bytes.data.toList).map decodeLine) (ofBytes name bytes) {} where
  sound := ofBytes_sound name bytes
  inside := Nat.zero_le _
  items := rfl
  position := rfl
  previous := rfl
  held h := absurd rfl h
  reached := rfl
  history := ⟨0, rfl, rfl, fun _ h => absurd h (Nat.not_lt_zero _), Nat.le_refl _⟩

/-- A line can be quoted from when its first item has been reached. -/
theorem History.line {reached : Nat} (h : History lines input reached)
    {before after : List (Except ReadError String)} {text : String}
    (hlines : lines = before ++ .ok text :: after) :
    input.source.line ((validLines before).length + 1) =
      if (before.flatMap lineItems).length < reached then quote text else "" := by
  obtain ⟨k, -, hsource, hbegun, hrest⟩ := h
  have hoffset : offset lines before.length = (before.flatMap lineItems).length := by
    rw [offset, hlines, List.take_left]
  have hline : input.source.line ((validLines before).length + 1) =
      ((validLines (lines.take k)).map quote).getD (validLines before).length "" := by
    rw [← hsource]
    simp [Source.line]
  rw [hline]
  by_cases hk : before.length < k
  · obtain ⟨m, rfl⟩ : ∃ m, k = before.length + (m + 1) := ⟨k - before.length - 1, by omega⟩
    rw [if_pos (hoffset ▸ hbegun _ hk), hlines, List.take_length_add_append]
    simp [validLines, Except.toOption]
  · have htake : lines.take k <+: before := by
      rw [hlines, List.take_append_of_le_length (Nat.le_of_not_lt hk)]
      exact List.take_prefix k before
    obtain ⟨later, hlater⟩ := htake
    have hle : offset lines k ≤ (before.flatMap lineItems).length := by
      rw [← hlater, List.flatMap_append, List.length_append, offset]
      exact Nat.le_add_right _ _
    have hcount : (validLines (lines.take k)).length ≤ (validLines before).length := by
      rw [← hlater, validLines, validLines, List.filterMap_append, List.length_append]
      exact Nat.le_add_right _ _
    rw [if_neg (by omega)]
    simp [hcount]

/-- Nothing is quoted but the lines. -/
theorem History.line_eq_empty {reached n : Nat} (h : History lines input reached)
    (hn : n = 0 ∨ (validLines lines).length < n) : input.source.line n = "" := by
  obtain ⟨k, -, hsource, -, -⟩ := h
  rcases hn with rfl | hn
  · rfl
  · obtain ⟨m, rfl⟩ : ∃ m, n = m + 1 := ⟨n - 1, by omega⟩
    have hcount : (validLines (lines.take k)).length ≤ (validLines lines).length :=
      ((List.take_sublist k lines).filterMap _).length_le
    have hsize : input.source.lines.size ≤ m := by
      rw [← Array.length_toList, hsource, List.length_map]
      omega
    simp [Source.line, hsize]

/-- The character source refines a place in the list of its items. When each `putback` gives back
the character that the `next` just before it delivered, no `putback` is refused and the calls answer
as on the list; the end changes nothing. The position is the one after the characters before the
index, the previous one is that of the last delivered character, and a line can be quoted, without
its line end, as soon as its first character has been asked for. -/
theorem perform_ofBytes (name : String) (bytes : ByteArray) (calls : List Call)
    (hlawful : (ofBytes name bytes).Lawful none calls) :
    let lines := (byteLines bytes.data.toList).map decodeLine
    let items := lines.flatMap lineItems
    let place := (Place.perform items calls {}).2
    ∃ final, (ofBytes name bytes).perform calls = some ((Place.perform items calls {}).1, final) ∧
      (final.next.1 = .ok none → final.next.2 = final) ∧
      final.position = Position.along {} (items.take place.index) ∧
      (∀ i, place.last = some i → final.previous = Position.along {} (items.take i)) ∧
      (∀ before text after, lines = before ++ .ok text :: after →
        final.source.line ((validLines before).length + 1) =
          if (before.flatMap lineItems).length < place.reached then quote text else "") ∧
      ∀ n, n = 0 ∨ (validLines lines).length < n → final.source.line n = "" := by
  intro lines items place
  obtain ⟨final, hperform, hat⟩ := (At.ofBytes name bytes).perform calls none (by simp) hlawful
  refine ⟨final, hperform, ?_, hat.position, ?_, fun _ _ _ => hat.history.line,
    fun _ => hat.history.line_eq_empty⟩
  · intro hend
    have hitems : final.items = [] :=
      delivery_eq_none ((next_spec hat.sound).1.symm.trans hend)
    rw [(next_end hat.sound hitems).1]
  · intro i hi
    rw [hat.previous, Place.previous, hi]

/-- A line end is read twice, a line that is no text is passed over, and the first character of the
line after it is put back: that line can then be quoted, without its line end. -/
theorem perform_ofBytes_reread :
    ∃ final, (ofBytes "reread" ⟨#[97, 10, 255, 10, 98, 13, 10]⟩).perform
        [.next, .next, .putback '\n', .next, .next, .next, .putback 'b'] =
          some ([.ok (some 'a'), .ok (some '\n'), .ok (some '\n'), .error .notText, .ok (some 'b')],
            final) ∧
      final.position = ⟨2, 1⟩ ∧ final.previous = ⟨2, 1⟩ ∧ final.source.line 2 = "b" := by
  obtain ⟨final, hperform, -, hposition, hprevious, hline, -⟩ :=
    perform_ofBytes "reread" ⟨#[97, 10, 255, 10, 98, 13, 10]⟩
      [.next, .next, .putback '\n', .next, .next, .next, .putback 'b'] (by decide +kernel)
  refine ⟨final, hperform.trans (congrArg (fun answers => some (answers, final)) ?_),
    hposition.trans ?_, (hprevious 3 ?_).trans ?_,
    (hline [.ok "a\n", .error .notText] "b\r\n" [] ?_).trans ?_⟩ <;> decide +kernel

end Input

end ArithCompiler
