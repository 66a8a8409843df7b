import ArithCompiler.Proofs.Source.Cursor

/-! # What one call of `next` does

The first of the items still to be delivered decides the answer and where the input stands then: a
character moves the position, an error leaves it where it is, and at the end nothing changes. A
character that was put back is delivered as if it had never been read.
-/

namespace ArithCompiler

namespace Position

/-- The position after an item: a character moves it, an error does not. -/
def past (p : Position) : Except ReadError Char → Position
  | .ok c => p.after c
  | .error _ => p

/-- The position after stepping over items. -/
def along (p : Position) (items : List (Except ReadError Char)) : Position := items.foldl past p

@[simp] theorem along_nil (p : Position) : p.along [] = p := rfl

@[simp] theorem along_cons (p : Position) (item : Except ReadError Char)
    (items : List (Except ReadError Char)) : p.along (item :: items) = (p.past item).along items := rfl

theorem along_append (p : Position) (first later : List (Except ReadError Char)) :
    p.along (first ++ later) = (p.along first).along later := List.foldl_append

theorem along_take_succ (p : Position) {items : List (Except ReadError Char)} {i : Nat}
    {item : Except ReadError Char} (h : items[i]? = some item) :
    p.along (items.take (i + 1)) = (p.along (items.take i)).past item := by
  rw [List.take_add_one, h, along_append]
  rfl

end Position

namespace Input

theorem refill_position (input : Input) :
    input.refill.2.position = input.position ∧ input.refill.2.previous = input.previous := by
  unfold refill
  split
  · exact ⟨rfl, rfl⟩
  · split <;> exact ⟨rfl, rfl⟩

theorem take_position {input rest : Input} {c : Char} (h : input.take = (some c, rest)) :
    rest.position = input.position.after c ∧ rest.previous = input.position := by
  unfold take at h
  split at h
  · cases h
  · cases h
    exact ⟨rfl, rfl⟩

/-- The lines to come are sound, and a held character stands where it stood when it was
delivered. -/
structure Steady (input : Input) : Prop where
  sound : input.Sound
  held : input.held ≠ none → input.position = input.previous

theorem ofBytes_steady (name : String) (bytes : ByteArray) : (ofBytes name bytes).Steady where
  sound := ofBytes_sound name bytes
  held h := absurd rfl h

theorem Steady.of_held {input : Input} (hs : input.Sound) (h : input.held = none) :
    input.Steady where
  sound := hs
  held hne := absurd h hne

/-- A delivered character moves the position, and stood where the position was. -/
theorem next_char {input : Input} {c : Char} {later : List (Except ReadError Char)}
    (hs : input.Steady) (hitems : input.items = .ok c :: later) :
    ∃ rest, input.next = (.ok (some c), rest) ∧ rest.items = later ∧
      rest.position = input.position.after c ∧ rest.previous = input.position ∧
      rest.held = none ∧ rest.Steady := by
  obtain ⟨rest, hnext, htail, hsound, hheld⟩ := next_eq hs.sound
  rw [hitems] at hnext htail
  have hmoves : rest.position = input.position.after c ∧ rest.previous = input.position := by
    unfold next at hnext
    split at hnext
    · next d hd =>
      have hsame := hs.held (by simp [hd])
      simp only [delivery_ok, Prod.mk.injEq, Except.ok.injEq, Option.some.injEq] at hnext
      rw [← hnext.2, ← hnext.1, hsame]
      exact ⟨rfl, rfl⟩
    · split at hnext
      · simp at hnext
      · next mid hrefill =>
        have hmid := refill_position input
        rw [hrefill] at hmid
        rcases htake : mid.take with ⟨d, rest'⟩
        simp only [htake, delivery_ok, Prod.mk.injEq, Except.ok.injEq] at hnext
        rw [← hmid.1, ← hnext.2]
        rw [hnext.1] at htake
        exact take_position htake
  exact ⟨rest, hnext, htail, hmoves.1, hmoves.2, hheld, .of_held hsound hheld⟩

/-- A line that cannot be read moves nothing. -/
theorem next_failure {input : Input} {e : ReadError} {later : List (Except ReadError Char)}
    (hs : input.Sound) (hitems : input.items = .error e :: later) :
    ∃ rest, input.next = (.error e, rest) ∧ rest.items = later ∧
      rest.position = input.position ∧ rest.previous = input.previous ∧ rest.held = none ∧
      rest.Steady := by
  obtain ⟨rest, hnext, htail, hsound, hheld⟩ := next_eq hs
  rw [hitems] at hnext htail
  have hstays : rest.position = input.position ∧ rest.previous = input.previous := by
    unfold next at hnext
    split at hnext
    · simp at hnext
    · split at hnext
      · next mid hrefill =>
        have hmid := refill_position input
        simp only [delivery_error, Prod.mk.injEq] at hnext
        rw [hrefill, hnext.2] at hmid
        exact hmid
      · simp at hnext
  exact ⟨rest, hnext, htail, hstays.1, hstays.2, hheld, .of_held hsound hheld⟩

/-- At the end nothing is held, and nothing changes any more. -/
theorem next_end {input : Input} (hs : input.Sound) (hitems : input.items = []) :
    input.next = (.ok none, input) ∧ input.held = none := by
  simp only [items, List.append_eq_nil_iff, List.map_eq_nil_iff, Option.toList_eq_nil_iff,
    List.flatMap_eq_nil_iff] at hitems
  obtain ⟨⟨hheld, hdrop⟩, hlines⟩ := hitems
  have hused : input.line.size ≤ input.cursor := by simpa using hdrop
  have hunread : input.unread = [] :=
    List.eq_nil_iff_forall_not_mem.2 fun line hline => hs line hline (hlines line hline)
  refine ⟨?_, hheld⟩
  simp [next, refill, take, hheld, hunread, Nat.not_lt.2 hused]

end Input

end ArithCompiler
