import ArithCompiler.Source.Input

/-! # The input as a list of deliveries

An input delivers a list of items in order: the characters of each line, or one error in place of a
line that is not text. `next` takes the first item and `putback` puts one before the others. A byte
string delivers the characters of a text, and no error, exactly when it is the encoding of that
text.
-/

namespace ArithCompiler

/-- The bytes of a text. -/
def encode (text : List Char) : List UInt8 := text.flatMap String.utf8EncodeChar

@[simp] theorem encode_nil : encode [] = [] := rfl

@[simp] theorem encode_cons (c : Char) (text : List Char) :
    encode (c :: text) = String.utf8EncodeChar c ++ encode text := rfl

@[simp] theorem encode_append (first later : List Char) :
    encode (first ++ later) = encode first ++ encode later :=
  List.flatMap_append

theorem toUTF8_ofList (text : List Char) :
    (String.ofList text).toUTF8 = ⟨(encode text).toArray⟩ := by
  apply ByteArray.ext
  simp [encode, List.utf8Encode, String.toUTF8]

theorem fromUTF8?_eq_some_iff {bytes : ByteArray} {text : String} :
    String.fromUTF8? bytes = some text ↔ text.toUTF8 = bytes := by
  unfold String.fromUTF8?
  by_cases hvalid : bytes.IsValidUTF8
  · rw [dif_pos hvalid, Option.some.injEq]
    constructor
    · rintro rfl
      rfl
    · rintro rfl
      rfl
  · rw [dif_neg hvalid]
    constructor
    · simp
    · rintro rfl
      exact absurd text.isValidUTF8 hvalid

/-- A line is read as a text exactly when its bytes are those of the text. -/
theorem decodeLine_eq_ok_iff {bytes : List UInt8} {text : String} :
    decodeLine bytes = .ok text ↔ bytes = encode text.toList := by
  have htext : text.toUTF8 = ⟨(encode text.toList).toArray⟩ := by
    rw [← toUTF8_ofList, String.ofList_toList]
  have h : decodeLine bytes = .ok text ↔ String.fromUTF8? ⟨bytes.toArray⟩ = some text := by
    unfold decodeLine
    split <;> simp_all
  rw [h, fromUTF8?_eq_some_iff, htext]
  simp [eq_comm]

theorem decodeLine_encode (line : List Char) :
    decodeLine (encode line) = .ok (String.ofList line) := by
  rw [decodeLine_eq_ok_iff, String.toList_ofList]

/-- Only a line feed has the byte of a line feed. -/
theorem ne_lineFeed_of_mem_encodeChar {c : Char} {b : UInt8} (hc : c ≠ '\n')
    (hb : b ∈ String.utf8EncodeChar c) : b ≠ 10 := by
  have hvalue : c.val.toNat ≠ 10 := fun h => hc (Char.toNat_inj.1 h)
  rintro rfl
  simp only [String.utf8EncodeChar] at hb
  -- The bytes of a longer encoding are all at least 128.
  generalize c.val.toNat = value at hb hvalue
  split at hb
  · simp [← UInt8.toNat_inj] at hb
    omega
  split at hb
  · simp [← UInt8.toNat_inj] at hb
    omega
  split at hb
  · simp [← UInt8.toNat_inj] at hb
    omega
  · simp [← UInt8.toNat_inj] at hb
    omega

theorem byteLines_flatten (bytes : List UInt8) : (byteLines bytes).flatten = bytes := by
  fun_induction byteLines bytes <;> simp_all

theorem nil_not_mem_byteLines (bytes : List UInt8) : [] ∉ byteLines bytes := by
  fun_induction byteLines bytes <;> simp_all

/-- Bytes that are no line feed stand before the first line. -/
theorem byteLines_append {bytes : List UInt8} (rest : List UInt8) (hne : bytes ≠ [])
    (h : ∀ b ∈ bytes, b ≠ 10) :
    byteLines (bytes ++ rest) =
      (bytes ++ (byteLines rest).headD []) :: (byteLines rest).tail := by
  induction bytes with
  | nil => exact absurd rfl hne
  | cons b bytes ih =>
    have hb : b ≠ 10 := h b (by simp)
    cases bytes with
    | nil =>
      simp only [List.cons_append, List.nil_append, byteLines, hb, if_false]
      cases byteLines rest <;> simp
    | cons b' bytes =>
      have hrest := ih (by simp) fun x hx => h x (List.mem_cons_of_mem _ hx)
      rw [List.cons_append, byteLines, if_neg hb, hrest]
      rfl

/-- A text cut after each line feed. -/
def textLines : List Char → List (List Char)
  | [] => []
  | c :: text =>
    if c = '\n' then ['\n'] :: textLines text
    else (c :: (textLines text).headD []) :: (textLines text).tail

theorem textLines_flatten (text : List Char) : (textLines text).flatten = text := by
  induction text with
  | nil => rfl
  | cons c text ih =>
    rw [textLines]
    split
    · next hc => rw [List.flatten_cons, ih, hc, List.singleton_append]
    · conv => rhs; rw [← ih]
      cases textLines text <;> simp

/-- The bytes of a text are cut into the bytes of its lines. -/
theorem byteLines_encode (text : List Char) :
    byteLines (encode text) = (textLines text).map encode := by
  induction text with
  | nil => rfl
  | cons c text ih =>
    rw [textLines]
    split
    · next hc =>
      rw [hc, encode_cons, List.map_cons, ← ih]
      rfl
    · next hc =>
      rw [encode_cons, byteLines_append _ String.utf8EncodeChar_ne_nil
        fun b => ne_lineFeed_of_mem_encodeChar hc, ih]
      cases textLines text <;> simp

/-- Every line but the last ends with its only line feed. -/
theorem eq_append_of_mem_dropLast_byteLines {bytes line : List UInt8}
    (h : line ∈ (byteLines bytes).dropLast) : ∃ body, 10 ∉ body ∧ line = body ++ [10] := by
  fun_induction byteLines bytes generalizing line with
  | case1 => simp at h
  | case2 bytes ih =>
    cases hlines : byteLines bytes with
    | nil => simp [hlines] at h
    | cons first lines =>
      rw [hlines, List.dropLast_cons_cons, List.mem_cons] at h
      rcases h with rfl | h
      · exact ⟨[], by simp, rfl⟩
      · exact ih (by rwa [hlines])
  | case3 b bytes hb hnil ih => simp at h
  | case4 b bytes hb first lines hlines ih =>
    rw [hlines] at ih
    cases lines with
    | nil => simp at h
    | cons second lines =>
      rw [List.dropLast_cons_cons, List.mem_cons] at h
      rcases h with rfl | h
      · have hfirst : first ∈ (first :: second :: lines).dropLast := by simp
        obtain ⟨body, hbody, rfl⟩ := ih hfirst
        exact ⟨b :: body, by simp [hbody, Ne.symm hb], rfl⟩
      · exact ih (by simp [h])

/-- A line that ends with its only line feed is read as a text that does. -/
theorem eq_append_of_decodeLine {body : List UInt8} {text : String} (hbody : 10 ∉ body)
    (h : decodeLine (body ++ [10]) = .ok text) :
    ∃ chars, '\n' ∉ chars ∧ text.toList = chars ++ ['\n'] := by
  rw [decodeLine_eq_ok_iff] at h
  rcases List.eq_nil_or_concat text.toList with hnil | ⟨chars, c, hchars⟩
  · simp [hnil] at h
  · rw [List.concat_eq_append] at hchars
    rw [hchars, encode_append, encode_cons, encode_nil, List.append_nil] at h
    have hchar : String.utf8EncodeChar '\n' = [10] := rfl
    by_cases hc : c = '\n'
    · rw [hc, hchar, List.append_left_inj] at h
      refine ⟨chars, fun hmem => hbody ?_, by rw [hchars, hc]⟩
      rw [h]
      exact List.mem_flatMap.2 ⟨'\n', hmem, by simp [hchar]⟩
    · have hlast : (10 : UInt8) ∈ String.utf8EncodeChar c := by
        rcases List.eq_nil_or_concat (String.utf8EncodeChar c) with hnil | ⟨first, last, hlast⟩
        · exact absurd hnil String.utf8EncodeChar_ne_nil
        · rw [List.concat_eq_append] at hlast
          rw [hlast, ← List.append_assoc] at h
          have hten : 10 = last := by simpa using (List.append_inj' h rfl).2
          simp [hlast, hten]
      exact absurd rfl (ne_lineFeed_of_mem_encodeChar hc hlast)

/-- Every text among the lines but the last ends with its only line feed. -/
def Closed (lines : List (Except ReadError String)) : Prop :=
  ∀ text, .ok text ∈ lines.dropLast → ∃ chars, '\n' ∉ chars ∧ text.toList = chars ++ ['\n']

theorem closed_byteLines (bytes : List UInt8) : Closed ((byteLines bytes).map decodeLine) := by
  intro text htext
  rw [← List.map_dropLast, List.mem_map] at htext
  obtain ⟨line, hline, hdecode⟩ := htext
  obtain ⟨body, hbody, rfl⟩ := eq_append_of_mem_dropLast_byteLines hline
  exact eq_append_of_decodeLine hbody hdecode

theorem Closed.head {text : String} {lines : List (Except ReadError String)}
    (h : Closed (.ok text :: lines)) (hne : lines ≠ []) :
    ∃ chars, '\n' ∉ chars ∧ text.toList = chars ++ ['\n'] := by
  apply h
  rw [List.dropLast_cons_of_ne_nil hne]
  exact List.mem_cons_self

theorem Closed.tail {line : Except ReadError String} {lines : List (Except ReadError String)}
    (h : Closed (line :: lines)) : Closed lines := by
  cases lines with
  | nil => simp [Closed]
  | cons second lines =>
    intro text htext
    exact h text (by simp [htext])

/-- What a line delivers. -/
def lineItems : Except ReadError String → List (Except ReadError Char)
  | .ok text => text.toList.map .ok
  | .error e => [.error e]

@[simp] theorem lineItems_decodeLine_encode (line : List Char) :
    lineItems (decodeLine (encode line)) = line.map .ok := by
  rw [decodeLine_encode, lineItems, String.toList_ofList]

theorem flatten_eq_encode {lines : List (List UInt8)} {text : List Char}
    (h : (lines.map decodeLine).flatMap lineItems = text.map .ok) :
    lines.flatten = encode text := by
  induction lines generalizing text with
  | nil =>
    have htext : text = [] := by simpa using h.symm
    simp [htext]
  | cons line lines ih =>
    rw [List.map_cons, List.flatMap_cons] at h
    cases hline : decodeLine line with
    | error e => cases text <;> simp [hline, lineItems] at h
    | ok piece =>
      rw [hline, lineItems, eq_comm, List.map_eq_append_iff] at h
      rcases h with ⟨first, later, rfl, hfirst, hlater⟩
      have hpiece : first = piece.toList := by
        simpa [List.map_inj_right] using hfirst
      rw [List.flatten_cons, ih hlater.symm, encode_append, hpiece,
        decodeLine_eq_ok_iff.1 hline]

namespace Input

/-- What is still to be delivered. -/
def items (input : Input) : List (Except ReadError Char) :=
  (input.held.toList ++ input.line.toList.drop input.cursor).map .ok ++
    input.unread.flatMap lineItems

/-- No line still to come is empty, so that the end of a line is not taken for the end of all. -/
def Sound (input : Input) : Prop := ∀ line ∈ input.unread, lineItems line ≠ []

/-- The answer of `next` when `items` are to be delivered. -/
def delivery : List (Except ReadError Char) → Except ReadError (Option Char)
  | [] => .ok none
  | item :: _ => item.map some

@[simp] theorem delivery_ok (c : Char) (later : List (Except ReadError Char)) :
    delivery (.ok c :: later) = .ok (some c) := rfl

@[simp] theorem delivery_error (e : ReadError) (later : List (Except ReadError Char)) :
    delivery (.error e :: later) = .error e := rfl

theorem delivery_eq_some {items : List (Except ReadError Char)} {c : Char}
    (h : delivery items = .ok (some c)) : ∃ later, items = .ok c :: later := by
  match items with
  | [] => simp [delivery] at h
  | .error _ :: _ => simp at h
  | .ok _ :: later => exact ⟨later, by simpa using h⟩

theorem delivery_eq_none {items : List (Except ReadError Char)} (h : delivery items = .ok none) :
    items = [] := by
  match items with
  | [] => rfl
  | .error _ :: _ | .ok _ :: _ => simp at h

theorem delivery_eq_error {items : List (Except ReadError Char)} {e : ReadError}
    (h : delivery items = .error e) : ∃ later, items = .error e :: later := by
  match items with
  | [] => simp [delivery] at h
  | .error _ :: later => exact ⟨later, by simpa using h⟩
  | .ok _ :: _ => simp at h

theorem items_of_used (input : Input) (h : input.line.size ≤ input.cursor)
    (hheld : input.held = none) : input.items = input.unread.flatMap lineItems := by
  have hdrop : input.line.toList.drop input.cursor = [] := by simpa using h
  simp [items, hheld, hdrop]

/-- After a refill the cursor stands at the next character, if there is one. -/
theorem refill_spec {input : Input} (hs : input.Sound) (hheld : input.held = none) :
    match input.refill with
    | (.ok (), rest) =>
      rest.items = input.items ∧ rest.Sound ∧ (rest.line.size ≤ rest.cursor → rest.items = [])
    | (.error e, rest) => input.items = .error e :: rest.items ∧ rest.Sound := by
  unfold refill
  by_cases hcursor : input.cursor < input.line.size
  · simp only [hcursor, if_true]
    exact ⟨trivial, hs, fun h => absurd hcursor (Nat.not_lt.2 h)⟩
  · have hused := Nat.le_of_not_lt hcursor
    have hitems := items_of_used input hused hheld
    rw [if_neg hcursor]
    cases hunread : input.unread with
    | nil =>
      rw [hunread] at hitems
      exact ⟨rfl, hs, fun _ => hitems⟩
    | cons line unread =>
      rw [hunread] at hitems
      have hs' : ∀ later ∈ unread, lineItems later ≠ [] := fun later hlater =>
        hs later (by simp [hunread, hlater])
      cases line with
      | error e =>
        refine ⟨?_, hs'⟩
        rw [hitems, items_of_used { input with unread } hused hheld]
        rfl
      | ok text =>
        have hne : text.toList ≠ [] := by
          simpa [lineItems] using hs (.ok text) (by simp [hunread])
        refine ⟨?_, hs', fun h => absurd ?_ hne⟩
        · rw [hitems]
          simp [items, hheld, lineItems]
        · exact List.length_eq_zero_iff.1 (Nat.le_zero.1 (by simpa using h))

theorem take_unread (input : Input) : input.take.2.unread = input.unread := by
  unfold take
  split <;> rfl

theorem take_spec {input : Input} (hheld : input.held = none)
    (h : input.line.size ≤ input.cursor → input.items = []) :
    .ok input.take.1 = delivery input.items ∧ input.take.2.items = input.items.tail := by
  unfold take
  by_cases hcursor : input.cursor < input.line.size
  · have hdrop := List.drop_eq_getElem_cons (l := input.line.toList) hcursor
    rw [Array.getElem?_eq_getElem hcursor]
    simp [items, hheld, hdrop]
  · rw [Array.getElem?_eq_none (Nat.le_of_not_lt hcursor), h (Nat.le_of_not_lt hcursor)]
    exact ⟨rfl, rfl⟩

/-- `next` takes the first item. -/
theorem next_spec {input : Input} (hs : input.Sound) :
    input.next.1 = delivery input.items ∧ input.next.2.items = input.items.tail ∧
      input.next.2.Sound := by
  unfold next
  cases hheld : input.held with
  | some c => exact ⟨by simp [items, hheld], by simp [items, hheld], hs⟩
  | none =>
    have hrefill := refill_spec hs hheld
    have hheld' := (refill_held input).trans hheld
    simp only
    split
    · next e rest hr =>
      rw [hr] at hrefill
      exact ⟨by simp [hrefill.1], by simp [hrefill.1], hrefill.2⟩
    · next rest hr =>
      rw [hr] at hrefill hheld'
      rcases hrefill with ⟨hitems, hsound, hend⟩
      have htake := take_spec hheld' hend
      rw [hitems] at htake
      refine ⟨htake.1, htake.2, ?_⟩
      rw [Sound, take_unread]
      exact hsound

theorem next_eq {input : Input} (hs : input.Sound) :
    ∃ rest, input.next = (delivery input.items, rest) ∧ rest.items = input.items.tail ∧
      rest.Sound ∧ rest.held = none := by
  rcases next_spec hs with ⟨hfirst, htail, hsound⟩
  exact ⟨input.next.2, by rw [← hfirst], htail, hsound, next_held input⟩

theorem next_inv {input rest : Input} {answer : Except ReadError (Option Char)} (hs : input.Sound)
    (h : input.next = (answer, rest)) :
    delivery input.items = answer ∧ rest.items = input.items.tail ∧ rest.Sound ∧
      rest.held = none := by
  rcases next_spec hs with ⟨hfirst, htail, hsound⟩
  have hheld := next_held input
  rw [h] at hfirst htail hsound hheld
  exact ⟨hfirst.symm, htail, hsound, hheld⟩

theorem next_some {input rest : Input} {c : Char} (hs : input.Sound)
    (h : input.next = (.ok (some c), rest)) :
    input.items = .ok c :: rest.items ∧ rest.Sound ∧ rest.held = none := by
  rcases next_inv hs h with ⟨hfirst, htail, hsound, hheld⟩
  rcases delivery_eq_some hfirst with ⟨later, hitems⟩
  rw [hitems] at htail
  exact ⟨by rw [hitems, htail, List.tail_cons], hsound, hheld⟩

theorem next_none {input rest : Input} (hs : input.Sound) (h : input.next = (.ok none, rest)) :
    input.items = [] ∧ rest.items = [] ∧ rest.Sound := by
  rcases next_inv hs h with ⟨hfirst, htail, hsound, -⟩
  have hitems := delivery_eq_none hfirst
  rw [hitems] at htail
  exact ⟨hitems, htail, hsound⟩

theorem next_error {input rest : Input} {e : ReadError} (hs : input.Sound)
    (h : input.next = (.error e, rest)) : input.items = .error e :: rest.items ∧ rest.Sound := by
  rcases next_inv hs h with ⟨hfirst, htail, hsound, -⟩
  rcases delivery_eq_error hfirst with ⟨later, hitems⟩
  rw [hitems] at htail
  exact ⟨by rw [hitems, htail, List.tail_cons], hsound⟩

theorem putback_items {input : Input} (c : Char) (hheld : input.held = none) :
    (input.putback c).items = .ok c :: input.items := by
  simp [putback, items, hheld]

theorem ofBytes_sound (name : String) (bytes : ByteArray) : (ofBytes name bytes).Sound := by
  intro line hline
  rcases List.mem_map.1 hline with ⟨piece, hpiece, rfl⟩
  cases hdecode : decodeLine piece with
  | error e => simp [lineItems]
  | ok text =>
    rw [decodeLine_eq_ok_iff] at hdecode
    intro hnil
    have htext : text.toList = [] := by simpa [lineItems] using hnil
    rw [hdecode, htext] at hpiece
    exact nil_not_mem_byteLines _ hpiece

/-- A byte string delivers the characters of a text and no error exactly when it is the encoding of
that text. -/
theorem ofBytes_items_iff {name : String} {bytes : ByteArray} {text : List Char} :
    (ofBytes name bytes).items = text.map .ok ↔ bytes = (String.ofList text).toUTF8 := by
  have hitems : (ofBytes name bytes).items =
      ((byteLines bytes.data.toList).map decodeLine).flatMap lineItems := by
    simp [items, ofBytes, ofLines]
  rw [hitems, toUTF8_ofList]
  constructor
  · intro h
    have hbytes := flatten_eq_encode h
    rw [byteLines_flatten] at hbytes
    apply ByteArray.ext
    rw [← hbytes, Array.toArray_toList]
  · rintro rfl
    rw [List.toList_toArray, byteLines_encode]
    conv => rhs; rw [← textLines_flatten text]
    simp [List.map_flatten, List.flatMap_def, Function.comp_def]

end Input

end ArithCompiler
