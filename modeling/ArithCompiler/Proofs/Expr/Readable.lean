import ArithCompiler.Expr.Basic
import ArithCompiler.Proofs.Token.Lexeme

/-! # Unique readability

A tree is read off its written form in one way only. The sign of a negative literal is also an
operator, and a literal has no fixed length, so a form is compared together with what follows it: an
operation ends with its parenthesis, and a literal ends where no digit follows.
-/

namespace ArithCompiler

/-- The text is empty, or it starts with something other than a digit. -/
def NoDigitFirst (text : List Char) : Prop := ∀ c ∈ text.head?, c.isDigit = false

theorem noDigitFirst_cons {c : Char} (hc : c.isDigit = false) (text : List Char) :
    NoDigitFirst (c :: text) := by
  simpa [NoDigitFirst] using hc

theorem takeWhile_toDigits_append (n : Nat) {text : List Char} (h : NoDigitFirst text) :
    (Nat.toDigits 10 n ++ text).takeWhile Char.isDigit = Nat.toDigits 10 n := by
  have hdigits : ∀ c ∈ Nat.toDigits 10 n, c.isDigit = true := fun c hc =>
    Nat.isDigit_of_mem_toDigits (by decide) (by decide) hc
  rw [List.takeWhile_append_of_pos hdigits]
  cases text with
  | nil => simp
  | cons c text => simp [h c rfl]

/-- A number and what follows it are both known from the text that they make. -/
theorem toDigits_append_inj {m n : Nat} {s t : List Char} (hs : NoDigitFirst s)
    (ht : NoDigitFirst t) (h : Nat.toDigits 10 m ++ s = Nat.toDigits 10 n ++ t) :
    m = n ∧ s = t := by
  have hdigits : Nat.toDigits 10 m = Nat.toDigits 10 n := by
    rw [← takeWhile_toDigits_append m hs, h, takeWhile_toDigits_append n ht]
  have hvalue : m = n :=
    calc
      m = Nat.ofDigitChars 10 (Nat.toDigits 10 m) 0 := Nat.ofDigitChars_ten_toDigits.symm
      _ = Nat.ofDigitChars 10 (Nat.toDigits 10 n) 0 := by rw [hdigits]
      _ = n := Nat.ofDigitChars_ten_toDigits
  rw [hdigits] at h
  exact ⟨hvalue, List.append_cancel_left h⟩

/-- Digits are taken neither for a sign nor for a parenthesis. -/
theorem toDigits_append_ne_cons (n : Nat) {c : Char} (hc : c.isDigit = false) (s t : List Char) :
    Nat.toDigits 10 n ++ s ≠ c :: t := by
  intro h
  obtain ⟨d, rest, hcons⟩ := List.exists_cons_of_ne_nil (Nat.toDigits_ne_nil (b := 10) (n := n))
  have hd : d.isDigit = true :=
    Nat.isDigit_of_mem_toDigits (b := 10) (n := n) (by decide) (by decide) (by simp [hcons])
  rw [hcons, List.cons_append, List.cons.injEq] at h
  rw [h.1, hc] at hd
  cases hd

theorem toList_repr_ofNat (n : Nat) : (Int.ofNat n).repr.toList = Nat.toDigits 10 n :=
  Nat.toList_repr

theorem toList_repr_negSucc (n : Nat) :
    (Int.negSucc n).repr.toList = '-' :: Nat.toDigits 10 (n + 1) := by
  change ("-" ++ (n + 1).repr).toList = _
  simp

theorem repr_append_inj {m n : Int} {s t : List Char} (hs : NoDigitFirst s) (ht : NoDigitFirst t)
    (h : m.repr.toList ++ s = n.repr.toList ++ t) : m = n ∧ s = t := by
  cases m with
  | ofNat m =>
    rw [toList_repr_ofNat] at h
    cases n with
    | ofNat n =>
      rw [toList_repr_ofNat] at h
      obtain ⟨rfl, hst⟩ := toDigits_append_inj hs ht h
      exact ⟨rfl, hst⟩
    | negSucc n =>
      rw [toList_repr_negSucc] at h
      exact absurd h (toDigits_append_ne_cons m (by decide) s _)
  | negSucc m =>
    rw [toList_repr_negSucc] at h
    cases n with
    | ofNat n =>
      rw [toList_repr_ofNat] at h
      exact absurd h.symm (toDigits_append_ne_cons n (by decide) t _)
    | negSucc n =>
      rw [toList_repr_negSucc, List.cons_append, List.cons_append, List.cons.injEq] at h
      obtain ⟨hmn, hst⟩ := toDigits_append_inj hs ht h.2
      exact ⟨by rw [Nat.succ.inj hmn], hst⟩

theorem BinOp.symbol_append_inj {op op' : BinOp} {s t : List Char}
    (h : op.symbol.toList ++ s = op'.symbol.toList ++ t) : op = op' ∧ s = t := by
  cases op <;> cases op' <;> simp_all [symbol]

namespace Expr

theorem toList_text_binary (op : BinOp) (left right : Expr) (text : List Char) :
    (binary op left right).text.toList ++ text =
      '(' :: (left.text.toList ++
        ' ' :: (op.symbol.toList ++ ' ' :: (right.text.toList ++ ')' :: text))) := by
  simp [Expr.text]

/-- A literal is not taken for an operation. -/
theorem text_literal_ne (value : Int64) (s t : List Char) :
    (literal value).text.toList ++ s ≠ '(' :: t := by
  rw [Expr.text]
  cases value.toInt with
  | ofNat n =>
    rw [toList_repr_ofNat]
    exact toDigits_append_ne_cons n (by decide) s t
  | negSucc n =>
    rw [toList_repr_negSucc]
    simp

/-- A tree and what follows it are both known from the text that they make. Of what follows it is
only asked that it does not continue a literal. -/
theorem text_append_inj {a b : Expr} {s t : List Char} (hs : NoDigitFirst s) (ht : NoDigitFirst t)
    (h : a.text.toList ++ s = b.text.toList ++ t) : a = b ∧ s = t := by
  induction a generalizing b s t with
  | literal v =>
    cases b with
    | literal w =>
      obtain ⟨hvw, hst⟩ := repr_append_inj hs ht h
      exact ⟨by rw [Int64.toInt_inj.1 hvw], hst⟩
    | binary op left right =>
      rw [toList_text_binary] at h
      exact absurd h (text_literal_ne v s _)
  | binary op left right ihl ihr =>
    cases b with
    | literal w =>
      rw [toList_text_binary] at h
      exact absurd h.symm (text_literal_ne w t _)
    | binary op' left' right' =>
      -- A blank follows the left operand and the operator, a parenthesis the right operand.
      rw [toList_text_binary, toList_text_binary, List.cons.injEq] at h
      obtain ⟨rfl, hop⟩ :=
        ihl (noDigitFirst_cons (by decide) _) (noDigitFirst_cons (by decide) _) h.2
      obtain ⟨rfl, hright⟩ := BinOp.symbol_append_inj (List.cons.inj hop).2
      obtain ⟨rfl, hend⟩ :=
        ihr (noDigitFirst_cons (by decide) _) (noDigitFirst_cons (by decide) _)
          (List.cons.inj hright).2
      exact ⟨rfl, (List.cons.inj hend).2⟩

/-- The text is empty, or it starts with a blank or with a closing parenthesis. -/
def EndsForm (text : String) : Prop := ∀ c ∈ text.toList.head?, isBlank c = true ∨ c = ')'

theorem EndsForm.noDigitFirst {text : String} (h : EndsForm text) : NoDigitFirst text.toList := by
  intro c hc
  rcases h c hc with hblank | rfl
  · cases hdigit : c.isDigit with
    | false => rfl
    | true => simp [isBlank_of_isDigit hdigit] at hblank
  · decide

/-- The written form of a tree determines the tree, also where other text follows that is empty or
starts with a blank or a closing parenthesis; that text is then determined, too. -/
theorem text_determines (a b : Expr) :
    (a.text = b.text → a = b) ∧
      ∀ s t : String, EndsForm s → EndsForm t → a.text ++ s = b.text ++ t → a = b ∧ s = t := by
  have hunique (s t : String) (hs : EndsForm s) (ht : EndsForm t) (h : a.text ++ s = b.text ++ t) :
      a = b ∧ s = t := by
    have hlist : a.text.toList ++ s.toList = b.text.toList ++ t.toList := by
      simpa using congrArg String.toList h
    obtain ⟨hab, hst⟩ := text_append_inj hs.noDigitFirst ht.noDigitFirst hlist
    exact ⟨hab, String.toList_inj.1 hst⟩
  refine ⟨fun h => ?_, hunique⟩
  have hempty : EndsForm "" := by simp [EndsForm]
  exact (hunique "" "" hempty hempty (by rw [h])).1

end Expr

end ArithCompiler
