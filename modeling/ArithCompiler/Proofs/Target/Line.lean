import ArithCompiler.Target.Basic
import Mathlib.Data.List.Forall2
import Mathlib.Data.List.TakeWhile

/-! # Reading lines of assembly

A line is read without knowledge of how it was laid out: after a tab comes the opcode, which ends at
the first blank, and then come the operands, with commas between them and blanks before them. The
reader of an instruction set has only to say which operands it knows and which opcodes take them.
-/

namespace ArithCompiler.Layout

/-- The characters of a name: letters, digits, and everything beyond ASCII. -/
def isNameChar (c : Char) : Bool := c.isAlphanum || 0x80 ≤ c.toNat

def IsName (name : String) : Prop := name ≠ "" ∧ ∀ c ∈ name.toList, isNameChar c

instance (name : String) : Decidable (IsName name) :=
  decidable_of_iff ((name != "" && name.toList.all isNameChar) = true) (by simp [IsName])

def name? (text : List Char) : Option String :=
  if text ≠ [] ∧ text.all isNameChar then some (String.ofList text) else none

def decimal? (text : List Char) : Option Nat :=
  if text ≠ [] ∧ text.all Char.isDigit then some (Nat.ofDigitChars 10 text 0) else none

def integer? : List Char → Option Int
  | '-' :: text => (decimal? text).map fun n => -(n : Int)
  | text => (decimal? text).map fun n => (n : Int)

/-- The operands of a line, each without the blanks before it. -/
def operands (text : List Char) : List (List Char) :=
  if text.isEmpty then [] else (text.splitOn ',').map (·.dropWhile (· == ' '))

/-- The opcode of a line and its operands. -/
def fields? (line : String) : Option (String × List (List Char)) :=
  match line.toList with
  | '\t' :: text =>
    some (String.ofList (text.takeWhile (· != ' ')),
      operands ((text.dropWhile (· != ' ')).dropWhile (· == ' ')))
  | _ => none

theorem name?_toList {name : String} (h : IsName name) : name? name.toList = some name := by
  have hne : name.toList ≠ [] := by simpa using h.1
  rw [name?, if_pos ⟨hne, List.all_eq_true.2 h.2⟩, String.ofList_toList]

theorem decimal?_repr (n : Nat) : decimal? n.repr.toList = some n := by
  have hd : ∀ c ∈ Nat.toDigits 10 n, c.isDigit := fun c hc =>
    Nat.isDigit_of_mem_toDigits (by decide) (by decide) hc
  rw [Nat.toList_repr, decimal?, if_pos ⟨Nat.toDigits_ne_nil, List.all_eq_true.2 hd⟩,
    Nat.ofDigitChars_ten_toDigits]

theorem integer?_repr (n : Int) : integer? n.repr.toList = some n := by
  cases n with
  | ofNat n =>
    have hdigit : (Nat.repr n).toList.head? ≠ some '-' := by
      intro hhead
      have hmem : '-' ∈ Nat.toDigits 10 n := by
        rw [← Nat.toList_repr]
        exact List.mem_of_head? hhead
      exact absurd (Nat.isDigit_of_mem_toDigits (by decide) (by decide) hmem) (by decide)
    change integer? (Nat.repr n).toList = _
    unfold integer?
    split
    · next text htext => simp [htext] at hdigit
    · rw [decimal?_repr]
      rfl
  | negSucc n =>
    change integer? ("-" ++ (n + 1).repr).toList = _
    simp only [String.toList_append, String.reduceToList, List.cons_append, List.nil_append]
    rw [integer?, decimal?_repr]
    rfl

theorem IsName.comma_notMem {name : String} (h : IsName name) : ',' ∉ name.toList :=
  fun hmem => absurd (h.2 ',' hmem) (by decide)

theorem comma_notMem_repr (n : Nat) : ',' ∉ n.repr.toList := by
  rw [Nat.toList_repr]
  intro hmem
  exact absurd (Nat.isDigit_of_mem_toDigits (by decide) (by decide) hmem) (by decide)

theorem comma_notMem_repr_int (n : Int) : ',' ∉ n.repr.toList := by
  cases n with
  | ofNat n => exact comma_notMem_repr n
  | negSucc n =>
    change ',' ∉ ("-" ++ (n + 1).repr).toList
    simpa using comma_notMem_repr (n + 1)

/-- The text of an operand: it has no comma, and it starts with something other than a blank. -/
def IsOperand (text : List Char) : Prop := text ≠ [] ∧ text.head? ≠ some ' ' ∧ ',' ∉ text

theorem isOperand_cons {c : Char} {text : List Char} (hb : c ≠ ' ') (hc : c ≠ ',')
    (ht : ',' ∉ text) : IsOperand (c :: text) := by
  simp [IsOperand, hb, hc.symm, ht]

theorem dropWhile_blank {text : List Char} (h : text.head? ≠ some ' ') (n : Nat) :
    (List.replicate n ' ' ++ text).dropWhile (· == ' ') = text := by
  rw [List.dropWhile_append_of_pos (by simp)]
  cases text with
  | nil => rfl
  | cons c text =>
    have hc : c ≠ ' ' := by simpa using h
    simp [hc]

/-- The operands of a line as they are laid out. -/
def join (first : List Char) (rest : List (List Char)) : List Char :=
  first ++ rest.flatMap fun operand => ',' :: ' ' :: operand

theorem join_eq_intercalate (first : List Char) (rest : List (List Char)) :
    join first rest = [','].intercalate (first :: rest.map (' ' :: ·)) := by
  induction rest generalizing first with
  | nil => simp [join]
  | cons operand rest ih =>
    rw [List.map_cons, List.intercalate_cons_cons, ← ih]
    simp [join]

theorem operands_join {first : List Char} {rest : List (List Char)} (hf : IsOperand first)
    (hr : ∀ operand ∈ rest, IsOperand operand) : operands (join first rest) = first :: rest := by
  have hcomma : ∀ piece ∈ first :: rest.map (' ' :: ·), ',' ∉ piece := by
    intro piece hpiece
    rcases List.mem_cons.1 hpiece with rfl | hpiece
    · exact hf.2.2
    · rcases List.mem_map.1 hpiece with ⟨operand, hoperand, rfl⟩
      simpa using (hr operand hoperand).2.2
  have hne : (join first rest).isEmpty = false := by
    simp [join, hf.1]
  have hfirst : first.dropWhile (· == ' ') = first := dropWhile_blank hf.2.1 0
  have hrest : rest.map ((·.dropWhile (· == ' ')) ∘ (' ' :: ·)) = rest.map id :=
    List.map_congr_left fun operand h => dropWhile_blank (hr operand h).2.1 1
  rw [operands, hne, join_eq_intercalate, List.splitOn_intercalate ',' hcomma (by simp)]
  simp only [Bool.false_eq_true, if_false, List.map_cons, List.map_map, hfirst, hrest,
    List.map_id]

theorem bne_blank_of_notMem {opcode : List Char} (hop : ' ' ∉ opcode) :
    ∀ c ∈ opcode, (c != ' ') = true :=
  fun _ hc => bne_iff_ne.2 fun h => hop (h ▸ hc)

theorem takeWhile_opcode {opcode : List Char} (hop : ' ' ∉ opcode) (text : List Char) :
    (opcode ++ ' ' :: text).takeWhile (· != ' ') = opcode := by
  rw [List.takeWhile_append_of_pos (bne_blank_of_notMem hop)]
  simp

theorem dropWhile_opcode {opcode : List Char} (hop : ' ' ∉ opcode) (text : List Char) :
    (opcode ++ ' ' :: text).dropWhile (· != ' ') = ' ' :: text := by
  rw [List.dropWhile_append_of_pos (bne_blank_of_notMem hop)]
  simp

/-- A line that was laid out is read as what was put into it. -/
theorem fields?_instruction {opcode text : String} {first : List Char} {rest : List (List Char)}
    (hop : ' ' ∉ opcode.toList) (hlen : opcode.toList.length < 8)
    (htext : text.toList = join first rest) (hf : IsOperand first)
    (hr : ∀ operand ∈ rest, IsOperand operand) :
    fields? (instruction opcode text) = some (opcode, first :: rest) := by
  obtain ⟨n, hn⟩ : ∃ n, 8 - opcode.toList.length = n + 1 := ⟨7 - opcode.toList.length, by omega⟩
  have hline : (instruction opcode text).toList =
      '\t' :: (opcode.toList ++ ' ' :: (List.replicate n ' ' ++ join first rest)) := by
    simp only [instruction, String.toList_append, String.toList_ofList, List.rightpad, htext, hn]
    simp [List.replicate_succ]
  have hhead : (join first rest).head? ≠ some ' ' := by
    cases first with
    | nil => exact absurd rfl hf.1
    | cons c first => exact hf.2.1
  rw [fields?, hline]
  simp only [takeWhile_opcode hop, dropWhile_opcode hop]
  rw [← List.cons_append, ← List.replicate_succ, dropWhile_blank hhead, operands_join hf hr,
    String.ofList_toList]

theorem fields?_lone {opcode : String} (hop : ' ' ∉ opcode.toList) :
    fields? (lone opcode) = some (opcode, []) := by
  have hline : (lone opcode).toList = '\t' :: opcode.toList := by simp [lone]
  have htake : opcode.toList.takeWhile (· != ' ') = opcode.toList :=
    List.takeWhile_eq_self_iff.2 (bne_blank_of_notMem hop)
  have hdrop : opcode.toList.dropWhile (· != ' ') = [] :=
    List.dropWhile_eq_nil_iff.2 (bne_blank_of_notMem hop)
  rw [fields?, hline]
  simp [htake, hdrop, operands]

section Reader

variable {ω ι : Type} (operand? : List Char → Option ω) (assemble? : String → List ω → Option ι)

/-- Read a line, given the operands and the instructions of an instruction set. -/
def readWith (line : String) : Option ι :=
  match fields? line with
  | none => none
  | some (opcode, texts) =>
    match texts.mapM operand? with
    | none => none
    | some operands => assemble? opcode operands

/-- A text that stands for an operand. -/
def Reads (text : List Char) (operand : ω) : Prop := IsOperand text ∧ operand? text = some operand

theorem mapM_of_reads {texts : List (List Char)} {operands : List ω}
    (h : List.Forall₂ (Reads operand?) texts operands) : texts.mapM operand? = some operands := by
  induction h with
  | nil => rfl
  | cons ht _ ih =>
    rw [List.mapM_cons, ht.2, ih]
    rfl

theorem isOperand_of_reads {texts : List (List Char)} {operands : List ω}
    (h : List.Forall₂ (Reads operand?) texts operands) : ∀ text ∈ texts, IsOperand text := by
  induction h with
  | nil => simp
  | cons ht _ ih =>
    intro text htext
    rcases List.mem_cons.1 htext with rfl | htext
    · exact ht.1
    · exact ih text htext

theorem readWith_instruction {opcode text : String} {first : List Char} {rest : List (List Char)}
    {operands : List ω} (hop : ' ' ∉ opcode.toList) (hlen : opcode.toList.length < 8)
    (htext : text.toList = join first rest)
    (h : List.Forall₂ (Reads operand?) (first :: rest) operands) :
    readWith operand? assemble? (instruction opcode text) = assemble? opcode operands := by
  have hoperand := isOperand_of_reads operand? h
  have hfields := fields?_instruction hop hlen htext (hoperand first List.mem_cons_self)
    (fun t ht => hoperand t (List.mem_cons_of_mem first ht))
  rw [readWith, hfields]
  simp only [mapM_of_reads operand? h]

theorem readWith_lone {opcode : String} (hop : ' ' ∉ opcode.toList) :
    readWith operand? assemble? (lone opcode) = assemble? opcode [] := by
  rw [readWith, fields?_lone hop]
  rfl

theorem mapM_map_text {text : ι → String} {read? : String → Option ι} {instrs : List ι}
    (h : ∀ i ∈ instrs, read? (text i) = some i) : (instrs.map text).mapM read? = some instrs := by
  induction instrs with
  | nil => rfl
  | cons i rest ih =>
    rw [List.map_cons, List.mapM_cons, h i List.mem_cons_self,
      ih fun j hj => h j (List.mem_cons_of_mem i hj)]
    rfl

end Reader

end ArithCompiler.Layout
