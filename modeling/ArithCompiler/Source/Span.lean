import ArithCompiler.Source.Position

/-! # Spans and located values

A span is a half-open range of positions. Tokens and errors carry the span of the text they stand
for; the text itself stays with the `Source`, which knows its name and the lines read so far.
-/

namespace ArithCompiler

structure Span where
  start : Position
  stop : Position
  deriving DecidableEq, Repr, Inhabited

/-- The single column at `p`. -/
def Span.single (p : Position) : Span := ⟨p, p.advance⟩

/-- A span of at most one column is written as its start, a longer one by its first and its last
column. -/
def Span.text (s : Span) : String :=
  if s.stop = s.start.advance ∨ s.stop = s.start then s.start.text
  else "[" ++ s.start.text ++ "-" ++ s.stop.back.text ++ "]"

structure Located (α : Type) where
  value : α
  span : Span
  deriving DecidableEq, Repr, Inhabited

namespace Located

def map {α β : Type} (f : α → β) (l : Located α) : Located β := ⟨f l.value, l.span⟩

def line {α : Type} (l : Located α) : Nat := l.span.start.line

@[simp] theorem map_span {α β : Type} (f : α → β) (l : Located α) : (l.map f).span = l.span := rfl

@[simp] theorem map_value {α β : Type} (f : α → β) (l : Located α) :
    (l.map f).value = f l.value := rfl

end Located

/-- A text under a name, as far as its lines have been read. -/
structure Source where
  name : String
  lines : Array String := #[]
  deriving DecidableEq, Repr, Inhabited

namespace Source

/-- Line `n`, counted from one; empty when it has not been read. -/
def line (s : Source) (n : Nat) : String :=
  match n with
  | 0 => ""
  | n + 1 => s.lines.getD n ""

/-- Where a span lies, under the name of the text. -/
def locate (s : Source) (span : Span) : String := s.name ++ ":" ++ span.text

end Source

end ArithCompiler
