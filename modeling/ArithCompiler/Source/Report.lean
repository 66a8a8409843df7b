import ArithCompiler.Source.Span

/-! # Error reports

A report quotes the line on which each error starts and underlines its span. A span that ends on a
later line is underlined at its first column only.
-/

namespace ArithCompiler

def blanks (n : Nat) : String := String.ofList (List.replicate n ' ')

/-- How many columns are underlined: at least one, and never past the first line. -/
def Span.width (s : Span) : Nat :=
  if s.stop.line = s.start.line then max s.stop.column (s.start.column + 1) - s.start.column else 1

namespace Source

/-- One error: its message, where it is, the line it is on, and the underlined part. -/
def reportOne (s : Source) (error : Located String) : String :=
  let number := error.line.repr
  let margin := blanks number.length
  "error: " ++ error.value ++ "\n" ++
  " --> " ++ s.locate error.span ++ "\n" ++
  margin ++ " |\n" ++
  number ++ " | " ++ s.line error.line ++ "\n" ++
  margin ++ " | " ++ blanks (error.span.start.column - 1) ++
    String.ofList (List.replicate error.span.width '^') ++ "\n\n"

/-- All errors in order, then their number. -/
def report (s : Source) (errors : List (Located String)) : String :=
  match errors with
  | [] => "No errors were reported\n"
  | [e] => s.reportOne e ++ "Build failed with 1 error\n"
  | es => String.join (es.map s.reportOne) ++ "Build failed with " ++ es.length.repr ++ " errors\n"

end Source

/-- The short form of an error: its message and its line. -/
def Located.summary (error : Located String) : String :=
  error.value ++ " on line " ++ error.line.repr

end ArithCompiler
