import ArithCompiler.Codegen.Assembly
import ArithCompiler.Expr.Eval
import ArithCompiler.Expr.Parse
import ArithCompiler.Files.Volume
import ArithCompiler.Link.Linker
import ArithCompiler.Source.Report

/-! # Failures of the command

A source that cannot be parsed is answered with a report on it. Any other failure is told in one
line, with the causes behind it below.
-/

namespace ArithCompiler

inductive Failure where
  | openSource (path : String) (cause : FileError)
  | syntaxError (source : Source) (error : Located ParseError)
  | evaluation (cause : EvalError)
  | platform (cause : PlatformError)
  | codegen (cause : CodegenError)
  | openOutput (path : String) (cause : FileError)
  | writeOutput (path : String) (cause : FileError)
  | executableToStdout
  | linking (output : String) (cause : LinkError)
  deriving DecidableEq, Repr, Inhabited

/-- A failure with its causes, outermost first. Several causes are numbered. -/
def failureText (message : String) (causes : List String) : String :=
  let lines :=
    match causes with
    | [] => []
    | [cause] => ["", "Caused by:", "    " ++ cause]
    | causes =>
      ["", "Caused by:"] ++
        causes.mapIdx fun i cause => String.ofList (i.repr.toList.leftpad 5 ' ') ++ ": " ++ cause
  String.join ((("Error: " ++ message) :: lines).map (· ++ "\n"))

def Failure.text : Failure → String
  | openSource path cause => failureText ("Failed to open for reading: " ++ path) [cause.message]
  | syntaxError source error => source.report [error.map ParseError.message]
  | evaluation cause => failureText "Failed to evaluate expression" [cause.message]
  | platform cause => failureText cause.message []
  | codegen cause => failureText "Code generation failed" [cause.message]
  | openOutput path cause => failureText ("Failed to open for writing: " ++ path) [cause.message]
  | writeOutput path cause => failureText ("Failed to emit to file: " ++ path) [cause.message]
  | executableToStdout => failureText "Refusing to write executable to stdout" []
  | linking output cause =>
    match cause with
    | .spawn reason => failureText "Failed to link" [cause.message, reason.message]
    | .failed _ => failureText ("Failed to generate executable: " ++ output) [cause.message]

end ArithCompiler
