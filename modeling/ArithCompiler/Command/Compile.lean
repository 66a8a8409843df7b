import ArithCompiler.Codegen.Generate
import ArithCompiler.Command.Failure
import ArithCompiler.Command.Options
import ArithCompiler.Text.WhiteSpace

/-! # From a source to what is delivered

Everything is decided before anything is delivered: the source is parsed, then it is evaluated, or
the platform is chosen and the code generated, and only then is it settled where the result goes.
-/

namespace ArithCompiler

/-- What is left to do once the work is done. -/
inductive Delivery where
  | print (text : String)
  | write (path text : String)
  | link (output : String) (job : LinkJob)
  deriving DecidableEq, Repr, Inhabited

/-- The name under which standard input is reported. -/
def stdinName : String := "<stdin>"

namespace Options

/-- The platform asked for; a name that is not given is that of the host. -/
def platform (o : Options) : Except PlatformError Platform :=
  Platform.detect (o.system.getD Platform.host.1) (o.machine.getD Platform.host.2)

/-- The names that replace the registers of the target. -/
def registerNames (o : Options) : Option (List String) := o.registers.map commaWords

/-- Where the lines of a program go. -/
def deliver (o : Options) (p : Platform) (lines : List String) : Except Failure Delivery :=
  let text := Layout.text lines
  match o.assembly, o.outputName with
  | true, "-" => .ok (.print text)
  | true, path => .ok (.write path text)
  | false, "-" => .error .executableToStdout
  | false, path => .ok (.link path ⟨p.linkArguments path o.strip, text⟩)

def evaluation (e : Expr) : Except Failure Delivery :=
  match e.eval with
  | .ok value => .ok (.print (value.toInt.repr ++ "\n"))
  | .error cause => .error (.evaluation cause)

def compilation (o : Options) (e : Expr) : Except Failure Delivery :=
  match o.platform with
  | .error cause => .error (.platform cause)
  | .ok p =>
    match emit e p.arch o.registerNames with
    | .error cause => .error (.codegen cause)
    | .ok lines => o.deliver p lines

/-- All the work on a source. -/
def process (o : Options) (input : Input) : Except Failure Delivery :=
  match parse input with
  | (.error e, rest) => .error (.syntaxError rest.source e)
  | (.ok e, _) => if o.evaluate then evaluation e else o.compilation e

end Options

end ArithCompiler
