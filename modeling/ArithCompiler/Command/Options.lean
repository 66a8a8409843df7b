/-! # Command-line options

Arguments are read from left to right into items, then the items are gathered. A request for help
or for the version, an argument that is not known, and a second file decide at once; an option that
is repeated or that lacks its value only matters when nothing of that kind comes.
-/

namespace ArithCompiler

inductive Switch where
  | evaluate
  | assembly
  | strip
  deriving DecidableEq, Repr, Inhabited

/-- The options that take a value. -/
inductive Setting where
  | machine
  | output
  | registers
  | system
  deriving DecidableEq, Repr, Inhabited

inductive Item where
  | help
  | version
  | unknown
  | switch (s : Switch)
  /-- A setting, with `none` for a value that is missing. -/
  | setting (s : Setting) (value : Option String)
  | file (path : String)
  deriving DecidableEq, Repr, Inhabited

/-- What an option's name stands for: an item, or a setting whose value is still to come. -/
inductive OptionName where
  | item (i : Item)
  | setting (s : Setting)
  deriving DecidableEq, Repr, Inhabited

namespace OptionName

def ofChar : Char → OptionName
  | 'a' => .setting .machine
  | 'e' => .item (.switch .evaluate)
  | 'h' => .item .help
  | 'o' => .setting .output
  | 'r' => .setting .registers
  | 's' => .item (.switch .strip)
  | 'S' => .item (.switch .assembly)
  | 'V' => .item .version
  | _ => .item .unknown

def ofWord : String → OptionName
  | "machine" => .setting .machine
  | "eval" => .item (.switch .evaluate)
  | "help" => .item .help
  | "output" => .setting .output
  | "registers" => .setting .registers
  | "system" => .setting .system
  | "version" => .item .version
  | _ => .item .unknown

end OptionName

/-- One argument's items, and the setting that waits for the next argument as its value. -/
structure Reading where
  items : List Item
  waiting : Option Setting := none
  deriving DecidableEq, Repr, Inhabited

namespace Reading

/-- Options of one letter, joined. What follows a setting's letter is its value, less one equals
sign before it. -/
def letters : List Char → Reading
  | [] => { items := [] }
  | c :: rest =>
    match OptionName.ofChar c, rest with
    | .item i, rest =>
      let later := letters rest
      { later with items := i :: later.items }
    | .setting s, [] => { items := [], waiting := some s }
    | .setting s, '=' :: value => { items := [.setting s (some (String.ofList value))] }
    | .setting s, value => { items := [.setting s (some (String.ofList value))] }

/-- An option with a long name, and perhaps a value after an equals sign. -/
def word (text : List Char) : Reading :=
  let name := String.ofList (text.takeWhile (· ≠ '='))
  match OptionName.ofWord name, text.dropWhile (· ≠ '=') with
  | .item i, [] => { items := [i] }
  | .item _, _ :: _ => { items := [.unknown] }
  | .setting s, [] => { items := [], waiting := some s }
  | .setting s, _ :: value => { items := [.setting s (some (String.ofList value))] }

end Reading

/-- Whether an argument is a value or a file. A hyphen alone is. -/
def isOperand (arg : String) : Bool :=
  match arg.toList with
  | '-' :: _ :: _ => false
  | _ => true

def readArgument (arg : String) : Reading :=
  match arg.toList with
  | '-' :: '-' :: text => Reading.word text
  | '-' :: c :: text => Reading.letters (c :: text)
  | _ => { items := [.file arg] }

/-- The items of all arguments. After two hyphens every argument is a file. -/
def readArguments : List String → List Item
  | [] => []
  | arg :: rest =>
    if arg = "--" then rest.map .file
    else
      match readArgument arg, rest with
      | { items, waiting := none }, rest => items ++ readArguments rest
      | { items, waiting := some s }, [] => items ++ [.setting s none]
      | { items, waiting := some s }, value :: later =>
        if isOperand value then items ++ .setting s (some value) :: readArguments later
        else items ++ .setting s none :: readArguments (value :: later)

structure Options where
  input : Option String := none
  output : Option String := none
  evaluate : Bool := false
  assembly : Bool := false
  strip : Bool := false
  system : Option String := none
  machine : Option String := none
  registers : Option String := none
  deriving DecidableEq, Repr, Inhabited

namespace Options

/-- Add one item, unless it is a repetition or incomplete. -/
def add (o : Options) : Item → Option Options
  | .switch .evaluate => if o.evaluate then none else some { o with evaluate := true }
  | .switch .assembly => if o.assembly then none else some { o with assembly := true }
  | .switch .strip => if o.strip then none else some { o with strip := true }
  | .setting .machine (some v) => if o.machine.isSome then none else some { o with machine := v }
  | .setting .output (some v) => if o.output.isSome then none else some { o with output := v }
  | .setting .registers (some v) =>
    if o.registers.isSome then none else some { o with registers := v }
  | .setting .system (some v) => if o.system.isSome then none else some { o with system := v }
  | .file path => if o.input.isSome then none else some { o with input := path }
  | .setting _ none | .help | .version | .unknown => none

/-- The source file; a hyphen stands for standard input. -/
def inputName (o : Options) : String := o.input.getD "-"

/-- The output file; a hyphen stands for standard output. -/
def outputName (o : Options) : String := o.output.getD "a.out"

end Options

/-- What a command line asks for. -/
inductive Invocation where
  | help
  | version
  | misuse
  | run (options : Options)
  deriving DecidableEq, Repr, Inhabited

namespace Invocation

/-- The first item that decides at once. -/
def immediate? (fileSeen : Bool) : List Item → Option Invocation
  | [] => none
  | .help :: _ => some .help
  | .version :: _ => some .version
  | .unknown :: _ => some .misuse
  | .file _ :: rest => if fileSeen then some .misuse else immediate? true rest
  | .switch _ :: rest | .setting _ _ :: rest => immediate? fileSeen rest

def ofItems (items : List Item) : Invocation :=
  match immediate? false items with
  | some i => i
  | none =>
    match items.foldlM Options.add {} with
    | some o => .run o
    | none => .misuse

def ofArguments (args : List String) : Invocation := ofItems (readArguments args)

end Invocation

/-- The name and the version of the program. -/
def versionText : String := "Arithmetic expression compiler 0.1.0\n"

def helpText : String := versionText ++ "
USAGE:
    exprc [OPTIONS] [FILE]

ARGS:
    <FILE>    Source file ('-' for stdin) [default: -]

OPTIONS:
    -a, --machine <NAME>      Target machine (defaults to host)
    -e, --eval                Evaluate the expression instead of compiling it
    -h, --help                Print help information
    -o, --output <FILE>       Output file ('-' along with -S for stdout) [default: a.out]
    -r, --registers <LIST>    Comma-separated register pool override
    -s                        Strip executables
    -S                        Generate assembly instead of linking
        --system <NAME>       Target operating system (defaults to host)
    -V, --version             Print version information
"

end ArithCompiler
