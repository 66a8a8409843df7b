import ArithCompiler.Command.Compile

/-! # Runs of the command

A run starts from its arguments, its standard input, the files it can reach and the linker at hand.
It ends with an exit status, what it has written, and the files as they are then.
-/

namespace ArithCompiler

structure World where
  stdin : ByteArray
  files : Volume
  linker : Linker

structure Outcome where
  code : UInt32 := 0
  stdout : String := ""
  stderr : String := ""
  files : Volume
  /-- What the linker was given, if it was started. -/
  job : Option LinkJob := none

def misuseText : String := "error: Invalid arguments\n\nFor more information try --help\n"

namespace World

/-- The source that a name stands for. Of the devices, only standard input has anything to read. -/
def source (w : World) (name : String) : Except Failure Input :=
  if name = "-" then .ok (.ofBytes stdinName w.stdin)
  else
    match w.files.openRead name with
    | .error cause => .error (.openSource name cause)
    | .ok (.file contents) => .ok (.ofBytes name contents)
    | .ok (.device .stdin) => .ok (.ofBytes name w.stdin)
    | .ok (.device _) => .ok (.ofLines name [])
    | .ok .directory => .ok (.ofLines name [.error .isDirectory])

def fail (w : World) (failure : Failure) : Outcome :=
  { code := 1, stderr := failure.text, files := w.files }

def deliver (w : World) : Delivery → Outcome
  | .print text => { stdout := text, files := w.files }
  | .write path text =>
    match w.files.openWrite path with
    | .error cause => w.fail (.openOutput path cause)
    | .ok sink =>
      match w.files.write text.toUTF8 sink with
      | .error cause => w.fail (.writeOutput path cause)
      | .ok files =>
        { files
          stdout := if sink = .device .stdout then text else ""
          stderr := if sink = .device .stderr then text else "" }
  | .link output job =>
    match w.linker.run job with
    | (.ok (), job) => { files := w.files, job }
    | (.error cause, job) => { w.fail (.linking output cause) with job }

/-- Process the source and deliver the result, or fail on the way. -/
def process (w : World) (o : Options) : Outcome :=
  match w.source o.inputName with
  | .error failure => w.fail failure
  | .ok input =>
    match o.process input with
    | .error failure => w.fail failure
    | .ok delivery => w.deliver delivery

/-- A run of the command. How its arguments are read is left open; without another reading they are
read by `Invocation.ofArguments`. -/
def run (w : World) (args : List String)
    (read : List String → Invocation := Invocation.ofArguments) : Outcome :=
  match read args with
  | .help => { stdout := helpText, files := w.files }
  | .version => { stdout := versionText, files := w.files }
  | .misuse => { code := 2, stderr := misuseText, files := w.files }
  | .run o => w.process o

end World

end ArithCompiler
