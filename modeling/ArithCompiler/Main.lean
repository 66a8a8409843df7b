import ArithCompiler.Command.Run

/-! # The command

The same stages as a run on a volume, with the files and streams of the system. There is no way
from here to start another program, so linking always finds the linker missing.
-/

namespace ArithCompiler.Console

def fileErrorOf : IO.Error → FileError
  | .noFileOrDirectory .. => .notFound
  | .inappropriateType _ code _ => if code = 20 then .notDirectory else .isDirectory
  | .resourceExhausted .. => .noSpace
  | .noSuchThing .. => .noDevice
  | .invalidArgument _ 36 _ => .nameTooLong
  | e => .other e.toString

partial def readAll (stream : IO.FS.Stream) (read : ByteArray) : IO ByteArray := do
  let more ← stream.read 65536
  if more.isEmpty then return read
  readAll stream (read ++ more)

def readSource (name : String) : IO (Except Failure Input) := do
  if name = "-" then return .ok (.ofBytes stdinName (← readAll (← IO.getStdin) .empty))
  let handle ←
    try IO.FS.Handle.mk name .read
    catch e => return .error (.openSource name (fileErrorOf e))
  try
    return .ok (.ofBytes name (← handle.readBinToEnd))
  catch _ =>
    -- Of what opens, only a directory cannot be read.
    return .ok (.ofLines name [.error .isDirectory])

def fail (failure : Failure) : IO UInt32 := do
  (← IO.getStderr).putStr failure.text
  return 1

def writeOutput (path text : String) : IO UInt32 := do
  let handle ←
    try IO.FS.Handle.mk path .write
    catch e => return ← fail (.openOutput path (fileErrorOf e))
  try
    handle.putStr text
    handle.flush
    return 0
  catch e => fail (.writeOutput path (fileErrorOf e))

def deliver : Delivery → IO UInt32
  | .print text => do
    (← IO.getStdout).putStr text
    return 0
  | .write path text => writeOutput path text
  | .link output job =>
    match (Linker.run none job).1 with
    | .ok () => return 0
    | .error cause => fail (.linking output cause)

def process (o : Options) : IO UInt32 := do
  match ← readSource o.inputName with
  | .error failure => fail failure
  | .ok input =>
    match o.process input with
    | .error failure => fail failure
    | .ok delivery => deliver delivery

end ArithCompiler.Console

open ArithCompiler Console in
def main (args : List String) : IO UInt32 := do
  match Invocation.ofArguments args with
  | .help =>
    (← IO.getStdout).putStr helpText
    return 0
  | .version =>
    (← IO.getStdout).putStr versionText
    return 0
  | .misuse =>
    (← IO.getStderr).putStr misuseText
    return 2
  | .run o => process o
