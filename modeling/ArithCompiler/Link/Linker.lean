import ArithCompiler.Link.Platform

/-! # Linking

The system's compiler driver assembles and links: it gets the assembly on its standard input and
the name of the executable as an argument. Linking fails when the driver cannot be started, or when
it ends with anything but status zero.
-/

namespace ArithCompiler

/-- How a process came to its end. -/
inductive Ending where
  | exit (status : UInt8)
  | signal (number : Nat)
  deriving DecidableEq, Repr, Inhabited

/-- The status that a parent process gets: the exit status in its second byte, or the signal. -/
def Ending.waitStatus : Ending → Nat
  | exit status => status.toNat * 256
  | signal number => number

inductive SpawnError where
  | missing
  | nulInArgument
  | argumentTooLong
  deriving DecidableEq, Repr, Inhabited

def SpawnError.message : SpawnError → String
  | missing => "No such file or directory (os error 2)"
  | nulInArgument => "nul byte found in provided data"
  | argumentTooLong => "Argument list too long (os error 7)"

inductive LinkError where
  | spawn (cause : SpawnError)
  | failed (ending : Ending)
  deriving DecidableEq, Repr, Inhabited

def LinkError.message : LinkError → String
  | spawn _ => "I/O error"
  | failed ending =>
    "Linker exited with status code ExitStatus(unix_wait_status(" ++ ending.waitStatus.repr ++ "))"

/-- A run of the linker: its arguments and what it reads. -/
structure LinkJob where
  arguments : List String
  assembly : String
  deriving DecidableEq, Repr, Inhabited

/-- The linker at hand: how its run ends, or `none` where there is no linker. -/
abbrev Linker := Option Ending

namespace Platform

/-- What linking needs on a platform, whose programs bring their own entry point. -/
def linkOptions : Platform → List String
  | darwinArm64 => ["-nostartfiles", "-Wl,-e,_start", "-lSystem"]
  | linuxX8664 => ["-nostdlib", "-static"]

def linkArguments (p : Platform) (output : String) (strip : Bool) : List String :=
  p.linkOptions ++ ["-o", output, "-xassembler", "-"] ++ if strip then ["-s"] else []

end Platform

/-- The most bytes that an argument of a process may have. -/
def maxArgumentBytes : Nat := 131071

/-- Run the linker on a job. The job comes back if the linker was started. -/
def Linker.run (linker : Linker) (job : LinkJob) : Except LinkError Unit × Option LinkJob :=
  if job.arguments.any (·.contains '\x00') then (.error (.spawn .nulInArgument), none)
  else
    match linker with
    | none => (.error (.spawn .missing), none)
    | some ending =>
      if job.arguments.any (maxArgumentBytes < ·.utf8ByteSize) then
        (.error (.spawn .argumentTooLong), none)
      else if ending = .exit 0 then (.ok (), some job)
      else (.error (.failed ending), some job)

end ArithCompiler
