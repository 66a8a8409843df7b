import ArithCompiler.Target.Arch

/-! # Platforms

A platform is an operating system on a machine. The system decides how a program is linked, and the
machine which instructions it is made of. Names are compared without regard to the case of ASCII
letters.
-/

namespace ArithCompiler

inductive Platform where
  | darwinArm64
  | linuxX8664
  deriving DecidableEq, Repr, Inhabited

/-- The names of a system and a machine that make no platform together. -/
structure PlatformError where
  system : String
  machine : String
  deriving DecidableEq, Repr, Inhabited

def PlatformError.message (e : PlatformError) : String :=
  "Could not determine assembly engine for " ++ e.system ++ " " ++ e.machine ++ " platform"

/-- Whether a name is one of the given names, which are in lower case. -/
def namedBy (names : List String) (name : String) : Bool := names.contains name.toLower

namespace Platform

def systems : Platform → List String
  | darwinArm64 => ["darwin", "macos"]
  | linuxX8664 => ["linux"]

def machines : Platform → List String
  | darwinArm64 => ["arm64", "aarch64"]
  | linuxX8664 => ["x86_64", "amd64", "x64"]

def arch : Platform → Arch
  | darwinArm64 => .aarch64
  | linuxX8664 => .x8664

def text : Platform → String
  | darwinArm64 => "darwin-arm64"
  | linuxX8664 => "linux-x86_64"

def all : List Platform := [darwinArm64, linuxX8664]

def detect (system machine : String) : Except PlatformError Platform :=
  match all.find? fun p => namedBy p.systems system && namedBy p.machines machine with
  | some p => .ok p
  | none => .error ⟨system, machine⟩

/-- The system and the machine that stand for a name that is not given. -/
def host : String × String := ("linux", "x86_64")

end Platform

end ArithCompiler
