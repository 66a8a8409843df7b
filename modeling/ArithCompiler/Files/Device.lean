/-! # The fixed part of every volume

Some locations are the same on every volume: the devices, the links to the standard streams, and the
directories of the system. A name and a path have a greatest length, counted in bytes.
-/

namespace ArithCompiler

inductive FileError where
  | notFound
  | noDevice
  | notDirectory
  | isDirectory
  | noSpace
  | nameTooLong
  /-- Any other failure, in the system's own words. -/
  | other (text : String)
  deriving DecidableEq, Repr, Inhabited

def FileError.message : FileError → String
  | notFound => "No such file or directory (os error 2)"
  | noDevice => "No such device or address (os error 6)"
  | notDirectory => "Not a directory (os error 20)"
  | isDirectory => "Is a directory (os error 21)"
  | noSpace => "No space left on device (os error 28)"
  | nameTooLong => "File name too long (os error 36)"
  | other text => text

/-- The names on the way from the root. -/
abbrev Location := List String

inductive Device where
  /-- Takes everything. -/
  | null
  /-- Has no room for anything. -/
  | full
  /-- Cannot be opened: no terminal controls the run. -/
  | terminal
  | stdin
  | stdout
  | stderr
  deriving DecidableEq, Repr, Inhabited

namespace Location

def maxNameBytes : Nat := 255

def maxPathBytes : Nat := 4095

/-- The open streams of the run, by number. -/
def streams : Location := ["proc", "self", "fd"]

def devices : List (Location × Device) :=
  [(["dev", "null"], .null), (["dev", "zero"], .null), (["dev", "random"], .null),
    (["dev", "urandom"], .null), (["dev", "full"], .full), (["dev", "tty"], .terminal),
    (streams ++ ["0"], .stdin), (streams ++ ["1"], .stdout), (streams ++ ["2"], .stderr)]

def links : List (Location × Location) :=
  [(["dev", "fd"], streams), (["dev", "stdin"], streams ++ ["0"]),
    (["dev", "stdout"], streams ++ ["1"]), (["dev", "stderr"], streams ++ ["2"])]

/-- Where a location leads that may be a link. No link leads to another. -/
def resolve (location : Location) : Location := (links.lookup location).getD location

def systemDirectories : List Location :=
  streams :: ["bin", "boot", "dev", "etc", "home", "lib", "lib64", "media", "mnt", "opt", "root",
    "run", "sbin", "srv", "sys", "tmp", "usr", "var"].map fun name => [name]

/-- Whether a directory shows the state of the system. Such a directory takes no new files, and has
no bound on a name that is looked up there. -/
def isLive (directory : Location) : Bool := ["proc"].isPrefixOf directory

/-- Where a name leads from a directory. -/
def child (directory : Location) (name : String) : Except FileError Location :=
  if name = "" ∨ name = "." then .ok directory
  else if name = ".." then .ok directory.dropLast
  else if maxNameBytes < name.utf8ByteSize ∧ !directory.isLive then .error .nameTooLong
  else .ok (resolve (directory ++ [name]))

end Location

end ArithCompiler
