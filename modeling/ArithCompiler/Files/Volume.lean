import ArithCompiler.Files.Device

/-! # Files

A volume holds files by their location, the list of names from the root. The directories are those
of the system and those that lie on the way to a file or to the working directory.
-/

namespace ArithCompiler

inductive Node where
  | file (contents : ByteArray)
  | directory
  | device (d : Device)

structure Volume where
  /-- Where a path starts that does not start at the root. -/
  home : Location
  files : List (Location × ByteArray)

/-- What a path leads to that is open for writing. -/
inductive Sink where
  | file (location : Location)
  | device (d : Device)
  deriving DecidableEq, Repr, Inhabited

namespace Volume

/-- The names between the slashes of a path. -/
def parts (path : String) : List String := (path.toList.splitOn '/').map String.ofList

/-- A volume with the given files under its working directory. -/
def ofFiles (home : Location) (files : List (String × ByteArray)) : Volume where
  home := home
  files := files.map fun (path, contents) =>
    (home ++ (parts path).filter (fun part => part ≠ "" ∧ part ≠ "."), contents)

def isDirectory (v : Volume) (location : Location) : Bool :=
  (v.home :: Location.systemDirectories ++ v.files.map (·.1.dropLast)).any (location.isPrefixOf ·)

def node? (v : Volume) (location : Location) : Option Node :=
  match v.files.lookup location with
  | some contents => some (.file contents)
  | none =>
    match Location.devices.lookup location with
    | some d => some (.device d)
    | none => if v.isDirectory location then some .directory else none

/-- Refuse a location that is no directory. -/
def enter (v : Volume) (location : Location) : Except FileError Unit :=
  match v.node? location with
  | none => .error .notFound
  | some .directory => .ok ()
  | some _ => .error .notDirectory

/-- Where names lead from a directory. Each step needs a directory to start from; the last one may
lead to nothing. -/
def follow (v : Volume) (location : Location) : List String → Except FileError Location
  | [] => .ok location
  | part :: rest => do
    v.enter location
    v.follow (← location.child part) rest

/-- Where a path starts: at the root if it begins with a slash. -/
def origin (v : Volume) (path : String) : Location :=
  if path.toList.head? = some '/' then [] else v.home

/-- Refuse a path that names nothing or is too long, whatever it would lead to. -/
def checkPath (path : String) : Except FileError Unit :=
  if path = "" then .error .notFound
  else if Location.maxPathBytes < path.utf8ByteSize then .error .nameTooLong
  else .ok ()

/-- Open a path for reading. A directory opens too. -/
def openRead (v : Volume) (path : String) : Except FileError Node := do
  checkPath path
  match v.node? (← v.follow (v.origin path) (parts path)) with
  | none => .error .notFound
  | some (.device .terminal) => .error .noDevice
  | some node => .ok node

/-- The names of a path without the slashes at its end. -/
def stem (names : List String) : List String := (names.reverse.dropWhile (· = "")).reverse

/-- Open what a name leads to in a directory for writing, as a new file if there is nothing. -/
def openChild (v : Volume) (directory : Location) (name : String) : Except FileError Sink := do
  let location ← directory.child name
  match v.node? location with
  | some .directory => .error .isDirectory
  | some (.device .terminal) => .error .noDevice
  | some (.device d) => .ok (.device d)
  | some (.file _) => .ok (.file location)
  | none => if location.isLive then .error .notFound else .ok (.file location)

/-- Open a path for writing. The directory that is to hold the file has to exist; the name of the
file may not be that of a directory, nor have a slash after it. -/
def openWrite (v : Volume) (path : String) : Except FileError Sink := do
  checkPath path
  match (stem (parts path)).reverse with
  | [] => .error .isDirectory
  | name :: before =>
    let directory ← v.follow (v.origin path) before.reverse
    v.enter directory
    if name = "." ∨ name = ".." ∨ parts path ≠ stem (parts path) then .error .isDirectory
    else v.openChild directory name

/-- Replace the contents of what is open for writing. -/
def write (v : Volume) (contents : ByteArray) : Sink → Except FileError Volume
  | .file location =>
    .ok { v with
      files := (location, contents) :: v.files.filter fun entry => entry.1 ≠ location }
  | .device .full => if contents.isEmpty then .ok v else .error .noSpace
  | .device _ => .ok v

/-- The path of a location under the working directory. -/
def relative? (v : Volume) (location : Location) : Option String :=
  if v.home.isPrefixOf location then
    some (String.intercalate "/" (location.drop v.home.length))
  else none

/-- Whether a location holds a file with these contents. -/
def holds (v : Volume) (location : Location) (contents : ByteArray) : Bool :=
  match v.files.lookup location with
  | some old => decide (old.data = contents.data)
  | none => false

/-- The files under the working directory that are new or differ from what they were before. -/
def changes (before after : Volume) : List (String × ByteArray) :=
  (after.files.filter fun entry => !before.holds entry.1 entry.2).filterMap
    fun entry => (after.relative? entry.1).map fun path => (path, entry.2)

end Volume

end ArithCompiler
