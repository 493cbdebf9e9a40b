import Treewalk.Text.Quoted
import Treewalk.Text.Utf8

/-!
# Files and paths

A file system says what is at each place: a file, a directory or nothing. A path leads to a
place part by part, from the root if it starts with a slash and from the working directory
if not. Each part asks for a directory to start from; an empty part and `.` stay there, `..`
goes up, and the root is above itself. A script is the bytes of a file, decoded as UTF-8; that
never fails, so only reading can.

Main definitions: `FileSystem.resolve`, `FileSystem.readScript`.
-/

namespace Treewalk

/-- Why a path cannot be read. -/
inductive ReadFault
  | notFound
  | isDirectory
  | notDirectory
  | nameTooLong
  /-- The path holds a NUL character, which no name can. -/
  | nulInPath
  deriving DecidableEq

namespace ReadFault

def message : ReadFault → String
  | notFound => "No such file or directory (os error 2)"
  | isDirectory => "Is a directory (os error 21)"
  | notDirectory => "Not a directory (os error 20)"
  | nameTooLong => "File name too long (os error 36)"
  | nulInPath => "file name contained an unexpected NUL byte"

end ReadFault

structure ReadError where
  path : String
  fault : ReadFault
  deriving DecidableEq

namespace ReadError

/-- What was attempted. -/
def attempt (e : ReadError) : String :=
  "could not read file " ++ Quoted.encode e.path

def message (e : ReadError) : String :=
  e.attempt ++ ": " ++ e.fault.message

end ReadError

/-- The names that lead to a place, the last first; the root has none. -/
abbrev Place := List String

namespace Place

/-- The place one part of a path further, whatever is there. -/
def follow (here : Place) (part : String) : Place :=
  if part = "" || part = "." then here
  else if part = ".." then here.tail
  else part :: here

end Place

inductive Entry
  | file (bytes : List UInt8)
  | directory
  deriving DecidableEq

structure FileSystem where
  /-- What is where. Of two entries for a place the first counts. -/
  entries : List (Place × Entry)
  working : Place

namespace FileSystem

/-- What is at a place. There is a directory above each entry, and at the root. -/
def entry? (s : FileSystem) (p : Place) : Option Entry :=
  match s.entries.lookup p with
  | some entry => some entry
  | none =>
    if p.isEmpty || s.entries.any fun (q, _) => p.isSuffixOf q then some .directory
    else none

/-! ## Paths -/

/-- The most bytes that a name may have. -/
def longestName : Nat := 255

/-- The most bytes that a path may have. -/
def longestPath : Nat := 4095

/-- The parts of a path between its slashes. -/
def parts (path : String) : List String :=
  (path.toList.splitOn '/').map String.ofList

/-- Where a path starts. -/
def start (s : FileSystem) (path : String) : Place :=
  if path.toList.head? = some '/' then [] else s.working

/-- Goes one part further, which takes a directory to start from. -/
def step (s : FileSystem) (here : Place) (part : String) : Except ReadFault Place :=
  match s.entry? here with
  | none => .error .notFound
  | some (.file _) => .error .notDirectory
  | some .directory =>
    if longestName < part.utf8ByteSize then .error .nameTooLong
    else .ok (Place.follow here part)

/-- The place to which a path leads. -/
def resolve (s : FileSystem) (path : String) : Except ReadFault Place :=
  if path.toList.contains '\x00' then .error .nulInPath
  else if path = "" then .error .notFound
  else if longestPath < path.utf8ByteSize then .error .nameTooLong
  else (parts path).foldlM s.step (s.start path)

/-! ## Reading -/

def readBytes (s : FileSystem) (path : String) : Except ReadFault (List UInt8) := do
  match s.entry? (← s.resolve path) with
  | none => throw .notFound
  | some .directory => throw .isDirectory
  | some (.file bytes) => return bytes

/-- The text of the script at a path. -/
def readScript (s : FileSystem) (path : String) : Except ReadError String :=
  match s.readBytes path with
  | .ok bytes => .ok (Utf8.decode bytes)
  | .error fault => .error ⟨path, fault⟩

/-! ## Making file systems -/

/-- Whether a path can only lead to a directory, by how it ends. -/
def leadsToDirectory (path : String) : Bool :=
  (parts path).getLast?.any fun part => part = "" || part = "." || part = ".."

/-- Puts a file where a path leads, in place of one that was there. No file takes the place
of a directory. -/
def withFile (s : FileSystem) (path : String) (bytes : List UInt8) : FileSystem :=
  let place := (parts path).foldl Place.follow (s.start path)
  if leadsToDirectory path || s.entry? place = some .directory then s
  else { s with entries := (place, .file bytes) :: s.entries }

/-- The directories that are found at every root. -/
def rootDirectories : List String :=
  ["bin", "boot", "dev", "etc", "home", "lib", "media", "mnt", "opt", "proc", "root", "run",
    "sbin", "srv", "sys", "tmp", "usr", "var"]

/-- A system with nothing of its own: the usual directories, the device that is always empty,
and an empty working directory. That one has a name which no path can spell, so it is entered
only by starting there. -/
def bare : FileSystem where
  entries :=
    (["null", "dev"], .file []) :: (["", "tmp"], .directory)
      :: rootDirectories.map fun name => ([name], .directory)
  working := ["", "tmp"]

/-- A bare system with files put into it, in order. -/
def ofFiles (files : List (String × List UInt8)) : FileSystem :=
  files.foldl (fun s (path, bytes) => s.withFile path bytes) bare

instance : Inhabited FileSystem := ⟨bare⟩

end FileSystem

end Treewalk
