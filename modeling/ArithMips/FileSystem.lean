import ArithMips.Error
import ArithMips.FileSystem.Place
import ArithMips.Text.Utf8

/-!
# Files

The file operations that the program needs, as a structure over any monad, and a model of them: a working directory
as a value.  In the model a path is resolved name by name, every name in a directory, and a `/` at its end asks for a
directory.  A name may have 255 bytes and a path 4095.
-/

namespace ArithMips

/-- Why a file operation fails. -/
inductive FileError where
  | notFound
  | notDirectory
  | isDirectory
  | nameTooLong
  | nulInName
  | notText
  | other (description : Text)
  deriving DecidableEq, Repr

def FileError.message : FileError → Text
  | notFound => "No such file or directory (os error 2)".toList
  | notDirectory => "Not a directory (os error 20)".toList
  | isDirectory => "Is a directory (os error 21)".toList
  | nameTooLong => "File name too long (os error 36)".toList
  | nulInName => "file name contained an unexpected NUL byte".toList
  | notText => "stream did not contain valid UTF-8".toList
  | other description => description

/-- The file operations of the program. -/
structure FileSystem (m : Type → Type) where
  /-- Whether there is a file or directory at a path. -/
  exists? : Text → m Bool
  read : Text → m (Except FileError Text)
  /-- Makes a file with the given text, in place of one that is there. -/
  write : Text → Text → m (Except FileError Unit)

namespace FileSystem

def maxPathBytes : Nat := 4095

/-- Refuses a path that no file can have. -/
def checkPath (path : Text) : Except FileError Unit :=
  if '\x00' ∈ path then .error .nulInName
  else if path = [] then .error .notFound
  else if maxPathBytes < Text.utf8Size path then .error .nameTooLong
  else .ok ()

end FileSystem

inductive Entry where
  | directory
  | file (content : ByteArray)

/-- A working directory: what is in it, and what is known around it, by place.  The root, the working directory and
those above it are directories, and are not listed. -/
structure Directory where
  entries : List (Place × Entry) := []

namespace Directory

/-- Whether a path ends with `/`, so that it can only lead to a directory. -/
def endsInSlash (path : Text) : Bool := path.getLast? = some '/'

def entry? (d : Directory) (p : Place) : Option Entry :=
  if p.names = [] then some .directory else (d.entries.find? (·.1 = p)).map (·.2)

def insert (d : Directory) (p : Place) (e : Entry) : Directory :=
  { entries := (p, e) :: d.entries.filter (·.1 ≠ p) }

def maxNameBytes : Nat := 255

/-- Goes from a place to a name in it.  The place must be a directory. -/
def enter (d : Directory) (p : Place) (name : Text) : Except FileError Place :=
  match d.entry? p with
  | some .directory => if maxNameBytes < Text.utf8Size name then .error .nameTooLong else .ok (p.next name)
  | some (.file _) => .error .notDirectory
  | none => .error .notFound

def walk (d : Directory) (p : Place) (names : List Text) : Except FileError Place :=
  names.foldlM d.enter p

def lookup (d : Directory) (path : Text) : Except FileError Entry := do
  FileSystem.checkPath path
  match d.entry? (← d.walk (.start path) (Place.namesOf path)) with
  | none => throw .notFound
  | some .directory => return .directory
  | some (.file content) => if endsInSlash path then throw .notDirectory else return .file content

def readBytes (d : Directory) (path : Text) : Except FileError ByteArray := do
  match ← d.lookup path with
  | .directory => throw .isDirectory
  | .file content => return content

def read (d : Directory) (path : Text) : Except FileError Text := do
  match Utf8.text? (← d.readBytes path) with
  | some s => return s
  | none => throw .notText

/-- The directory after a file was made at a path.  A `/` at the end of the path is refused before its last name
is looked up. -/
def write (d : Directory) (path : Text) (content : Text) : Except FileError Directory := do
  FileSystem.checkPath path
  match (Place.namesOf path).getLast? with
  | none => throw .isDirectory
  | some name =>
    let parent ← d.walk (.start path) (Place.namesOf path).dropLast
    if endsInSlash path && !Place.isDots name && (d.entry? parent matches some .directory) then throw .isDirectory
    let p ← d.enter parent name
    match d.entry? p with
    | some .directory => throw .isDirectory
    | _ => return d.insert p (.file (String.ofList content).toUTF8)

/-- The directory with directories at every step along the names, from a place on. -/
def makeDirectories (d : Directory) : (p : Place) → (names : List Text) → Directory
  | _, [] => d
  | p, name :: rest =>
    let p := p.next name
    let d := if (d.entry? p).isSome then d else d.insert p .directory
    d.makeDirectories p rest

def addDirectory (d : Directory) (path : Text) : Directory := d.makeDirectories (.start path) (Place.namesOf path)

/-- The directory with a file at a path, and directories on the way to it. -/
def addFile (d : Directory) (path : Text) (content : ByteArray) : Directory :=
  let d := d.makeDirectories (.start path) (Place.namesOf path).dropLast
  d.insert (.ofPath path) (.file content)

/-- The file operations on a directory that is kept as state. -/
def fileSystem : FileSystem (StateM Directory) where
  exists? path := do return ((← get).lookup path).toBool
  read path := do return (← get).read path
  write path content := do
    match (← get).write path content with
    | .ok d => set d; return .ok ()
    | .error e => return .error e

end Directory

end ArithMips
