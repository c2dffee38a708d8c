/-
Files and directories.

A file system is a value: a table of what stands at each location, and the
directory that relative paths start from.  A location lists the names on the way
from the root.  Programs that read and write files are stated over
`FileAccess`, so that they run on such a value as well as on a machine.
-/
import Shellwright.SourcePath

namespace Shellwright

inductive FileError where
  | noSuchEntry
  | notADirectory
  | isADirectory
  | nameTooLong
  | nulInPath
  | notText
  | other (text : String)
deriving DecidableEq, Repr

def FileError.message : FileError → String
  | noSuchEntry => "No such file or directory (os error 2)"
  | notADirectory => "Not a directory (os error 20)"
  | isADirectory => "Is a directory (os error 21)"
  | nameTooLong => "File name too long (os error 36)"
  | nulInPath => "file name contained an unexpected NUL byte"
  | notText => "stream did not contain valid UTF-8"
  | other text => text

/-- What a program may do with files. -/
class FileAccess (m : Type → Type) where
  pathExists (path : String) : m Bool
  readText (path : String) : m (Except FileError String)
  /-- Creates the file or replaces what it holds. -/
  writeText (path text : String) : m (Except FileError Unit)
  /-- Lets everybody execute a file, if it is there. -/
  markExecutable (path : String) : m Unit
  /-- The same place as an absolute path without detours, if it is there. -/
  canonical? (path : String) : m (Option String)

/-- Names from the root down. -/
abbrev Location := List String

/-- The content of a file, byte by byte. -/
abbrev Content := List UInt8

def Content.ofText (text : String) : Content := text.toUTF8.data.toList

/-- The text that the bytes encode, if they do. -/
def Content.text? (content : Content) : Option String :=
  String.fromUTF8? ⟨content.toArray⟩

structure File where
  content : Content
  executable : Bool
deriving DecidableEq, Repr

inductive Entry where
  | directory
  | file (file : File)
deriving DecidableEq, Repr

structure FileSystem where
  workingDirectory : Location
  entries : List (Location × Entry)
deriving DecidableEq, Repr

namespace FileSystem

/-- The entry at a location.  The root is always there. -/
def entry? (fs : FileSystem) (location : Location) : Option Entry :=
  if location = [] then some .directory else fs.entries.lookup location

/-- Replaces the entry at a location. -/
def put (fs : FileSystem) (location : Location) (entry : Entry) : FileSystem :=
  { fs with
    entries := (location, entry) :: fs.entries.filter
      fun other => other.1 != location }

/-- Fails unless there is a directory at `location`. -/
def requireDirectory (fs : FileSystem) (location : Location) :
    Except FileError Unit :=
  match fs.entry? location with
  | some .directory => .ok ()
  | some (.file _) => .error .notADirectory
  | none => .error .noSuchEntry

/-- The longest name in bytes. -/
def nameLimit : Nat := 255

/-- The longest path in bytes. -/
def pathLimit : Nat := 4095

/-- Follows the parts of a path.  Every step starts in a directory; where the
last one leads need not be there. -/
def walk (fs : FileSystem) (here : Location) : List String →
    Except FileError Location
  | [] => .ok here
  | part :: rest => do
      fs.requireDirectory here
      if SourcePath.isIdle part then fs.walk here rest
      else if part = ".." then fs.walk here.dropLast rest
      else if part.utf8ByteSize > nameLimit then .error .nameTooLong
      else fs.walk (here ++ [part]) rest

/-- Paths that are refused unseen. -/
def checkPath (path : String) : Except FileError Unit :=
  if path.toList.contains (Char.ofNat 0) then .error .nulInPath
  else if path = "" then .error .noSuchEntry
  else if path.utf8ByteSize > pathLimit then .error .nameTooLong
  else .ok ()

/-- Where a path starts and the parts to follow from there. -/
def route (fs : FileSystem) (path : String) : Location × List String :=
  if SourcePath.isAbsolute path then ([], SourcePath.belowRoot path)
  else (fs.workingDirectory, SourcePath.parts path)

/-- The location and entry a path leads to. -/
def find (fs : FileSystem) (path : String) :
    Except FileError (Location × Entry) := do
  checkPath path
  let (start, parts) := fs.route path
  let location ← fs.walk start parts
  match fs.entry? location with
  | some entry => return (location, entry)
  | none => throw .noSuchEntry

/-- The location at which a file with this path can be written.  The last part
has to be a plain name. -/
def findTarget (fs : FileSystem) (path : String) :
    Except FileError Location := do
  checkPath path
  let (start, parts) := fs.route path
  let named := dropTrailing (· == "") parts
  match named.getLast? with
  | none => throw .isADirectory
  | some name =>
      let directory ← fs.walk start named.dropLast
      fs.requireDirectory directory
      if named.length < parts.length ∨ name = "." ∨ name = ".." then
        throw .isADirectory
      let location ← fs.walk directory [name]
      match fs.entry? location with
      | some .directory => throw .isADirectory
      | _ => return location

def readText (fs : FileSystem) (path : String) : Except FileError String := do
  match ← fs.find path with
  | (_, .directory) => throw .isADirectory
  | (_, .file file) =>
      match Content.text? file.content with
      | some text => return text
      | none => throw .notText

/-- Whether the file at `location` may be executed. -/
def isExecutable (fs : FileSystem) (location : Location) : Bool :=
  match fs.entry? location with
  | some (.file file) => file.executable
  | _ => false

/-- Writing to a file leaves it executable if it was. -/
def writeText (fs : FileSystem) (path text : String) :
    Except FileError FileSystem := do
  let location ← fs.findTarget path
  return fs.put location (.file ⟨.ofText text, fs.isExecutable location⟩)

def markExecutable (fs : FileSystem) (path : String) : FileSystem :=
  match fs.find path with
  | .ok (location, .file file) =>
      fs.put location (.file { file with executable := true })
  | _ => fs

def canonical? (fs : FileSystem) (path : String) : Option String :=
  match fs.find path with
  | .ok (location, _) => some ("/" ++ SourcePath.joined location)
  | .error _ => none

instance : FileAccess (StateM FileSystem) where
  pathExists path := return (← get).find path |>.isOk
  readText path := return (← get).readText path
  writeText path text := do
    match (← get).writeText path text with
    | .ok fs => set fs; return .ok ()
    | .error error => return .error error
  markExecutable path := modify (·.markExecutable path)
  canonical? path := return (← get).canonical? path

/-- Makes the directories on the way from `here` along `names`. -/
def makeDirectories (fs : FileSystem) (here : Location) : List String →
    FileSystem
  | [] => fs
  | name :: rest =>
      (fs.put (here ++ [name]) .directory).makeDirectories (here ++ [name]) rest

/-- A file system in which only the way to the working directory exists. -/
def startingIn (workingDirectory : Location) : FileSystem :=
  (⟨workingDirectory, []⟩ : FileSystem).makeDirectories [] workingDirectory

/-- The names on a path that goes straight down. -/
def namesOf (path : String) : List String :=
  (SourcePath.parts path).filter (!SourcePath.isIdle ·)

/-- Adds a directory, and the directories above it, below the working
directory. -/
def addDirectory (fs : FileSystem) (path : String) : FileSystem :=
  fs.makeDirectories fs.workingDirectory (namesOf path)

/-- Adds a file, and the directories above it, below the working directory. -/
def addFile (fs : FileSystem) (path : String) (content : Content) :
    FileSystem :=
  (fs.makeDirectories fs.workingDirectory (namesOf path).dropLast).put
    (fs.workingDirectory ++ namesOf path) (.file ⟨content, false⟩)

/-- What is left of a location below a directory. -/
def below? : (directory location : Location) → Option Location
  | [], location => some location
  | _ :: _, [] => none
  | name :: directory, part :: location =>
      if name = part then below? directory location else none

/-- The files below the working directory that are new or differ from `before`,
sorted by their paths. -/
def changedSince (before fs : FileSystem) : List (String × File) :=
  let changed := fs.entries.filterMap fun (location, entry) =>
    match entry, below? fs.workingDirectory location with
    | .file file, some names =>
        if before.entry? location = some entry then none
        else some (SourcePath.joined names, file)
    | _, _ => none
  changed.mergeSort fun a b => decide (a.1 ≤ b.1)

end FileSystem

end Shellwright
