/-!
# Folders

A `Folder` is a directory that holds only files, as a program sees it that runs in it. Nothing is
known of what lies outside it, except the null device and that there are directories around it: a
file in one of these is not found, and may be written.

* `Place.ofPath` says where a path leads, without looking at the files.
* `Folder.read` and `Folder.write` follow a path. It cannot be followed through a file or through a
  name that is missing; a slash after a name asks for a directory.

The specification does not speak about folders; they stand for the operating system that the command
line runs on, and follow its rules. A path of more than 4095 bytes is too long before anything is
looked up, a name of more than 255 when it is looked up, so that a missing name before it is found
first. Leading steps that stay where they are, or go up, are allowed.

A file is written in full or not at all; that a file is created and cannot be filled is left out.
Results about whole runs are about any `CommandLine.Files`, of which a folder is one.
-/

namespace ShaderReflect

/-- Why a file cannot be read or written. -/
inductive FileError
  | missing
  | notDirectory
  | isDirectory
  | nameTooLong
  /-- Anything else that can go wrong with a file. -/
  | other (reason : String)
deriving DecidableEq, Repr

/-- The wording of a failure, as the operating system words it. -/
def FileError.message : FileError → String
  | .missing => "No such file or directory (os error 2)"
  | .notDirectory => "Not a directory (os error 20)"
  | .isDirectory => "Is a directory (os error 21)"
  | .nameTooLong => "File name too long (os error 36)"
  | .other reason => reason

/-! ## Paths -/

/-- Where a path leads. -/
inductive Place
  /-- To this directory or to one around it. -/
  | directory
  /-- To a name, in this directory or in one around it. -/
  | entry (isInside : Bool) (name : String) (hasSlash : Bool)
  /-- Through a name to something else. -/
  | through (isInside : Bool) (name : String)
deriving DecidableEq, Repr

namespace Place

/-- The longest name, in bytes. -/
def maxName : Nat := 255

/-- The longest path, in bytes. -/
def maxPath : Nat := 4095

/-- The path of the null device. -/
def nullDevice : String := "/dev/null"

/-- Whether a step of a path stays where it is, or goes one directory up. -/
def isNameless (step : String) : Bool := step == "" || step == "." || step == ".."

/-- Where a path leads; an empty one leads nowhere. -/
def ofPath (path : String) : Option Place :=
  let steps := path.splitOn "/"
  let isInside := !path.startsWith "/" && !(steps.takeWhile isNameless).contains ".."
  match steps.dropWhile isNameless with
  | [] => if path.isEmpty then none else some .directory
  | name :: rest =>
    some (if rest.all (· == "") then .entry isInside name (!rest.isEmpty)
      else .through isInside name)

end Place

/-- A directory of files, by name. -/
structure Folder where
  files : List (String × List UInt8) := []
deriving DecidableEq, Repr

namespace Folder

/-- The contents of the file with a name, if there is one; nothing is found outside. -/
def content? (f : Folder) (isInside : Bool) (name : String) :
    Except FileError (Option (List UInt8)) :=
  if Place.maxName < name.utf8ByteSize then .error .nameTooLong
  else .ok (if isInside then f.files.lookup name else none)

/-- Where a path leads, if it leads anywhere and is not too long. -/
def place (path : String) : Except FileError Place :=
  if Place.maxPath < path.utf8ByteSize then .error .nameTooLong
  else match Place.ofPath path with
    | some p => .ok p
    | none => .error .missing

/-- Why a path cannot be followed through a name. -/
def throughError (f : Folder) (isInside : Bool) (name : String) : FileError :=
  match f.content? isInside name with
  | .ok (some _) => .notDirectory
  | .ok none => .missing
  | .error e => e

/-- The bytes of a file, or why it cannot be read. The null device is empty. -/
def read (f : Folder) (path : String) : Except FileError (List UInt8) := do
  if path = Place.nullDevice then return []
  match ← place path with
  | .directory => throw .isDirectory
  | .through isInside name => throw (f.throughError isInside name)
  | .entry isInside name hasSlash =>
    match ← f.content? isInside name with
    | none => throw .missing
    | some bytes => if hasSlash then throw .notDirectory else return bytes

/-- Write a file, or say why it cannot be written. The null device forgets what is written. -/
def write (f : Folder) (path : String) (bytes : List UInt8) : Except FileError Folder := do
  if path = Place.nullDevice then return f
  match ← place path with
  | .directory => throw .isDirectory
  | .through isInside name => throw (f.throughError isInside name)
  | .entry _ _ true => throw .isDirectory
  | .entry isInside name false =>
    let _ ← f.content? isInside name
    return if isInside then { files := (name, bytes) :: f.files.filter (·.1 ≠ name) } else f

end Folder

end ShaderReflect
