import StackAssembler.Cli.Path

/-!
# File trees

Files and directories as a value, with reading and writing by path name. Reading fails on a missing
path and on a directory; writing fails on a directory and where the parent is missing, and replaces
the whole content otherwise.
-/

namespace StackAssembler.Cli

/-- Why a file could not be read or written. -/
inductive FileFault where
  | notFound
  | notDirectory
  | isDirectory
  | nameTooLong
  | notText
  | other (text : String)
  deriving DecidableEq, Repr

def FileFault.message : FileFault → String
  | .notFound => "No such file or directory (os error 2)"
  | .notDirectory => "Not a directory (os error 20)"
  | .isDirectory => "Is a directory (os error 21)"
  | .nameTooLong => "File name too long (os error 36)"
  | .notText => "stream did not contain valid UTF-8"
  | .other text => text

/-- Contents are compared byte by byte. -/
instance (priority := high) decEqContent : DecidableEq ByteArray := ByteArray.instDecidableEq

/-- A place in a tree: the names on the way from the root. -/
abbrev Place := List String

/-- Directories and files under a root, which is always there. Relative paths begin at the working
directory. -/
structure FileTree where
  working : Place
  directories : List Place
  files : List (Place × ByteArray)
  deriving DecidableEq

namespace FileTree

/-- Is there a directory at the place? -/
def isDirectory (t : FileTree) (place : Place) : Bool :=
  place.isEmpty || t.directories.contains place

def file? (t : FileTree) (place : Place) : Option ByteArray := t.files.lookup place

/-- The tree with the content of a file replaced, or with a new file. -/
def set (t : FileTree) (place : Place) (content : ByteArray) : FileTree :=
  { t with files := (place, content) :: t.files.filter (·.1 != place) }

/-- Names are at most this many bytes long. -/
def maxNameBytes : Nat := 255

/-- Paths are at most this many bytes long. -/
def maxPathBytes : Nat := 4095

/-- Go on from a directory to the directory that a component names. -/
def enter (t : FileTree) (place : Place) (component : String) : Except FileFault Place :=
  if component = "." then .ok place
  else if component = ".." then .ok place.dropLast
  else if maxNameBytes < component.utf8ByteSize then .error .nameTooLong
  else
    let next := place ++ [component]
    if t.isDirectory next then .ok next
    else if (t.file? next).isSome then .error .notDirectory
    else .error .notFound

/-- The place that a path names, whose parent has to be there. A path whose form is that of a
directory names none. -/
def locate (t : FileTree) (path : String) : Except FileFault (Option Place) :=
  if path = "" then .error .notFound
  else if maxPathBytes < path.utf8ByteSize then .error .nameTooLong
  else
    let start := if Path.isAbsolute path then [] else t.working
    match (Path.components path).reverse with
    | [] => .ok none
    | last :: parents =>
      match parents.reverse.foldlM t.enter start with
      | .error fault => .error fault
      | .ok parent => .ok (if last = "." || last = ".." then none else some (parent ++ [last]))

/-- Is the last name of a place too long? -/
def lastTooLong (place : Place) : Bool :=
  place.getLast?.any (maxNameBytes < ·.utf8ByteSize)

def read (t : FileTree) (path : String) : Except FileFault ByteArray :=
  match t.locate path with
  | .error fault => .error fault
  | .ok none => .error .isDirectory
  | .ok (some place) =>
    if lastTooLong place then .error .nameTooLong
    else if t.isDirectory place then .error .isDirectory
    else
      match t.file? place with
      | none => .error .notFound
      | some content => if Path.endsInSlash path then .error .notDirectory else .ok content

/-- The tree in which the file with the given path has the given content. -/
def write (t : FileTree) (path : String) (content : ByteArray) : Except FileFault FileTree :=
  match t.locate path with
  | .error fault => .error fault
  | .ok none => .error .isDirectory
  | .ok (some place) =>
    if Path.endsInSlash path then .error .isDirectory
    else if lastTooLong place then .error .nameTooLong
    else if t.isDirectory place then .error .isDirectory
    else .ok (t.set place content)

/-- The files that one tree has and another has not, or with another content. -/
def changes (before after : FileTree) : List (Place × ByteArray) :=
  after.files.filter fun (place, content) => before.file? place != some content

end FileTree

end StackAssembler.Cli
