/-!
# Path names

Path names are texts of components with slashes between them. An empty component and a single dot
stay where they are, two dots go up, and a slash at the front begins at the root.
-/

namespace StackAssembler.Cli.Path

/-- The components of a path that are not empty. -/
def components (path : String) : List String :=
  ((path.toList.splitOn '/').filter (!·.isEmpty)).map String.ofList

def isAbsolute (path : String) : Bool := path.toList.head? == some '/'

def endsInSlash (path : String) : Bool := path.toList.getLast? == some '/'

/-- A last component that is the name of a file: not empty, and not the dots that stand for a
directory. -/
def isName (last : List Char) : Bool := !last.isEmpty && last != ['.'] && last != ['.', '.']

/-- What stands before the last dot of a name. A name without a dot, or whose only dot is its first
character, is all stem. -/
def stem (name : List Char) : List Char :=
  let before := ((name.reverse.dropWhile (· != '.')).drop 1).reverse
  if before.isEmpty then name else before

/-- A name without its extension, which is what follows the last dot. The dot stays. -/
def cutExtension (name : List Char) : List Char :=
  if stem name = name then name else stem name ++ ['.']

/-- The stem of a name with an extension. What is no name stays as it is. -/
def setExtension (name extension : List Char) : List Char :=
  if isName name then stem name ++ '.' :: extension else name

/-- The path with the extension of its last component replaced. The old extension is cut off before
the new one is set, so where only two dots are left of a name, they are the parent directory and
take no extension. -/
def withExtension (path extension : String) : String :=
  let backwards := path.toList.reverse
  let last := (backwards.takeWhile (· != '/')).reverse
  let parent := (backwards.dropWhile (· != '/')).reverse
  String.ofList (parent ++ setExtension (cutExtension last) extension.toList)

end StackAssembler.Cli.Path
