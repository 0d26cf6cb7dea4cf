/-! Paths, names between slashes. -/

namespace SchemaCompiler.Path

/-- The names between slashes. A doubled slash and one at either end leave an empty name. -/
def segments (path : String) : List String :=
  (path.toList.splitOn '/').map String.ofList

/-- A path seen from a directory; one that begins at the root stays as it is. -/
def join (directory path : String) : String :=
  if path.toList.head? == some '/' then path
  else if directory.isEmpty || directory.toList.getLast? == some '/' then directory ++ path
  else directory ++ "/" ++ path

def isName (segment : String) : Bool :=
  segment != "" && segment != "."

/-- The last name of a path, if it does not lead upwards. -/
def fileName? (path : String) : Option String :=
  ((segments path).filter isName).getLast?.filter (· != "..")

def dropUnnamed (segments : List String) : List String :=
  (segments.reverse.dropWhile (!isName ·)).reverse

/-- The path without its last name. -/
def parent (path : String) : String :=
  "/".intercalate (dropUnnamed (dropUnnamed (segments path)).dropLast)

/-- What follows the last dot of a name, unless only that dot stands before it. -/
def extensionOf? (name : List Char) : Option String :=
  let reversed := name.reverse
  match reversed.dropWhile (· != '.') with
  | _ :: _ :: _ => some (String.ofList (reversed.takeWhile (· != '.')).reverse)
  | _ => none

def extension? (path : String) : Option String :=
  (fileName? path).bind (extensionOf? ·.toList)

def isYaml (path : String) : Bool :=
  extension? path == some "yaml" || extension? path == some "yml"

/-- Whether a file in a directory is read along with it. -/
def holdsDocument (path : String) : Bool :=
  isYaml path || extension? path == some "json"

end SchemaCompiler.Path
