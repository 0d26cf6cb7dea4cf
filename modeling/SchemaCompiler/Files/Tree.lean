import SchemaCompiler.Files.Path
import SchemaCompiler.Files.Store
import SchemaCompiler.Table

/-! A tree of files as a value. Every file and directory stands under the names that lead to it from
the root, and the order of the table is the order in which the tree is walked. -/

namespace SchemaCompiler

inductive FileEntry where
  /-- A file with its text, if its bytes are text. -/
  | file (text : Option String)
  | directory
deriving DecidableEq, Repr

abbrev FileTree := Table (List String) FileEntry

namespace FileTree

/-- What stands at a place. The root is always there. -/
def entry? (t : FileTree) : List String → Option FileEntry
  | [] => some .directory
  | place => Table.get? place t

def longestName : Nat := 255

/-- The place that one segment leads to from a place that must be a directory. -/
def enter (t : FileTree) (here : List String) (segment : String) : Except FileError (List String) :=
  match t.entry? here with
  | none => .error .missing
  | some (.file _) => .error .notADirectory
  | some .directory =>
    if !Path.isName segment then .ok here
    else if segment == ".." then .ok here.dropLast
    else if segment.utf8ByteSize > longestName then .error .nameTooLong
    else .ok (here ++ [segment])

/-- The place that a path leads to from the root. Nothing need be there yet. -/
def locate (t : FileTree) (path : String) : Except FileError (List String) :=
  if path.isEmpty then .error .missing else (Path.segments path).foldlM t.enter []

def find (t : FileTree) (path : String) : Except FileError FileEntry := do
  match t.entry? (← t.locate path) with
  | some e => .ok e
  | none => .error .missing

def isPresent (t : FileTree) (path : String) : Bool := (t.find path).isOk

def isDirectory (t : FileTree) (path : String) : Bool :=
  match t.find path with
  | .ok .directory => true
  | _ => false

def read (t : FileTree) (path : String) : Except FileError String := do
  match ← t.find path with
  | .file (some text) => .ok text
  | .file none => .error .notText
  | .directory => .error .isADirectory

/-- The names that lead from a directory to a file below it. -/
def namesBelow? (directory : List String) : List String × FileEntry → Option (List String)
  | (place, .file _) => directory.isPrefixOf? place
  | (_, .directory) => none

def filesBelow (t : FileTree) (path : String) : Except FileError (List String) := do
  let directory ← t.locate path
  .ok ((t.filterMap (namesBelow? directory)).map fun names => names.foldl Path.join path)

def write (t : FileTree) (path text : String) : Except FileError FileTree := do
  let place ← t.locate path
  match t.entry? place with
  | some .directory => .error .isADirectory
  | _ => .ok (Table.insert place (.file (some text)) t)

/-- Makes a directory. A slash at the end of its path says nothing. -/
def makeDirectory (t : FileTree) (path : String) : Except FileError FileTree := do
  let segments := ((Path.segments path).reverse.dropWhile (· == "")).reverse
  let place ← segments.foldlM t.enter []
  match t.entry? place with
  | some _ => .error .exists
  | none => .ok (Table.insert place .directory t)

end FileTree

end SchemaCompiler
