import SchemaCompiler.Error
import SchemaCompiler.QualifiedName
import SchemaCompiler.Table
import SchemaCompiler.Version

/-! Finding definitions by short name, whatever its case. Of several definitions with one name the
one of the most stable version counts, then one of the core group, then the first group by name. -/

namespace SchemaCompiler

structure Candidate where
  key : String
  name : QualifiedName
deriving Repr

/-- Which of two candidates for a name comes first. -/
def Candidate.order (a b : Candidate) : Ordering :=
  let version (c : Candidate) := c.name.version.getD ""
  (Version.order (version b) (version a)).then
    ((compare (b.name.group == "core") (a.name.group == "core")).then
      (compare a.name.group b.name.group))

structure ShortNames where
  /-- The candidate that each name in lower case stands for. -/
  chosen : Table String Candidate := []
  keys : List String := []

namespace ShortNames

def lowercase (s : String) : String :=
  String.ofList (s.toList.map Char.toLower)

/-- Of two equally good candidates the earlier one stays. -/
def offer (names : ShortNames) (c : Candidate) : ShortNames :=
  let short := lowercase c.name.name
  let best := match Table.get? short names.chosen with
    | some old => if c.order old == .lt then c else old
    | none => c
  { chosen := Table.insert short best names.chosen, keys := c.key :: names.keys }

def addKey (names : ShortNames) (key : String) : Except Error ShortNames :=
  match QualifiedName.parse? key with
  | some name => .ok (names.offer ⟨key, name⟩)
  | none => .error (.unknownGroup (QualifiedName.identifier key))

def ofKeys (keys : List String) : Except Error ShortNames :=
  keys.foldlM addKey {}

/-- The definition that a short name or a whole key asks for. -/
def resolve (names : ShortNames) (requested : String) : Except Error String :=
  match Table.get? (lowercase requested) names.chosen with
  | some c => .ok c.key
  | none => if names.keys.contains requested then .ok requested else .error (.unknownType requested)

end ShortNames

end SchemaCompiler
